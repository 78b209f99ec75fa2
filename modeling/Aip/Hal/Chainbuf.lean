import Mathlib.Algebra.Order.Ring.Int
import Mathlib.Algebra.Order.Ring.Nat
import Mathlib.Data.Int.Basic

/-! The chain buffers of the three AIP units in the T41 library, `jz_aip_hal.c`. -/

namespace Aip

/-- The units of the AIP, `INDEX_AIP_P`, `INDEX_AIP_T` and `INDEX_AIP_F`. -/
inductive AipIndex where
  | p
  | t
  | f
  deriving DecidableEq, Repr

/-- What a pointer or descriptor stands for: nothing yet, something, or something released. -/
inductive Ptr where
  | null
  | live
  | stale
  deriving DecidableEq, Repr

/-- `struct aip_manage`, with what its pointers and its descriptor stand for. -/
structure AipManage where
  -- The structure itself, to which `manage_p`, `manage_t` or `manage_f` points.
  ptr : Ptr
  fdOpenCnt : Nat
  fd : Ptr
  chainNum : Nat
  size : Nat
  -- The buffer of the kernel, and how many bytes are mapped at `chainbuf.vaddr`.
  buffer : Ptr
  mapped : Nat
  deriving DecidableEq, Repr

/-- What the system answers to `aip_chainbuf_alloc`: `open`, `IOCTL_AIP_MALLOC`, and `mmap`. -/
structure ChainbufAnswers where
  opened : Bool
  malloc : Option Nat
  mapped : Bool
  deriving DecidableEq, Repr

namespace AipManage

/-- A structure as `aip_mem_init` leaves it. -/
def fresh : AipManage :=
  { ptr := .live, fdOpenCnt := 0, fd := .null, chainNum := 0, size := 0, buffer := .null,
    mapped := 0 }

/-- `IOCTL_AIP_FREE` and `close` on the descriptor. -/
def close (manage : AipManage) : AipManage :=
  { manage with fd := .stale, buffer := if manage.buffer = .live then .stale else manage.buffer }

end AipManage

/-- How `aip_chainbuf_alloc` ends, and whether it has printed "your box num is %d too much". -/
structure ChainbufAlloc where
  ret : Int
  tooMuch : Bool
  manage : AipManage
  chainBufSize : Nat
  deriving DecidableEq, Repr

/-- The part of `aip_chainbuf_alloc` that opens the device, or the way it fails. -/
def chainbufOpen (chainBufSize : Nat) (manage : AipManage) (answers : ChainbufAnswers) :
    Except ChainbufAlloc (AipManage × Nat) :=
  if manage.fdOpenCnt = 0 then
    if answers.opened = false then
      -- `err_open_fd` frees the structure, and the pointer to it stays.
      .error ⟨-1, false, { manage with ptr := .stale }, chainBufSize⟩
    else
      let manage := { manage with fd := .live }
      if manage.chainNum = 0 then
        .ok ({ manage with fdOpenCnt := manage.fdOpenCnt + 1 }, manage.size)
      else
        match answers.malloc with
        | none => .error ⟨-1, false, manage.close, chainBufSize⟩
        | some size =>
          -- A failed `mmap` does not return 0, so the check behind it always passes.
          .ok ({ manage with
            fdOpenCnt := manage.fdOpenCnt + 1
            size := size
            buffer := .live
            mapped := if answers.mapped then size else 0 }, size)
  else .ok (manage, chainBufSize)

/-- `aip_chainbuf_alloc`. -/
def aipChainbufAlloc (chainBufSize : Nat) (manage : AipManage) (answers : ChainbufAnswers) :
    ChainbufAlloc :=
  match chainbufOpen chainBufSize manage answers with
  | .error failed => failed
  | .ok (manage, chainBufSize) =>
    if chainBufSize < manage.size then ⟨-1, true, manage.close, chainBufSize⟩
    else ⟨0, false, manage, chainBufSize⟩

/-- The size of a descriptor, `struct aip_p_chaindesc` and its like. -/
def chaindesc : AipIndex → Nat
  | .p => 216
  | .t => 72
  | .f => 104

/-- `sizeof(...) * chain_num` on 32 bits. -/
def chainSize (index : AipIndex) (chainNum : Int) : Nat :=
  (chaindesc index * chainNum % 2 ^ 32).toNat

/-- The bytes that `aip_p_config_nodes` and its like write to the chain buffer. -/
def writtenBytes (index : AipIndex) (chainNum : Int) : Nat :=
  match index with
  -- A chain of the T unit is written to registers, whatever its length.
  | .t => 0
  | _ => if 1 < chainNum then chaindesc index * chainNum.toNat else 0

/-- The managers, and the variable `chain_buf_size` that all of them share. -/
structure Hal where
  manage : AipIndex → AipManage
  chainBufSize : Nat

/-- A call of `aip_p_init`, `aip_t_init` or `aip_f_init`. -/
structure HalCall where
  index : AipIndex
  chainNum : Int
  answers : ChainbufAnswers
  deriving DecidableEq, Repr

namespace HalCall

/-- The size that the call asks the kernel for when it opens the device. -/
def requested (call : HalCall) : Nat := (chainSize call.index call.chainNum + 4096) % 2 ^ 32

/-- An `int`, and a kernel that hands out at least what it is asked for. -/
def Possible (call : HalCall) : Prop :=
  (-2 ^ 31 ≤ call.chainNum ∧ call.chainNum < 2 ^ 31) ∧
    ∀ size ∈ call.answers.malloc, call.requested ≤ size ∧ size < 2 ^ 32

instance (call : HalCall) : Decidable call.Possible := inferInstanceAs (Decidable (_ ∧ _))

end HalCall

namespace Hal

/-- The managers behind `aip_mem_init`, which leaves the shared variable as it is. -/
def init (chainBufSize : Nat) : Hal := { manage := fun _ => .fresh, chainBufSize := chainBufSize }

/-- The manager as the call leaves it to `aip_chainbuf_alloc`. -/
def prepared (hal : Hal) (call : HalCall) : AipManage :=
  { hal.manage call.index with
    chainNum := (call.chainNum % 2 ^ 32).toNat
    size := chainSize call.index call.chainNum }

/-- How the call gets its buffer. -/
def alloc (hal : Hal) (call : HalCall) : ChainbufAlloc :=
  aipChainbufAlloc hal.chainBufSize (hal.prepared call) call.answers

/-- `aip_p_init`, `aip_t_init` or `aip_f_init`; a call that the system cannot answer has no result. -/
def step (hal : Hal) (call : HalCall) : Option Hal :=
  if call.Possible then
    some
      { manage := fun index =>
          if index = call.index then (hal.alloc call).manage else hal.manage index
        chainBufSize := (hal.alloc call).chainBufSize }
  else none

end Hal

end Aip
