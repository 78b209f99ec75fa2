import Aip.Lib.Runs
import Aip.Lib.Blocks

/-! The allocator of the shared memory, `imp_alloc_api.c`, and the calls that its users make. -/

namespace Aip

/-- `AllocBufStatus_e`. -/
inductive AllocBufStatus where
  | free
  | busy
  deriving DecidableEq, Repr

/-- `Bufunit_s`, without its links; no unit in the list of the root has children of its own. -/
structure Bufunit where
  status : AllocBufStatus
  vaddr : Nat
  length : Nat
  offset : Nat
  deriving DecidableEq, Repr

/-- The arguments of `Local_HeapInit` that it accepts, for a memory that does not wrap around. -/
structure HeapMem where
  heap : Nat
  size : Nat
  valid : 0 < heap ∧ heap % 4 = 0
  room : 4 ≤ size
  visible : heap + size < 2 ^ 32

/-- `Alloc`, with the children of `buf_root` in the order of the list. -/
structure Alloc where
  start : Nat
  size : Nat
  units : List Bufunit
  deriving DecidableEq, Repr

/-- `Local_HeapInit`, which leaves out as many bytes as a pointer has. -/
def localHeapInit (mem : HeapMem) : Alloc where
  start := mem.heap + 4
  size := mem.size - 4
  units := [{ status := .free, vaddr := mem.heap + 4, length := mem.size - 4, offset := 0 }]

namespace Bufunit

/-- The assignments to `freeunit`. -/
def take (unit : Bufunit) (size offset : Nat) : Bufunit :=
  { status := .busy
    vaddr := (unit.vaddr + offset) % 2 ^ 32
    length := (size + offset) % 2 ^ 32
    offset := offset }

/-- The assignments to `newunit`, whose other fields are zero. -/
def rest (unit : Bufunit) (size offset : Nat) : Bufunit :=
  { status := .free
    vaddr := (unit.vaddr + size + offset) % 2 ^ 32
    length := (unit.length + 2 * 2 ^ 32 - size - offset) % 2 ^ 32
    offset := 0 }

/-- The first assignments of `free_bufunit`. -/
def release (unit : Bufunit) : Bufunit :=
  { unit with status := .free, vaddr := (unit.vaddr + 2 ^ 32 - unit.offset) % 2 ^ 32 }

/-- A unit takes over the length of the one behind it. -/
def grow (unit next : Bufunit) : Bufunit :=
  { unit with length := (unit.length + next.length) % 2 ^ 32 }

end Bufunit

/-- A unit to be taken, with the units around it and the `offset` that aligns it. -/
structure Fit where
  before : List Bufunit
  unit : Bufunit
  after : List Bufunit
  offset : Nat
  deriving DecidableEq, Repr

/-- The same unit in a list with one more unit in front. -/
def Fit.behind (unit : Bufunit) (fit : Fit) : Fit := { fit with before := unit :: fit.before }

/-- The loop of `alloc_bufunit`. -/
def findFit (size alignsize : Nat) : List Bufunit → Option Fit
  | [] => none
  | unit :: rest =>
    -- A free unit that is too short once it is aligned is passed over.
    if unit.status = .free ∧ size ≤ unit.length then
      if unit.vaddr % alignsize ≠ 0 then
        let offset := alignsize - unit.vaddr % alignsize
        if (size + offset) % 2 ^ 32 ≤ unit.length then some ⟨[], unit, rest, offset⟩
        else (findFit size alignsize rest).map (Fit.behind unit)
      else some ⟨[], unit, rest, 0⟩
    else (findFit size alignsize rest).map (Fit.behind unit)

/-- What is behind `if (freeunit)`; `room` tells whether `IMP_alloc_unit` finds memory. -/
def Fit.alloc (fit : Fit) (size : Nat) (room : Bool) : Option (List Bufunit × Nat) :=
  let unit := fit.unit.take size fit.offset
  if (size + fit.offset) % 2 ^ 32 < fit.unit.length then
    -- The rest becomes a unit of its own; without memory for it nothing is handed out.
    if room then
      some (fit.before ++ unit :: fit.unit.rest size fit.offset :: fit.after, unit.vaddr)
    else none
  else some (fit.before ++ unit :: fit.after, unit.vaddr)

/-- `alloc_bufunit`: the units and the address of the one that is handed out. -/
def allocBufunit (units : List Bufunit) (size alignsize : Nat) (room : Bool) :
    Option (List Bufunit × Nat) := do
  let fit ← findFit size alignsize units
  fit.alloc size room

/-- `find_bufunit_byaddr`: the unit with the units in front of it and behind it. -/
def findBufunitByaddr (addr : Nat) : List Bufunit →
    Option (List Bufunit × Bufunit × List Bufunit)
  | [] => none
  | unit :: rest =>
    if unit.vaddr = addr then some ([], unit, rest)
    else (findBufunitByaddr addr rest).map fun place => (unit :: place.1, place.2)

/-- The part of `free_bufunit` about the next brother. -/
def joinNext (self : Bufunit) : List Bufunit → List Bufunit
  | [] => [self]
  | next :: after => if next.status = .free then self.grow next :: after else self :: next :: after

/-- The part of `free_bufunit` about the previous brother. -/
def joinPrev (prev self : Bufunit) (after : List Bufunit) : List Bufunit :=
  if prev.status = .free then prev.grow self :: after else prev :: self :: after

/-- `free_bufunit` of a unit between others. -/
def freeBufunit (before : List Bufunit) (self : Bufunit) (after : List Bufunit) : List Bufunit :=
  -- First the next brother is joined, then the previous one.
  match joinNext self.release after with
  | [] => before
  | self :: after =>
    match before.getLast? with
    | none => self :: after
    | some prev => before.dropLast ++ joinPrev prev self after

/-- What `Local_alignAlloc` answers when `alloc_bufunit` has returned; the address 0 is `NULL`. -/
def Alloc.answer (alloc : Alloc) : Option (List Bufunit × Nat) → Alloc × Nat
  | none => (alloc, 0)
  | some (units, addr) => ({ alloc with units := units }, addr)

/-- `Local_alignAlloc`. -/
def localAlignAlloc (alloc : Alloc) (alignsize size : Nat) (room : Bool) : Alloc × Nat :=
  if alignsize = 0 then (alloc, 0)
  else alloc.answer (allocBufunit alloc.units size alignsize room)

/-- `Local_Alloc`. -/
def localAlloc (alloc : Alloc) (nbytes : Nat) (room : Bool) : Alloc × Nat :=
  localAlignAlloc alloc 1 nbytes room

/-- `Local_Calloc`, without the zeros it writes. -/
def localCalloc (alloc : Alloc) (size n : Nat) (room : Bool) : Alloc × Nat :=
  localAlignAlloc alloc 1 (size * n % 2 ^ 32) room

/-- `Local_Dealloc`, with the number of bytes it answers. -/
def localDealloc (alloc : Alloc) (addr : Nat) : Alloc × Nat :=
  if addr = 0 then (alloc, 0)
  else
    -- An address that no unit starts at is ignored.
    match findBufunitByaddr addr alloc.units with
    | none => (alloc, 0)
    | some (before, unit, after) =>
      ({ alloc with units := freeBufunit before unit after },
        (unit.length + 2 ^ 32 - unit.offset) % 2 ^ 32)

/-- A call of a user; `room` tells whether `IMP_alloc_unit` finds memory. -/
inductive HeapCall where
  | alignAlloc (alignsize size : UInt32) (room : Bool)
  | alloc (nbytes : UInt32) (room : Bool)
  | calloc (size n : UInt32) (room : Bool)
  | dealloc (addr : UInt32)
  deriving DecidableEq, Repr

/-- The size and the alignment that the call passes to `Local_alignAlloc`. -/
def HeapCall.request : HeapCall → Option (Nat × Nat)
  | .alignAlloc alignsize size _ => some (size.toNat, alignsize.toNat)
  | .alloc nbytes _ => some (nbytes.toNat, 1)
  | .calloc size n _ => some (size.toNat * n.toNat % 2 ^ 32, 1)
  | .dealloc _ => none

/-- Whether `IMP_alloc_unit` finds memory in the call. -/
def HeapCall.room : HeapCall → Bool
  | .alignAlloc _ _ room => room
  | .alloc _ room => room
  | .calloc _ _ room => room
  | .dealloc _ => false

/-- The allocator and, as history, the ranges its users hold. -/
structure HeapUse where
  alloc : Alloc
  live : List Region
  deriving DecidableEq, Repr

namespace HeapUse

/-- The state after `Local_HeapInit`. -/
def init (mem : HeapMem) : HeapUse := ⟨localHeapInit mem, []⟩

/-- A user holds what was asked for from the address on, unless that is `NULL`. -/
def granted (use : HeapUse) (size : Nat) (answer : Alloc × Nat) : HeapUse :=
  ⟨answer.1, if answer.2 = 0 then use.live else ⟨answer.2, size⟩ :: use.live⟩

/-- A user no longer holds the range that starts at the address, if there was one. -/
def returned (use : HeapUse) (addr : Nat) (answer : Alloc × Nat) : HeapUse :=
  ⟨answer.1, use.live.eraseP fun r => r.start = addr⟩

/-- What a call answers, with the allocator behind it. -/
def answer (use : HeapUse) : HeapCall → Alloc × Nat
  | .alignAlloc alignsize size room => localAlignAlloc use.alloc alignsize.toNat size.toNat room
  | .alloc nbytes room => localAlloc use.alloc nbytes.toNat room
  | .calloc size n room => localCalloc use.alloc size.toNat n.toNat room
  | .dealloc addr => localDealloc use.alloc addr.toNat

/-- One call. -/
def step (use : HeapUse) (call : HeapCall) : Option HeapUse :=
  match call with
  | .dealloc addr => some (use.returned addr.toNat (use.answer call))
  | .alignAlloc _ size _ => some (use.granted size.toNat (use.answer call))
  | .alloc nbytes _ => some (use.granted nbytes.toNat (use.answer call))
  | .calloc size n _ => some (use.granted (size.toNat * n.toNat % 2 ^ 32) (use.answer call))

end HeapUse

end Aip
