import Aip.Lib.Runs
import Aip.Lib.Blocks
import Aip.Memory.BufList

/-! The allocator of the on-chip memory, `oram.cc`, and the calls that its users make. -/

namespace Aip

open Dlist

/-- A value converted to `uint32_t`. -/
def toUInt32 (z : Int) : Nat := (z % 2 ^ 32).toNat

/-- A 32-bit value converted to `int32_t`. -/
def toInt32 (n : Nat) : Int := if n < 2 ^ 31 then n else n - 2 ^ 32

/-- `soc_mem_buf_t`: a memory that is mapped into both address spaces without wrapping around. -/
structure SocMemBuf where
  vaddr : Nat
  paddr : Nat
  size : Nat
  mapped : 0 < size
  visible : 0 < vaddr ∧ vaddr + size < 2 ^ 32
  physical : size ≤ paddr ∧ paddr + size < 2 ^ 32

/-- `l2cache_size` as `get_oram_l2cache` reads it from its register field. -/
def l2cacheSize : Nat → Nat
  | 1 => 128 * 1024
  | 2 => 256 * 1024
  | 3 => 512 * 1024
  | 4 => 1024 * 1024
  | _ => 0

/-- `__aie_get_oram_info` after `mmap` has found room for what the cache leaves of the memory. -/
def aieGetOramInfo (field vbase : Nat) (left : l2cacheSize field < 512 * 1024)
    (user : 0 < vbase ∧ vbase + 512 * 1024 < 2 ^ 32) : SocMemBuf where
  vaddr := vbase
  paddr := 0x12600000 + l2cacheSize field
  size := 512 * 1024 - l2cacheSize field
  mapped := by omega
  visible := by omega
  physical := by omega

/-- The whole on-chip memory, none of it used as a cache, mapped at 256 MiB. -/
def SocMemBuf.uncached : SocMemBuf := aieGetOramInfo 0 0x10000000 (by decide) (by decide)

/-- The global variables of `oram.cc`. -/
structure Oram where
  phyMemory : Nat
  virMemory : Nat
  memorySize : Nat
  memoryUsed : Nat
  list : BufList
  deriving DecidableEq, Repr

/-- `MemoryInfo`. -/
structure MemoryInfo where
  phyAddr : Nat
  virAddr : Nat
  totalSize : Nat
  usedSize : Nat
  deriving DecidableEq, Repr

namespace Buf

/-- The node of `oram_memory_init`, one free node for the whole memory. -/
def whole (buf : SocMemBuf) : Buf :=
  { va := buf.vaddr, pa := buf.paddr, usrVa := buf.vaddr, usrPa := buf.paddr, offset := 0
    length := buf.size, status := .free }

/-- The assignments under "new": the free node behind the first `curLength` bytes. -/
def rest (cur : Buf) (curLength : Nat) : Buf :=
  { va := (cur.va + curLength) % 2 ^ 32
    pa := (cur.pa + curLength) % 2 ^ 32
    usrVa := 0
    usrPa := 0
    offset := 0
    length := (cur.length + 2 ^ 32 - curLength) % 2 ^ 32
    status := .free }

/-- The assignments under "old": the node is busy from an offset on. -/
def take (cur : Buf) (curOfs : Int) (curLength : Nat) : Buf :=
  { cur with
    status := .busy
    length := curLength
    offset := curOfs
    usrVa := toUInt32 (cur.va + curOfs)
    usrPa := toUInt32 (cur.pa + curOfs) }

/-- `rest`, in `oram_memalign`: how far the physical address is behind a multiple of `align`. -/
def misfit (cur : Buf) (align : Nat) : Int := toInt32 (cur.pa % align)

/-- `cur_ofs`, in `oram_memalign`: the bytes skipped in front of the user's. -/
def curOfs (cur : Buf) (align : Nat) : Int :=
  if cur.misfit align ≠ 0 then toInt32 (toUInt32 (align - cur.misfit align)) else 0

end Buf

namespace Oram

/-- `oram_memory_init`. -/
def init (buf : SocMemBuf) : Oram :=
  { phyMemory := buf.paddr
    virMemory := buf.vaddr
    memorySize := buf.size
    memoryUsed := 0
    list := ⟨[some ⟨Buf.whole buf, none, none⟩], some 0, some 0⟩ }

/-- `get_oram_memory_info`. -/
def info (o : Oram) : MemoryInfo :=
  { phyAddr := o.phyMemory, virAddr := o.virMemory, totalSize := o.memorySize,
    usedSize := o.memoryUsed }

/-- The part of both allocators that cuts a node in two and hands out the first one. -/
def split (o : Oram) (cur : Nat) (buf : Buf) (curOfs : Int) (curLength : Nat) :
    Option (Oram × Nat) := do
  let node := o.list.heap.length
  let list := o.list.createNode (buf.rest curLength)
  -- The node found shrinks to what is handed out.
  let list ← list.setBuf cur fun b => b.take curOfs curLength
  let list ← list.insertAfter cur node
  return ({ o with list := list, memoryUsed := (o.memoryUsed + curLength) % 2 ^ 32 },
    (buf.take curOfs curLength).usrVa)

/-- The loop of `oram_malloc`; `node` tells whether `create_bufnode` finds memory. -/
def mallocFrom (o : Oram) (size : Nat) (node : Bool) : Nat → Option Nat → Option (Oram × Nat)
  -- A walk takes no more steps than the heap has nodes.
  | 0, _ => none
  | _ + 1, none => some (o, 0)
  | fuel + 1, some cur => do
    let c ← look o.list.heap cur
    if c.val.status = .free ∧ size ≤ c.val.length then
      -- `oram_malloc` splits a node even if nothing is left behind.
      if node then o.split cur c.val 0 size else some (o, 0)
    else o.mallocFrom size node fuel c.next

/-- `oram_malloc`; the address 0 is `NULL`. -/
def malloc (o : Oram) (size : Nat) (node : Bool) : Option (Oram × Nat) :=
  o.mallocFrom size node (o.list.heap.length + 1) o.list.head

/-- The loop of `oram_memalign`; a division by zero is a crash. -/
def memalignFrom (o : Oram) (align size : Nat) (node : Bool) :
    Nat → Option Nat → Option (Oram × Nat)
  | 0, _ => none
  | _ + 1, none => some (o, 0)
  | fuel + 1, some cur => do
    let c ← look o.list.heap cur
    if c.val.status = .free ∧ size ≤ c.val.length then
      if align = 0 then none
      else
        -- The skipped bytes belong to the node, so they have to fit as well.
        let curOfs := c.val.curOfs align
        let curLength := toUInt32 (size + curOfs)
        if c.val.length < curLength then o.memalignFrom align size node fuel c.next
        else if toInt32 (c.val.length - curLength) < 1024 then do
          -- Too small to be worth a node of its own.
          let list ← o.list.setBuf cur fun b => b.take curOfs b.length
          return ({ o with list := list, memoryUsed := (o.memoryUsed + c.val.length) % 2 ^ 32 },
            (c.val.take curOfs c.val.length).usrVa)
        else if node then o.split cur c.val curOfs curLength
        else some (o, 0)
    else o.memalignFrom align size node fuel c.next

/-- `oram_memalign`. -/
def memalign (o : Oram) (align size : Nat) (node : Bool) : Option (Oram × Nat) :=
  o.memalignFrom align size node (o.list.heap.length + 1) o.list.head

/-- `oram_free`. -/
def free (o : Oram) (addr : Nat) : Option Oram := do
  match ← o.list.findNode addr with
  | none => return o
  | some cur =>
    let c ← look o.list.heap cur
    let list ← o.list.setBuf cur fun b => { b with status := .free }
    let list ← list.mergeNode cur
    return { o with
      list := list, memoryUsed := (o.memoryUsed + 2 ^ 32 - c.val.length) % 2 ^ 32 }

end Oram

/--
A call of a user; `node` tells whether `create_bufnode` finds memory.

An alignment of zero is no valid argument, because the allocator divides by it.
-/
inductive OramCall where
  | malloc (size : UInt32) (node : Bool)
  | memalign (align size : UInt32) (node : Bool) (positive : align ≠ 0)
  | free (addr : UInt32)
  deriving DecidableEq, Repr

/-- The number of bytes that a call asks for. -/
def OramCall.size : OramCall → Nat
  | .malloc size _ => size.toNat
  | .memalign _ size _ _ => size.toNat
  | .free _ => 0

/-- The allocator and, as history, the ranges its users hold. -/
structure OramUse where
  oram : Oram
  live : List Region
  deriving DecidableEq, Repr

namespace OramUse

/-- The state after `oram_memory_init`. -/
def init (buf : SocMemBuf) : OramUse := ⟨Oram.init buf, []⟩

/-- A user holds what was asked for from the address on, unless that is `NULL`. -/
def granted (use : OramUse) (oram : Oram) (addr size : Nat) : OramUse :=
  ⟨oram, if addr = 0 then use.live else ⟨addr, size⟩ :: use.live⟩

/-- A user no longer holds the range that starts at the address, if there was one. -/
def returned (use : OramUse) (oram : Oram) (addr : Nat) : OramUse :=
  ⟨oram, use.live.eraseP fun r => r.start = addr⟩

/-- One call; there is no state after a crash. -/
def step (use : OramUse) : OramCall → Option OramUse
  | .malloc size node => do
    let (oram, addr) ← use.oram.malloc size.toNat node
    return use.granted oram addr size.toNat
  | .memalign align size node _ => do
    let (oram, addr) ← use.oram.memalign align.toNat size.toNat node
    return use.granted oram addr size.toNat
  | .free addr => do
    let oram ← use.oram.free addr.toNat
    return use.returned oram addr.toNat

end OramUse

end Aip
