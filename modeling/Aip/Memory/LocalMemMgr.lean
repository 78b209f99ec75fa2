import Aip.Lib.Region
import Aip.Lib.Words

/-! The older allocator of the driver, `LocalMemMgr.c`, whose headers lie in the memory it manages. -/

namespace Aip

open Words

/-- An area of memory for a heap, aligned to words, that does not wrap around. -/
structure HeapArea where
  heap : Nat
  size : Nat
  aligned : heap % 4 = 0
  enough : 80 ≤ size
  inside : heap + size < 2 ^ 32

namespace LocalMem

/-- `MIN_FREE_BYTES`. -/
def minFreeBytes : Nat := 64

/-- `SIZE_HEADER`. -/
def sizeHeader : Nat := 16

/-- `FREE`. -/
def statusFree : Nat := 0

/-- `RESERVED`. -/
def statusReserved : Nat := 1

/-! The macros for the words of a block and of the heap: `local_prev` and the others. -/

def localPrev (m : Mem) (i : Nat) : Nat := load m i

def localNext (m : Mem) (i : Nat) : Nat := load m ((i + 4) % 2 ^ 32)

def localStatus (m : Mem) (i : Nat) : Nat := load m ((i + 8) % 2 ^ 32)

def localSize (m : Mem) (i : Nat) : Nat :=
  (localNext m i + 2 ^ 32 - i + 2 ^ 32 - sizeHeader) % 2 ^ 32

def localGetalign (m : Mem) (i : Nat) : Nat := load m ((i + 2 ^ 32 - 4) % 2 ^ 32)

def localFirst (m : Mem) (heap : Nat) : Nat := load m heap

def localLast (m : Mem) (heap : Nat) : Nat := load m ((heap + 4) % 2 ^ 32)

def setLocalPrev (m : Mem) (i v : Nat) : Mem := store m i v

def setLocalNext (m : Mem) (i v : Nat) : Mem := store m ((i + 4) % 2 ^ 32) v

def setLocalStatus (m : Mem) (i v : Nat) : Mem := store m ((i + 8) % 2 ^ 32) v

def localSetalign (m : Mem) (i v : Nat) : Mem := store m ((i + 2 ^ 32 - 4) % 2 ^ 32) v

def setLocalFirst (m : Mem) (heap v : Nat) : Mem := store m heap v

def setLocalLast (m : Mem) (heap v : Nat) : Mem := store m ((heap + 4) % 2 ^ 32) v

/-- `Local_HeapInit`, with what it returns. -/
def localHeapInit (m : Mem) (heap size : Nat) : Mem × Nat :=
  if heap % 4 ≠ 0 then (m, 0)
  else if size < 16 then (m, 0)
  else
    -- One free block, from `MIN_FREE_BYTES` behind the start of the heap to its end.
    let m := setLocalFirst m heap ((heap + minFreeBytes) % 2 ^ 32)
    let m := setLocalLast m heap ((heap + size) % 2 ^ 32 / 4 * 4)
    let m := setLocalPrev m (localFirst m heap) 0
    let m := setLocalNext m (localFirst m heap) 0
    (setLocalStatus m (localFirst m heap) statusFree, 1)

/-- `free_size`, in `currentNodeAlloc`: the last block ends where the heap does. -/
def freeSize (m : Mem) (heap addr : Nat) : Nat :=
  if localNext m addr = 0 then
    (localLast m heap + 2 ^ 32 - addr + 2 ^ 32 - sizeHeader) % 2 ^ 32
  else localSize m addr

/-- The part of `currentNodeAlloc` that splits the block. -/
def splitNode (m : Mem) (addr nbytes : Nat) : Mem :=
  let oldNext := localNext m addr
  let m := setLocalNext m addr ((addr + sizeHeader + nbytes) % 2 ^ 32)
  let newBlock := localNext m addr
  let m := setLocalStatus m addr statusReserved
  let m := setLocalNext m newBlock oldNext
  let m := setLocalPrev m newBlock addr
  let m := setLocalStatus m newBlock statusFree
  -- The block behind, if there is one, points back to the new one.
  if localNext m newBlock ≠ 0 then setLocalPrev m (localNext m newBlock) newBlock else m

/-- `currentNodeAlloc`. -/
def currentNodeAlloc (m : Mem) (heap addr nbytes : Nat) : Mem × Bool :=
  -- A rest is split off if it can hold a header and the least request.
  if (nbytes + sizeHeader + minFreeBytes) % 2 ^ 32 ≤ freeSize m heap addr then
    (splitNode m addr nbytes, true)
  else if nbytes ≤ freeSize m heap addr then (setLocalStatus m addr statusReserved, true)
  else (m, false)

/-- The walk of `Local_Alloc_Inner` from a block on. -/
def allocFrom (m : Mem) (heap nbytes : Nat) : Nat → Nat → Option (Mem × Nat)
  -- A walk over more blocks than there are addresses never ends.
  | 0, _ => none
  | fuel + 1, addr =>
    let tried := if localStatus m addr = statusFree then currentNodeAlloc m heap addr nbytes
      else (m, false)
    if tried.2 then some (tried.1, (addr + sizeHeader) % 2 ^ 32)
    else if localNext m addr ≠ 0 then allocFrom m heap nbytes fuel (localNext m addr)
    else some (m, 0)

/-- A request in whole units of `MIN_FREE_BYTES`. -/
def roundBytes (nbytes : Nat) : Nat :=
  (nbytes + minFreeBytes - 1) % 2 ^ 32 / minFreeBytes * minFreeBytes

/-- `Local_Alloc_Inner`; no result means that it does not return. -/
def localAllocInner (m : Mem) (heap nbytes : Nat) : Option (Mem × Nat) :=
  allocFrom m heap (roundBytes nbytes) (2 ^ 32) (localFirst m heap)

/-- `Local_Alloc`. -/
def localAlloc (m : Mem) (heap nbytes : Nat) : Option (Mem × Nat) :=
  (localAllocInner m heap nbytes).map fun answer =>
    (if answer.2 ≠ 0 then localSetalign answer.1 answer.2 0 else answer.1, answer.2)

/-- `Local_Calloc`. -/
def localCalloc (m : Mem) (heap size n : Nat) : Option (Mem × Nat) :=
  (localAlloc m heap (size * n % 2 ^ 32)).map fun answer =>
    (if answer.2 ≠ 0 then fill answer.1 answer.2 (size * n % 2 ^ 32) 0 else answer.1, answer.2)

/-- The next multiple of a power of two: `addr2`, in `Local_alignAlloc`. -/
def alignUp (addr align : Nat) : Nat :=
  (addr + align + 2 ^ 32 - 1) % 2 ^ 32 &&& (2 ^ 32 - 1 - (align + 2 ^ 32 - 1) % 2 ^ 32)

/-- `Local_alignAlloc`. -/
def localAlignAlloc (m : Mem) (heap align size : Nat) : Option (Mem × Nat) :=
  (localAllocInner m heap ((size + align) % 2 ^ 32)).map fun answer =>
    if answer.2 ≠ 0 then
      (localSetalign answer.1 (alignUp answer.2 align)
        ((alignUp answer.2 align + 2 ^ 32 - answer.2) % 2 ^ 32), alignUp answer.2 align)
    else (answer.1, 0)

/-- `Local_Dealloc_Inner`. -/
def localDeallocInner (m : Mem) (address : Nat) : Mem :=
  let block := (address + 2 ^ 32 - sizeHeader) % 2 ^ 32
  let lblock := localPrev m block
  let rblock := localNext m block
  if lblock ≠ 0 ∧ localStatus m lblock = statusFree ∧
      rblock ≠ 0 ∧ localStatus m rblock = statusFree then
    -- Both neighbours are free, and three blocks become one.
    let m := setLocalNext m lblock (localNext m rblock)
    let m := setLocalStatus m lblock statusFree
    if localNext m rblock ≠ 0 then setLocalPrev m (localNext m rblock) lblock else m
  else if lblock ≠ 0 ∧ localStatus m lblock = statusFree then
    let m := setLocalNext m lblock (localNext m block)
    let m := setLocalStatus m lblock statusFree
    if localNext m block ≠ 0 then setLocalPrev m (localNext m block) lblock else m
  else if rblock ≠ 0 ∧ localStatus m rblock = statusFree then
    let m := setLocalNext m block (localNext m rblock)
    let m := setLocalStatus m block statusFree
    if localNext m rblock ≠ 0 then setLocalPrev m (localNext m rblock) block else m
  else setLocalStatus m block statusFree

/-- `Local_Dealloc`. -/
def localDealloc (m : Mem) (address : Nat) : Mem :=
  localDeallocInner m ((address + 2 ^ 32 - localGetalign m address) % 2 ^ 32)

/-- The block of a user's address, as `Local_Realloc` finds it. -/
def reallocBlock (m : Mem) (address : Nat) : Nat :=
  (address + 2 ^ 32 - localGetalign m address + 2 ^ 32 - sizeHeader) % 2 ^ 32

/-- `len`, in `Local_Realloc`: the distance to the user's address is kept in front. -/
def reallocLen (m : Mem) (address nbytes : Nat) : Nat :=
  roundBytes (roundBytes nbytes + localGetalign m address)

/-- Whether there is a block behind one, and it is free. -/
def rightFree (m : Mem) (block : Nat) : Bool :=
  localNext m block ≠ 0 ∧ localStatus m (localNext m block) = statusFree

/-- `bsize`, in `Local_Realloc`, after a free block behind has been added, without its header. -/
def joinedSize (m : Mem) (block : Nat) : Nat :=
  if rightFree m block then (localSize m block + localSize m (localNext m block)) % 2 ^ 32
  else localSize m block

/-- Whether `Local_Realloc` leaves a block as it is. -/
def reallocKeeps (m : Mem) (address nbytes : Nat) : Bool :=
  roundBytes nbytes ≤
    (localSize m (reallocBlock m address) + 2 ^ 32 - localGetalign m address) % 2 ^ 32

/-- Whether `Local_Realloc` extends a block into the free one behind it. -/
def reallocGrows (m : Mem) (address nbytes : Nat) : Bool :=
  rightFree m (reallocBlock m address) ∧
    (roundBytes nbytes + localGetalign m address) % 2 ^ 32 ≤ joinedSize m (reallocBlock m address)

/-- The part of `Local_Realloc` that extends a block. -/
def growNode (m : Mem) (address len : Nat) : Mem :=
  let rrblock := localNext m (localNext m address)
  let m := setLocalNext m address ((address + len + sizeHeader) % 2 ^ 32)
  let block := localNext m address
  let m := setLocalPrev m block address
  let m := setLocalNext m block rrblock
  setLocalStatus m block statusFree

/-- The part of `Local_Realloc` that moves what a user has into a block that has been found. -/
def moveNode (m : Mem) (rr addr align bsize : Nat) : Mem × Nat :=
  let addr := (addr + align) % 2 ^ 32
  let m := localSetalign m addr align
  let m := copy m addr rr bsize
  (localDealloc m rr, addr)

/-- `Local_Realloc`. -/
def localRealloc (m : Mem) (heap address nbytes : Nat) : Option (Mem × Nat) :=
  if roundBytes nbytes = 0 then some (localDealloc m address, 0)
  else if address = 0 then localAlloc m heap (roundBytes nbytes)
  else if reallocKeeps m address nbytes then some (m, address)
  else if reallocGrows m address nbytes then
    some (growNode m (reallocBlock m address) (reallocLen m address nbytes), address)
  else (localAllocInner m heap (reallocLen m address nbytes)).map fun answer =>
    -- The bytes of a free block behind are copied as well.
    if answer.2 ≠ 0 then moveNode answer.1 address answer.2 (localGetalign m address)
      (joinedSize m (reallocBlock m address))
    else (answer.1, 0)

end LocalMem

/-- A call of the allocator, or a byte written by the user of the memory. -/
inductive LocalCall where
  | alloc (nbytes : Nat)
  | calloc (size n : Nat)
  | alignAlloc (align size : Nat)
  | dealloc (address : Nat)
  | write (address : Nat) (byte : UInt8)
  deriving DecidableEq, Repr

/-- The memory with the ranges that users hold, and whether a call has not returned. -/
structure LocalUse where
  mem : Words.Mem
  live : List Region
  stuck : Bool

namespace LocalUse

open LocalMem

/-- The heap as `Local_HeapInit` leaves it. -/
def init (area : HeapArea) (m : Words.Mem) : LocalUse :=
  ⟨(LocalMem.localHeapInit m area.heap area.size).1, [], false⟩

/-- A range is live from an answer on that is not `NULL`. -/
def granted (use : LocalUse) (size : Nat) : Option (Words.Mem × Nat) → LocalUse
  | none => { use with stuck := true }
  | some (m, addr) => { use with
      mem := m
      live := if addr = 0 then use.live else ⟨addr, size⟩ :: use.live }

/-- One call. -/
def step (area : HeapArea) (use : LocalUse) (call : LocalCall) : Option LocalUse :=
  if use.stuck then none
  else some (match call with
    | .alloc nbytes => use.granted nbytes (LocalMem.localAlloc use.mem area.heap nbytes)
    | .calloc size n =>
      use.granted (size * n % 2 ^ 32) (LocalMem.localCalloc use.mem area.heap size n)
    | .alignAlloc align size =>
      use.granted size (LocalMem.localAlignAlloc use.mem area.heap align size)
    | .dealloc address => { use with
        mem := LocalMem.localDealloc use.mem address
        live := use.live.eraseP fun r => r.start = address }
    | .write address byte => { use with mem := fill use.mem address 1 byte })

end LocalUse

end Aip
