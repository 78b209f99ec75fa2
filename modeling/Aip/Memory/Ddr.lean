import Mathlib.Algebra.BigOperators.Group.List.Basic
import Aip.Memory.HeapTiling

/-! The counter of used bytes of the shared memory, `ddr_mem.cc`. -/

namespace Aip

open Bufunit

/-- The global variables of `ddr_mem.cc`, with the heap that `heap` leads to. -/
structure Ddr where
  mpMemory : Nat
  mpMemorySize : Nat
  mpMemoryUsed : Nat
  alloc : Alloc
  deriving DecidableEq, Repr

/-- `struct ddr_memory_info`. -/
structure DdrMemoryInfo where
  ddrHeadPtr : Nat
  ddrTotalSize : Nat
  ddrUsedSize : Nat
  deriving DecidableEq, Repr

namespace Ddr

/-- `ddr_memory_init`. -/
def init (mem : HeapMem) : Ddr :=
  { mpMemory := mem.heap, mpMemorySize := mem.size, mpMemoryUsed := 0, alloc := localHeapInit mem }

/-- `get_ddr_memory_info`. -/
def info (d : Ddr) : DdrMemoryInfo :=
  { ddrHeadPtr := d.mpMemory, ddrTotalSize := d.mpMemorySize, ddrUsedSize := d.mpMemoryUsed }

/-- What the allocating functions do with an answer: a block that is not `NULL` is counted. -/
def count (d : Ddr) (answer : Alloc × Nat) (added : Nat) : Ddr × Nat :=
  ({ d with
      alloc := answer.1
      mpMemoryUsed := if answer.2 = 0 then d.mpMemoryUsed else (d.mpMemoryUsed + added) % 2 ^ 32 },
    answer.2)

/-- `ddr_malloc`. -/
def malloc (d : Ddr) (size : Nat) (room : Bool) : Ddr × Nat :=
  d.count (localAlloc d.alloc size room) size

/-- `ddr_calloc`. -/
def calloc (d : Ddr) (size n : Nat) (room : Bool) : Ddr × Nat :=
  d.count (localCalloc d.alloc size n room) (size * n % 2 ^ 32)

/-- The bytes that `ddr_memalign` counts: the size is rounded up to the alignment. -/
def rounded (align size : Nat) : Nat :=
  if size % align ≠ 0 then (size + (align - size % align)) % 2 ^ 32 else size

/-- `ddr_memalign`. -/
def memalign (d : Ddr) (align size : Nat) (room : Bool) : Ddr × Nat :=
  d.count (localAlignAlloc d.alloc align size room) (rounded align size)

/-- `ddr_free`. -/
def free (d : Ddr) (addr : Nat) : Ddr :=
  if addr = 0 then d
  else
    let answer := localDealloc d.alloc addr
    { d with alloc := answer.1, mpMemoryUsed := (d.mpMemoryUsed + 2 ^ 32 - answer.2) % 2 ^ 32 }

end Ddr

/-- A call of a user; `room` tells whether `IMP_alloc_unit` finds memory. -/
inductive DdrCall where
  | malloc (size : UInt32) (room : Bool)
  | calloc (size n : UInt32) (room : Bool)
  | memalign (align size : UInt32) (room : Bool)
  | free (addr : UInt32)
  deriving DecidableEq, Repr

/-- The call of the layer below. -/
def DdrCall.heapCall : DdrCall → HeapCall
  | .malloc size room => .alloc size room
  | .calloc size n room => .calloc size n room
  | .memalign align size room => .alignAlloc align size room
  | .free addr => .dealloc addr

/-- A block that a user holds: what was asked for, and what its allocation added to the counter. -/
structure DdrBlock where
  start : Nat
  size : Nat
  align : Nat
  added : Nat
  deriving DecidableEq, Repr

/-- The range of a block. -/
def DdrBlock.range (block : DdrBlock) : Region := ⟨block.start, block.size⟩

/-- The allocator and, as history, the blocks its users hold. -/
structure DdrUse where
  ddr : Ddr
  live : List DdrBlock
  deriving DecidableEq, Repr

namespace DdrUse

/-- The state after `ddr_memory_init`. -/
def init (mem : HeapMem) : DdrUse := ⟨Ddr.init mem, []⟩

/-- A user holds a block from the address on, unless that is `NULL`. -/
def granted (use : DdrUse) (size align : Nat) (answer : Ddr × Nat) : DdrUse where
  ddr := answer.1
  live := if answer.2 = 0 then use.live else
    { start := answer.2, size := size, align := align,
      added := (answer.1.mpMemoryUsed + 2 ^ 32 - use.ddr.mpMemoryUsed) % 2 ^ 32 } :: use.live

/-- A user no longer holds the block that starts at the address, if there was one. -/
def returned (use : DdrUse) (ddr : Ddr) (addr : Nat) : DdrUse :=
  ⟨ddr, use.live.eraseP fun block => block.start = addr⟩

/-- One call. -/
def step (use : DdrUse) : DdrCall → Option DdrUse
  | .malloc size room => some (use.granted size.toNat 1 (use.ddr.malloc size.toNat room))
  | .calloc size n room =>
    some (use.granted (size.toNat * n.toNat % 2 ^ 32) 1 (use.ddr.calloc size.toNat n.toNat room))
  | .memalign align size room =>
    some (use.granted size.toNat align.toNat (use.ddr.memalign align.toNat size.toNat room))
  | .free addr => some (use.returned (use.ddr.free addr.toNat) addr.toNat)

/-- The allocator below and the ranges its users hold. -/
def heapUse (use : DdrUse) : HeapUse := ⟨use.ddr.alloc, use.live.map DdrBlock.range⟩

/-- What the allocations of the live blocks added. -/
def addedSum (use : DdrUse) : Nat := (use.live.map DdrBlock.added).sum

/-- The reported size is what the allocations of the live blocks added. -/
def Counted (use : DdrUse) : Prop := use.ddr.info.ddrUsedSize = use.addedSum

instance (use : DdrUse) : Decidable use.Counted := inferInstanceAs (Decidable (_ = _))

/-- A free subtracts what the allocation of the block with its address added. -/
def Subtracted (use : DdrUse) (call : DdrCall) (after : DdrUse) : Prop :=
  ∀ addr block, call = .free addr →
    (use.live.find? fun block => block.start = addr.toNat) = some block →
      after.ddr.info.ddrUsedSize + block.added = use.ddr.info.ddrUsedSize

/-- A free is of an address that a user holds. -/
def Live (use : DdrUse) (call : DdrCall) (_ : DdrUse) : Prop :=
  ∀ addr, call = .free addr → ∃ block ∈ use.live, block.start = addr.toNat

/-- The block that is freed was asked for with a size that is a multiple of its alignment. -/
def Whole (use : DdrUse) (call : DdrCall) (_ : DdrUse) : Prop :=
  ∀ addr block, call = .free addr → block ∈ use.live → block.start = addr.toNat →
    block.size % block.align = 0

/-- The address that is freed is that of one block, and its first unit is a busy one. -/
def Single (use : DdrUse) (call : DdrCall) (_ : DdrUse) : Prop :=
  ∀ addr, call = .free addr →
    (∃ block, (use.live.filter fun block => block.start = addr.toNat) = [block]) ∧
    ∃ u, (use.ddr.alloc.units.find? fun u => u.vaddr = addr.toNat) = some u ∧ u.status = .busy

/-- The bytes that the call adds to the counter if it is served. -/
def added : DdrCall → Nat
  | .malloc size _ => size.toNat
  | .calloc size n _ => size.toNat * n.toNat % 2 ^ 32
  | .memalign align size _ => Ddr.rounded align.toNat size.toNat
  | .free _ => 0

/-- Neither the size with the bytes that align it nor the counter exceeds 32 bits. -/
def Bounded (use : DdrUse) (call : DdrCall) (after : DdrUse) : Prop :=
  use.heapUse.Unwrapped call.heapCall after.heapUse ∧
    ((use.heapUse.answer call.heapCall).2 ≠ 0 → use.addedSum + added call < 2 ^ 32)

/-- A unit holds a block exactly: its length is the size with the bytes that align it. -/
def Holds (u : Bufunit) (block : DdrBlock) : Prop :=
  block.start = u.vaddr ∧ u.length = block.size + u.offset

/-- The heap is sound, its busy units hold the blocks exactly, and the counter is their sum. -/
structure Balanced (mem : HeapMem) (use : DdrUse) : Prop where
  sound : use.heapUse.Sound mem
  exact : Matching.Matched view.busy Holds use.ddr.alloc.units use.live
  counted : use.ddr.mpMemoryUsed = use.addedSum
  small : use.addedSum < 2 ^ 32
  whole : ∀ block ∈ use.live, block.size % block.align = 0 → block.added = block.size

variable {mem : HeapMem} {use after : DdrUse} {call : DdrCall} {size align addr count : Nat}
  {room : Bool}

/-- The first state is balanced. -/
theorem balanced_init : Balanced mem (init mem) where
  sound := HeapUse.sound_init
  exact := Matching.Matched.init (by simp [init, Ddr.init, localHeapInit, view])
  counted := rfl
  small := by simp [init, addedSum]
  whole := by simp [init]

/-- A call allocates and counts, or frees. -/
theorem step_cases (taken : use.step call = some after) :
    (∃ size align, call.heapCall.request = some (size, align) ∧ size < 2 ^ 32 ∧ align < 2 ^ 32 ∧
      added call < 2 ^ 32 ∧ (size % align = 0 → added call = size) ∧
      use.heapUse.answer call.heapCall =
        localAlignAlloc use.ddr.alloc align size call.heapCall.room ∧
      after = use.granted size align
        (use.ddr.count (localAlignAlloc use.ddr.alloc align size call.heapCall.room) (added call))) ∨
    ∃ addr, call = .free addr ∧ after = use.returned (use.ddr.free addr.toNat) addr.toNat := by
  -- The three allocating calls differ in the alignment and in what they count.
  cases call with
  | malloc size room =>
    cases taken
    exact Or.inl ⟨_, _, rfl, size.toNat_lt, by decide, size.toNat_lt, fun _ => rfl, rfl, rfl⟩
  | calloc size n room =>
    cases taken
    have small : size.toNat * n.toNat % 2 ^ 32 < 2 ^ 32 := Nat.mod_lt _ (by decide)
    exact Or.inl ⟨_, _, rfl, small, by decide, small, fun _ => rfl, rfl, rfl⟩
  | memalign align size room =>
    cases taken
    have small := size.toNat_lt
    refine Or.inl ⟨_, _, rfl, small, align.toNat_lt, ?_, fun whole => ?_, rfl, rfl⟩
    · simp only [added, Ddr.rounded]
      split <;> omega
    · simp only [added, Ddr.rounded, whole]
      rfl
  | free addr =>
    cases taken
    exact Or.inr ⟨addr, rfl, rfl⟩

/-- A call does to the heap what the call of the layer below does. -/
theorem heapUse_step (taken : use.step call = some after) :
    use.heapUse.step call.heapCall = some after.heapUse := by
  -- The count is not part of the layer below, which sees the answer alone.
  have grants : ∀ (size align added : Nat) (answer : Alloc × Nat),
      (use.granted size align (use.ddr.count answer added)).heapUse =
        use.heapUse.granted size answer := by
    intro size align added answer
    by_cases null : answer.2 = 0 <;>
      simp [granted, Ddr.count, heapUse, HeapUse.granted, null, DdrBlock.range]
  cases call with
  | malloc size room =>
    cases taken
    exact congrArg some (grants _ _ _ _).symm
  | calloc size n room =>
    cases taken
    exact congrArg some (grants _ _ _ _).symm
  | memalign align size room =>
    cases taken
    exact congrArg some (grants _ _ _ _).symm
  | free addr =>
    cases taken
    apply congrArg some
    have heap : (use.ddr.free addr.toNat).alloc = (localDealloc use.ddr.alloc addr.toNat).1 := by
      by_cases null : addr.toNat = 0 <;> simp [Ddr.free, localDealloc, null]
    simp only [HeapUse.returned, HeapUse.answer, DdrCall.heapCall, heapUse, returned, heap,
      List.eraseP_map]
    rfl

/-- An allocation keeps the balance. -/
theorem Balanced.granted (balanced : Balanced mem use) (size_lt : size < 2 ^ 32)
    (align_lt : align < 2 ^ 32) (whole : size % align = 0 → count = size)
    (unwrapped : ∀ fit, align ≠ 0 → findFit size align use.ddr.alloc.units = some fit →
      (fit.alloc size room).isSome → size + fit.offset < 2 ^ 32)
    (bounded : (localAlignAlloc use.ddr.alloc align size room).2 ≠ 0 →
      use.addedSum + count < 2 ^ 32)
    (sound : (use.granted size align
      (use.ddr.count (localAlignAlloc use.ddr.alloc align size room) count)).heapUse.Sound mem) :
    Balanced mem (use.granted size align
      (use.ddr.count (localAlignAlloc use.ddr.alloc align size room) count)) := by
  rcases localAlignAlloc_cases use.ddr.alloc align size room with
    ⟨refused, _⟩ | ⟨fit, front, nonzero, found, given, served, cut⟩
  · -- Nothing is handed out, and nothing is counted.
    rw [refused] at sound ⊢
    exact ⟨sound, balanced.exact, balanced.counted, balanced.small, balanced.whole⟩
  · obtain ⟨same, free, _, low, high, _, below⟩ := balanced.sound.fit nonzero found
    have same : use.ddr.alloc.units = fit.before ++ fit.unit :: fit.after := same
    have small := unwrapped fit nonzero found given
    have place : (fit.unit.take size fit.offset).vaddr = fit.unit.vaddr + fit.offset := by
      show (fit.unit.vaddr + fit.offset) % 2 ^ 32 = _
      have fits := (findFit_spec found).2.2.1
      omega
    have positive := mem.valid.1
    have answered : (fit.unit.take size fit.offset).vaddr ≠ 0 := by omega
    rw [served] at sound bounded ⊢
    have fits := bounded answered
    have counted := balanced.counted
    have more : (use.ddr.mpMemoryUsed + count) % 2 ^ 32 = use.ddr.mpMemoryUsed + count :=
      Nat.mod_eq_of_lt (by omega)
    have increase : (use.ddr.mpMemoryUsed + count + 2 ^ 32 - use.ddr.mpMemoryUsed) % 2 ^ 32 =
        count := by omega
    have sum : (use.granted size align (use.ddr.count
        ({ use.ddr.alloc with
            units := fit.before ++ (fit.unit.take size fit.offset :: front) ++ fit.after },
          (fit.unit.take size fit.offset).vaddr) count)).addedSum = use.addedSum + count := by
      simp only [DdrUse.granted, Ddr.count, if_neg answered, addedSum, List.map_cons,
        List.sum_cons, more, increase]
      exact Nat.add_comm _ _
    refine ⟨sound, ?_, ?_, ?_, ?_⟩
    · have exact := balanced.exact
      rw [same] at exact
      simp only [DdrUse.granted, Ddr.count, if_neg answered]
      refine exact.take (view_idle free) rfl ?_ ⟨rfl, ?_⟩
      · intro z member
        rcases cut with ⟨rfl, _⟩ | ⟨rfl, _⟩
        · cases member
        · rw [List.mem_singleton.mp member]
          rfl
      · exact Nat.mod_eq_of_lt small
    · rw [sum, ← counted]
      simp only [DdrUse.granted, Ddr.count, if_neg answered, more]
    · rw [sum]
      exact fits
    · simp only [DdrUse.granted, Ddr.count, if_neg answered, more, increase]
      intro block member
      rcases List.mem_cons.mp member with new | old
      · rw [new]
        exact whole
      · exact balanced.whole block old

/-- A free of a whole block keeps the balance and subtracts what was added. -/
theorem Balanced.returned (balanced : Balanced mem use)
    (sound : (use.returned (use.ddr.free addr) addr).heapUse.Sound mem) {block : DdrBlock}
    (single : (use.live.filter fun block => block.start = addr) = [block])
    (found : ∃ u, (use.ddr.alloc.units.find? fun u => u.vaddr = addr) = some u ∧
      u.status = .busy) (whole : block.size % block.align = 0) :
    Balanced mem (use.returned (use.ddr.free addr) addr) ∧
      (use.ddr.free addr).mpMemoryUsed + block.added = use.ddr.mpMemoryUsed := by
  have one : block ∈ use.live.filter fun block => block.start = addr := by simp [single]
  obtain ⟨live, start⟩ := List.mem_filter.mp one
  have starts : block.start = addr := by simpa using start
  have only : ∀ other ∈ use.live, other.start = addr → other = block := by
    intro other member same
    have inside : other ∈ use.live.filter fun block => block.start = addr :=
      List.mem_filter.mpr ⟨member, by simpa using same⟩
    rw [single] at inside
    exact List.mem_singleton.mp inside
  obtain ⟨u, search, busy⟩ := found
  have member := List.mem_of_find?_eq_some search
  have key : u.vaddr = addr := by simpa using List.find?_some search
  have place := (balanced.sound.address member busy).2
  -- The unit that is found holds the block, so what is subtracted is its size.
  obtain ⟨other, otherLive, otherStart, length⟩ := balanced.exact.partner member (view_busy.mpr busy)
  cases only other otherLive (otherStart.trans key)
  rcases localDealloc_cases use.ddr.alloc addr with
    ⟨_, null | absent⟩ | ⟨left, front, self, back, right, joined, merged, nonzero, same, first,
      earlier, freed, free, behind, ahead⟩
  · omega
  · exact (absent u member key).elim
  have again := find_first back right first earlier
  rw [← same] at again
  cases search.symm.trans again
  obtain ⟨given, some, more, _, givenStart, split, erased⟩ :=
    List.exists_of_eraseP (p := fun b : DdrBlock => decide (b.start = addr)) live
      (by simpa using starts)
  rw [decide_eq_true_eq] at givenStart
  cases only given (by simp [split]) givenStart
  have bound := (balanced.sound.tiles.within member).2
  have visible := mem.visible
  have inside : (view.region u).size = u.length := rfl
  have bytes : (u.length + 2 ^ 32 - u.offset) % 2 ^ 32 = block.size := by omega
  have added := balanced.whole block live whole
  have counted := balanced.counted
  have small := balanced.small
  have sum : use.addedSum = block.added + ((some ++ more).map DdrBlock.added).sum := by
    rw [addedSum, split]
    simp only [List.map_append, List.map_cons, List.sum_append, List.sum_cons]
    omega
  have less : (use.ddr.free addr).mpMemoryUsed + block.added = use.ddr.mpMemoryUsed := by
    rw [Ddr.free, if_neg nonzero, freed]
    dsimp only
    omega
  have rest : (use.returned (use.ddr.free addr) addr).addedSum =
      ((some ++ more).map DdrBlock.added).sum := by
    simp only [DdrUse.returned, addedSum, erased]
  refine ⟨⟨sound, ?_, ?_, ?_, ?_⟩, less⟩
  · have exact := balanced.exact
    rw [same] at exact
    simp only [DdrUse.returned, erased]
    rw [Ddr.free, if_neg nonzero, freed]
    refine exact.release (view_busy.mpr busy) (joins_idle behind ahead) (view_idle free) split ?_ ?_
    · intro w before holds
      exact earlier w (List.mem_append_left front before) (holds.1.symm.trans starts)
    · -- No other block has the address.
      intro w _ holds other listed fits
      cases only other listed (fits.1.trans key)
      exact holds
  · rw [rest]
    show (use.ddr.free addr).mpMemoryUsed = _
    omega
  · rw [rest]
    omega
  · intro other remains
    exact balanced.whole other (List.mem_of_mem_eraseP remains)

/-- A call within the conditions keeps the balance, and a free subtracts what was added. -/
theorem Balanced.step (balanced : Balanced mem use) (taken : use.step call = some after)
    (whole : use.Whole call after) (single : use.Single call after)
    (bounded : use.Bounded call after) :
    Balanced mem after ∧ use.Subtracted call after := by
  -- The layer below is sound, and a free finds the one block at its address.
  have found : use.heapUse.Found call.heapCall after.heapUse := by
    intro addr same
    cases call with
    | free addr' =>
      cases same
      exact (single addr rfl).2
    | _ => cases same
  have sound := (balanced.sound.step (heapUse_step taken) bounded.1 found).1
  rcases step_cases taken with
    ⟨size, align, request, small, low, _, rounded, answer, rfl⟩ | ⟨addr, rfl, rfl⟩
  · refine ⟨?_, fun addr block same => ?_⟩
    · have limit := bounded.2
      rw [answer] at limit
      exact balanced.granted small low rounded
        (fun fit => bounded.1 size align fit request) limit sound
    · subst same
      cases request
  · obtain ⟨⟨block, only⟩, busy⟩ := single addr rfl
    have one : block ∈ use.live.filter fun block => block.start = addr.toNat := by simp [only]
    obtain ⟨live, start⟩ := List.mem_filter.mp one
    have multiple := whole addr block rfl live (by simpa using start)
    obtain ⟨kept, less⟩ := balanced.returned sound only busy multiple
    refine ⟨kept, fun addr' block' same search => ?_⟩
    cases same
    have again : block' ∈ use.live.filter fun block => block.start = addr.toNat :=
      List.mem_filter.mpr ⟨List.mem_of_find?_eq_some search, by simpa using List.find?_some search⟩
    rw [only] at again
    cases List.mem_singleton.mp again
    exact less

/--
The reported size is what the live blocks added in every state, and a free subtracts what was added,
when each free is of the only block at its address, and one with a size that was not rounded up.
-/
theorem usedSize_balanced (mem : HeapMem) (calls : List DdrCall)
    (meets : Runs.Each step (fun use call after => use.Live call after ∧
      (use.Whole call after ∧ use.Single call after ∧ use.Bounded call after)) (init mem) calls) :
    Runs.Always step Counted (init mem) calls ∧
      Runs.Each step Subtracted (init mem) calls := by
  -- One step keeps the balance, so a run does.
  have kept : ∀ use call after, Balanced mem use → step use call = some after →
      (use.Live call after ∧
        (use.Whole call after ∧ use.Single call after ∧ use.Bounded call after)) →
      Balanced mem after ∧ use.Subtracted call after :=
    fun use call after balanced taken ok => balanced.step taken ok.2.1 ok.2.2.1 ok.2.2.2
  constructor
  · exact (Runs.always_of_invariant (fun use call after balanced taken ok =>
      (kept use call after balanced taken ok).1) balanced_init meets).mono
        fun use balanced => balanced.counted
  · exact Runs.each_of_invariant (fun use call after balanced taken ok =>
      (kept use call after balanced taken ok).1) (fun use call after balanced taken ok =>
        (kept use call after balanced taken ok).2) balanced_init meets

/-- A block of two units of alignment that is handed out and freed is such a run. -/
theorem usedSize_balanced_page :
    Runs.Always step Counted (init HeapUse.page) [.memalign 64 128 true, .free 0x1040] ∧
      Runs.Each step Subtracted (init HeapUse.page) [.memalign 64 128 true, .free 0x1040] := by
  -- The first call is unconditional but for its size; the free meets the block just handed out.
  apply usedSize_balanced HeapUse.page [.memalign 64 128 true, .free 0x1040]
  refine (Runs.each_cons rfl).mpr ⟨⟨?_, ?_, ?_, ?_, ?_⟩,
    (Runs.each_cons rfl).mpr ⟨⟨?_, ?_, ?_, ?_, ?_⟩, trivial⟩⟩
  · simp [Live]
  · simp [Whole]
  · simp [Single]
  · intro size align fit request _ found _
    cases request
    cases found
    decide
  · decide
  · intro addr same
    cases same
    exact ⟨⟨0x1040, 128, 64, 128⟩, by decide, rfl⟩
  · intro addr block same member _
    cases same
    cases List.mem_singleton.mp member
    decide
  · intro addr same
    cases same
    exact ⟨⟨⟨0x1040, 128, 64, 128⟩, rfl⟩, ⟨.busy, 0x1040, 188, 60⟩, rfl, rfl⟩
  · intro size align fit request
    cases request
  · decide

/-- A size that is rounded up is counted so, and the free of the block subtracts the size alone. -/
theorem usedSize_drifts :
    Runs.Each step Live (init HeapUse.page) [.memalign 64 100 true, .free 0x1040] ∧
    ¬ (Runs.Always step Counted (init HeapUse.page) [.memalign 64 100 true, .free 0x1040] ∧
      Runs.Each step Subtracted (init HeapUse.page) [.memalign 64 100 true, .free 0x1040]) := by
  constructor
  · refine (Runs.each_cons rfl).mpr ⟨by simp [Live], (Runs.each_cons rfl).mpr ⟨?_, trivial⟩⟩
    intro addr same
    cases same
    exact ⟨⟨0x1040, 100, 64, 128⟩, by decide, rfl⟩
  · intro claim
    -- 28 bytes stay counted when no block is live.
    have last := claim.1.last rfl
    revert last
    decide

end DdrUse

end Aip
