import Aip.Memory.LocalRealloc

/-! What the older allocator hands out lies in the heap, where its sums fit into a word. -/

namespace Aip

open Words Tiling Blocks LocalMem

namespace LocalCall

/-- The bytes that a caller asks for; a product is one of numbers without a bound. -/
def asked : LocalCall → Nat
  | .alloc nbytes => nbytes
  | .calloc size n => size * n
  | .alignAlloc _ size => size
  | .dealloc _ => 0
  | .write _ _ => 0

/-- The bytes that a block is sought for, as a number without a bound. -/
def sought : LocalCall → Option Nat
  | .alloc nbytes => some nbytes
  | .calloc size n => some (size * n)
  | .alignAlloc align size => some (size + align)
  | .dealloc _ => none
  | .write _ _ => none

end LocalCall

namespace LocalUse

/--
What the callers promise.

Arguments are words, alignments are powers of two, and users free, resize and write what they hold.
-/
def Permits (use : LocalUse) : LocalRequest → Prop
  | .call (.alloc nbytes) => nbytes < 2 ^ 32
  | .call (.calloc size n) => size < 2 ^ 32 ∧ n < 2 ^ 32
  | .call (.alignAlloc align size) => size < 2 ^ 32 ∧ ∃ k < 32, align = 2 ^ k
  | .call (.dealloc address) => ∃ r ∈ use.live, r.start = address
  | .call (.write address _) => ∃ r ∈ use.live, r.start ≤ address ∧ address < r.start + r.size
  | .realloc address nbytes => nbytes < 2 ^ 32 ∧ (address = 0 ∨ ∃ r ∈ use.live, r.start = address)

/-- Every sum on 32 bits that decides about the call is the sum of numbers without a bound. -/
def Unwrapping (area : HeapArea) (use : LocalUse) : LocalRequest → Prop
  | .call call => ∀ nbytes, call.sought = some nbytes → Fitting area use nbytes
  | .realloc address nbytes => Resizes area use address nbytes

/-- The bytes lie in the heap, and behind the header of one of its reserved blocks. -/
def Lies (area : HeapArea) (m : Mem) (start size : Nat) : Prop :=
  (area.heap ≤ start ∧ start + size ≤ area.heap + area.size) ∧
    ∃ b, Reached m area.heap b ∧ localStatus m b = statusReserved ∧ b + sizeHeader ≤ start ∧
      start + size ≤ b + sizeHeader + freeSize m area.heap b

/-- Whatever `Local_Alloc`, `Local_Calloc` or `Local_alignAlloc` answers has the bytes asked for. -/
def Placed (area : HeapArea) (use : LocalUse) (request : LocalRequest) (after : LocalUse) : Prop :=
  ∀ call, request = .call call → ∀ r, after.live = r :: use.live →
    Lies area after.mem r.start call.asked

variable {area : HeapArea} {m : Mem} {use after : LocalUse} {blocks : List LocalBlock}
  {call : LocalCall} {request : LocalRequest} {nbytes : Nat}

/-- Each live range lies in the heap and in its block. -/
theorem Sound.lies (sound : Sound area use blocks) {r : Region} (live : r ∈ use.live) :
    Lies area use.mem r.start r.size := by
  have bounds := area_bounds area
  have last : area.last = (area.heap + area.size) / 4 * 4 := rfl
  obtain ⟨x, place, busy, key, bottom, top⟩ := sound.held.matched.holder live
  change x.busy = true at busy
  change r.start = x.user at key
  change r.start + r.size ≤ x.start + x.size at top
  have own := sound.bounds place
  have behind : x.start + 16 ≤ x.user := (sound.keyed x place).1
  -- The block that holds the range is the one that is asked for.
  have status : localStatus use.mem x.start = statusReserved := by
    rw [sound.chained.status x place, LocalBlock.status, if_pos busy]
  have reached := sound.reached place
  obtain ⟨before, after, rfl⟩ := List.append_of_mem place
  have size := freeSize_eq sound.chained sound.held.tiles
  refine ⟨by omega, x.start, reached, status, ?_, ?_⟩
  · change x.start + 16 ≤ r.start
    omega
  · rw [size]
    change r.start + r.size ≤ x.start + 16 + (x.size - 16)
    omega

/-- A range that becomes live has the size that was given. -/
theorem granted_size {n : Nat} {given : Option (Mem × Nat)} {r : Region}
    (live : (use.granted n given).live = r :: use.live) : r.size = n := by
  rcases given with _ | ⟨w, addr⟩
  · exact absurd live (by simp [granted])
  · by_cases none : addr = 0
    · simp [granted, none] at live
    · simp only [granted, if_neg none, List.cons.injEq, and_true] at live
      rw [← live]

/-- A wrapped size is refused where the whole one would be. -/
theorem Refused.wrapped (refused : Refused area use nbytes) :
    Refused area use (nbytes % 2 ^ 32) := by
  -- Rounding reduces its argument in any case.
  have same : roundBytes (nbytes % 2 ^ 32) = roundBytes nbytes := by
    change (nbytes % 2 ^ 32 + 63) % 2 ^ 32 / 64 * 64 = (nbytes + 63) % 2 ^ 32 / 64 * 64
    omega
  rw [Refused, same]
  exact refused

/-- A call that is refused leaves the state as it is, and grants nothing. -/
theorem Sound.stands (sound : Sound area use blocks) (running : use.stuck = false) (n : Nat) :
    Steady area use use ∧ ∀ r, use.live = r :: use.live → r.size = n :=
  ⟨⟨running, ⟨blocks, sound⟩, fun _ _ => rfl⟩, fun r live => absurd live (by simp)⟩

/-- A call none of whose sums wraps is steady, and what it grants is what was asked for. -/
theorem Sound.called (sound : Sound area use blocks) (running : use.stuck = false)
    (taken : use.step area call = some after) (permits : use.Permits (.call call))
    (unwrapping : use.Unwrapping area (.call call)) :
    Steady area use after ∧ ∀ r, after.live = r :: use.live → r.size = call.asked := by
  cases (step_eq running).symm.trans taken
  -- Each of the three calls is served with room to spare, or refused.
  cases call with
  | alloc nbytes =>
    exact ⟨sound.fitting running (Nat.le_refl _) (unwrapping nbytes rfl),
      fun r live => granted_size live⟩
  | calloc size n =>
    rcases unwrapping (size * n) rfl with ⟨small, unwrapped⟩ | refused
    · change size * n + 64 ≤ 2 ^ 32 at small
      have whole : size * n % 2 ^ 32 = size * n := Nat.mod_eq_of_lt (by omega)
      have less : size * n % 2 ^ 32 + 63 < 2 ^ 32 := by omega
      have serves := sound.calloc less (Or.inl (whole.symm ▸ unwrapped))
      exact ⟨⟨serves.stuck.trans running, serves.sound, serves.spares⟩,
        fun r live => (granted_size live).trans whole⟩
    · have none := sound.refused refused.wrapped
      have given : LocalMem.localCalloc use.mem area.heap size n = some (use.mem, 0) := by
        rw [LocalMem.localCalloc, LocalMem.localAlloc, none]
        rfl
      dsimp only
      rw [given]
      exact sound.stands running _
  | alignAlloc align size =>
    obtain ⟨_, k, _, rfl⟩ := permits
    rcases unwrapping (size + 2 ^ k) rfl with ⟨small, unwrapped⟩ | refused
    · change size + 2 ^ k + 64 ≤ 2 ^ 32 at small
      have less : size + 2 ^ k + 63 < 2 ^ 32 := by omega
      have serves := sound.alignAlloc less (Or.inl unwrapped)
      exact ⟨⟨serves.stuck.trans running, serves.sound, serves.spares⟩,
        fun r live => granted_size live⟩
    · have none := sound.refused refused.wrapped
      have given : LocalMem.localAlignAlloc use.mem area.heap (2 ^ k) size = some (use.mem, 0) := by
        rw [LocalMem.localAlignAlloc, none]
        rfl
      dsimp only
      rw [given]
      exact sound.stands running _
  | dealloc address =>
    obtain ⟨freed, spares⟩ := sound.dealloc permits
    exact ⟨⟨running, freed, spares⟩, fun r live => absurd live erased_ne_cons⟩
  | write address byte =>
    obtain ⟨kept, spares⟩ := sound.write permits
    refine ⟨⟨running, ⟨_, kept⟩, spares⟩, fun r live => ?_⟩
    exact absurd live (by simp)

/-- A request within the conditions is steady, and its answer has the bytes asked for. -/
theorem Sound.serves (sound : Sound area use blocks) (running : use.stuck = false)
    (taken : use.serve area request = some after) (permits : use.Permits request)
    (unwrapping : use.Unwrapping area request) :
    Steady area use after ∧ Placed area use request after := by
  -- Resizing promises nothing about its own answer here.
  cases request with
  | call call =>
    obtain ⟨steady, sizes⟩ := sound.called running taken permits unwrapping
    refine ⟨steady, fun call' same r live => ?_⟩
    cases same
    obtain ⟨blocks', after⟩ := steady.sound
    rw [← sizes r live]
    exact after.lies (live ▸ List.mem_cons_self)
  | realloc address nbytes =>
    rw [serve, running, if_neg (by simp), Option.some.injEq] at taken
    subst taken
    exact ⟨sound.realloc running permits.2 unwrapping, fun call same => by cases same⟩

/-- `Local_HeapInit` writes in the heap only. -/
theorem spares_init (area : HeapArea) (m : Mem) : Spares area m (init area m).mem := by
  have bounds := area_bounds area
  have last : area.last = (area.heap + area.size) / 4 * 4 := rfl
  have stores : (init area m).mem = _ := congrArg Prod.fst (localHeapInit_eq area m)
  -- The first header ends 76 bytes behind the start.
  intro a outside
  rw [stores]
  simp (disch := omega) only [store_outside]

/--
What the allocator answers lies in the heap and in one block, and the rest of the memory stays.

So it is in every run of a heap of at least 80 bytes in which no sum that decides about a call wraps
around where the call would be granted.
-/
theorem placed_of_unwrapping (area : HeapArea) (m : Mem) (requests : List LocalRequest)
    (within : Runs.Each (serve area)
      (fun use request _ => use.Permits request ∧ use.Unwrapping area request)
      (init area m) requests) :
    Runs.Always (serve area) (fun use => use.stuck = false ∧ Spares area m use.mem)
        (init area m) requests ∧
      Runs.Each (serve area) (Placed area) (init area m) requests := by
  -- Soundness and the memory outside of the heap go through the run together.
  have start : (init area m).stuck = false ∧ (∃ blocks, Sound area (init area m) blocks) ∧
      Spares area m (init area m).mem := ⟨rfl, ⟨_, sound_init area m⟩, spares_init area m⟩
  have preserved : ∀ use request after,
      (use.stuck = false ∧ (∃ blocks, Sound area use blocks) ∧ Spares area m use.mem) →
      use.serve area request = some after →
      use.Permits request ∧ use.Unwrapping area request →
      (after.stuck = false ∧ (∃ blocks, Sound area after blocks) ∧ Spares area m after.mem) ∧
        Placed area use request after := by
    intro use request after holds taken met
    obtain ⟨running, ⟨blocks, sound⟩, spares⟩ := holds
    obtain ⟨steady, placed⟩ := sound.serves running taken met.1 met.2
    exact ⟨⟨steady.running, steady.sound,
      fun a outside => (steady.spares a outside).trans (spares a outside)⟩, placed⟩
  constructor
  · exact Runs.Always.mono (fun use holds => ⟨holds.1, holds.2.2⟩) (Runs.always_of_invariant
      (fun use request after holds taken met => (preserved use request after holds taken met).1)
      start within)
  · exact Runs.each_of_invariant
      (fun use request after holds taken met => (preserved use request after holds taken met).1)
      (fun use request after holds taken met => (preserved use request after holds taken met).2)
      start within

/-- In a heap of fewer than 80 bytes any request of a usual size is answered behind the end. -/
theorem localAlloc_short {heap size : Nat} (m : Mem) (aligned : heap % 4 = 0) (accepted : 16 ≤ size)
    (short : size < 80) (inside : heap + 80 < 2 ^ 32) (usual : roundBytes nbytes + 144 ≤ 2 ^ 32) :
    ∃ m', LocalMem.localAlloc (LocalMem.localHeapInit m heap size).1 heap nbytes =
      some (m', heap + 80) := by
  rw [localHeapInit_stores m aligned accepted (by omega) (by omega)]
  dsimp only
  generalize stores : store (store (store (store (store m heap (heap + 64)) (heap + 4)
    ((heap + size) / 4 * 4)) (heap + 64) 0) (heap + 64 + 4) 0) (heap + 64 + 8) statusFree = w
  obtain ⟨next, status, _, _⟩ := header_eq (m := w) (v := 0) (i := heap + 64) (by omega)
  have first : localFirst w heap = heap + 64 := by
    rw [localFirst, ← stores]
    simp (disch := omega) only [load_store_apart, load_store]
  have last : localLast w heap = (heap + size) / 4 * 4 := by
    rw [localLast, Nat.mod_eq_of_lt (show heap + 4 < 2 ^ 32 by omega), ← stores]
    simp (disch := omega) only [load_store_apart, load_store]
  have none : localNext w (heap + 64) = 0 := by
    rw [next, ← stores]
    simp (disch := omega) only [load_store_apart, load_store]
  have free : localStatus w (heap + 64) = statusFree := by
    rw [status, ← stores]
    exact load_store (by decide)
  -- The end of the heap lies in front of the end of the header, so the free size wraps around.
  have wraps : freeSize w heap (heap + 64) = 2 ^ 32 + size / 4 * 4 - 80 := by
    rw [freeSize, if_pos none, last]
    change ((heap + size) / 4 * 4 + 2 ^ 32 - (heap + 64) + 2 ^ 32 - 16) % 2 ^ 32 = _
    omega
  have passes : (roundBytes nbytes + sizeHeader + minFreeBytes) % 2 ^ 32 ≤
      freeSize w heap (heap + 64) := by
    rw [wraps]
    change (roundBytes nbytes + 16 + 64) % 2 ^ 32 ≤ _
    omega
  have spot : (heap + 64 + sizeHeader) % 2 ^ 32 = heap + 80 := by
    change (heap + 64 + 16) % 2 ^ 32 = heap + 80
    omega
  have served : localAllocInner w heap nbytes =
      some (splitNode w (heap + 64) (roundBytes nbytes), heap + 80) := by
    rw [localAllocInner, first, show (2 : Nat) ^ 32 = 2 ^ 32 - 1 + 1 from rfl, allocFrom,
      if_pos free, currentNodeAlloc, if_pos passes, if_pos rfl, spot]
  exact ⟨_, by rw [LocalMem.localAlloc, served]; rfl⟩

/-- A range that is handed out, written, resized and freed is such a run. -/
theorem placed_small :
    Runs.Always (serve smallArea)
        (fun use => use.stuck = false ∧ Spares smallArea (fun _ => 0) use.mem)
        (init smallArea fun _ => 0)
        [.call (.alignAlloc 64 20), .call (.write 0x1080 7), .realloc 0x1080 30,
          .call (.dealloc 0x1080)] ∧
      Runs.Each (serve smallArea) (Placed smallArea) (init smallArea fun _ => 0)
        [.call (.alignAlloc 64 20), .call (.write 0x1080 7), .realloc 0x1080 30,
          .call (.dealloc 0x1080)] := by
  -- The block is the last one of the heap, which has room for both sizes.
  refine placed_of_unwrapping smallArea (fun _ => 0) [.call (.alignAlloc 64 20),
    .call (.write 0x1080 7), .realloc 0x1080 30, .call (.dealloc 0x1080)] ?_
  refine (Runs.each_cons rfl).mpr ⟨⟨⟨by decide, 6, by decide, rfl⟩, ?_⟩, ?_⟩
  · intro nbytes sought
    cases sought
    exact Or.inl (by decide)
  refine (Runs.each_cons rfl).mpr ⟨⟨⟨⟨0x1080, 20⟩, by decide +kernel, by decide⟩, ?_⟩, ?_⟩
  · intro nbytes sought
    cases sought
  refine (Runs.each_cons rfl).mpr ⟨⟨⟨by decide, Or.inr ⟨⟨0x1080, 20⟩, by decide +kernel, rfl⟩⟩, ?_⟩,
    ?_⟩
  · refine ⟨by decide, Or.inr ?_⟩
    rw [if_pos (by decide +kernel)]
    intro _
    decide
  refine (Runs.each_cons rfl).mpr ⟨⟨⟨⟨0x1080, 30⟩, by decide +kernel, rfl⟩, ?_⟩, trivial⟩
  · intro nbytes sought
    cases sought

/-- A product that wraps to nothing is answered with a block that has none of its bytes. -/
theorem not_placed_product :
    Runs.Each (serve smallArea) (fun use request _ => use.Permits request)
        (init smallArea fun _ => 0) [.call (.calloc 0x10000 0x10000)] ∧
      ¬ Runs.Each (serve smallArea) (Placed smallArea) (init smallArea fun _ => 0)
        [.call (.calloc 0x10000 0x10000)] := by
  constructor
  · exact (Runs.each_cons rfl).mpr ⟨⟨by decide, by decide⟩, trivial⟩
  · intro claim
    have placed := ((Runs.each_cons rfl).mp claim).1
    -- The first block is split behind its header, and its address is handed out.
    have inside := (placed _ rfl ⟨0x1050, 0⟩ (by decide +kernel)).1.2
    exact absurd inside (by decide)

end LocalUse

end Aip
