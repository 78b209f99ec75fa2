import Aip.Memory.HeapLaws

/-! The units of the shared memory tile it and hold the ranges of its users. -/

namespace Aip

open Blocks Tiling Bufunit

namespace HeapUse

/-- What is expected of the units in list order and of the ranges that users hold. -/
structure Tiled (mem : HeapMem) (use : HeapUse) : Prop where
  tiles : Tiles Bufunit.region (mem.heap + 4) use.alloc.units (mem.heap + mem.size)
  separated : use.alloc.units.IsChain fun u w => ¬ (u.status = .free ∧ w.status = .free)
  ranges : ∃ ranges, ranges.Perm use.live ∧ List.Forall₂
    (fun (u : Bufunit) r => r.start = u.vaddr ∧ r.Inside u.region)
    (use.alloc.units.filter fun u => u.status = .busy) ranges
  apart : use.live.Pairwise Region.Apart
  restored : use.live = [] → ∃ offset, use.alloc.units =
    [{ status := .free, vaddr := mem.heap + 4, length := mem.size - 4, offset := offset }]

/-- An address that is answered is a multiple of the alignment. -/
def Aligned (use : HeapUse) (call : HeapCall) (_ : HeapUse) : Prop :=
  ∀ size alignsize, call.request = some (size, alignsize) → (use.answer call).2 % alignsize = 0

/-- A free is of an address that a user holds. -/
def Live (use : HeapUse) (call : HeapCall) (_ : HeapUse) : Prop :=
  ∀ addr, call = .dealloc addr → ∃ r ∈ use.live, r.start = addr.toNat

/-- The alignment is not zero, and the size and the alignment fit into 32 bits together. -/
def InRange (_ : HeapUse) (call : HeapCall) (_ : HeapUse) : Prop :=
  ∀ size alignsize, call.request = some (size, alignsize) →
    alignsize ≠ 0 ∧ size + alignsize < 2 ^ 32

/-- The size fits into 32 bits together with the bytes that align it in the unit that is taken. -/
def Unwrapped (use : HeapUse) (call : HeapCall) (_ : HeapUse) : Prop :=
  ∀ size alignsize fit, call.request = some (size, alignsize) → alignsize ≠ 0 →
    findFit size alignsize use.alloc.units = some fit → (fit.alloc size call.room).isSome →
      size + fit.offset < 2 ^ 32

/-- The first unit with the address that is freed is a busy one. -/
def Found (use : HeapUse) (call : HeapCall) (_ : HeapUse) : Prop :=
  ∀ addr, call = .dealloc addr →
    ∃ u, (use.alloc.units.find? fun u => u.vaddr = addr.toNat) = some u ∧ u.status = .busy

/-- The units cut the memory, and the busy ones hold the live ranges. -/
def Sound (mem : HeapMem) (use : HeapUse) : Prop :=
  Held Bufunit.view (mem.heap + 4) (mem.heap + mem.size) use.alloc.units use.live

variable {mem : HeapMem} {use after : HeapUse} {call : HeapCall} {size alignsize addr : Nat}
  {room : Bool}

/-- The first state is sound. -/
theorem sound_init : Sound mem (init mem) := by
  have fits := mem.room
  refine Held.init rfl ?_ rfl
  show mem.heap + 4 + (mem.size - 4) = mem.heap + mem.size
  omega

/-- A sound state has all that is expected of it. -/
theorem Sound.tiled (sound : Sound mem use) : Tiled mem use where
  tiles := sound.tiles
  separated := by
    apply sound.single.imp
    intro u w
    rw [view_busy, view_busy, free_iff, free_iff]
    tauto
  ranges := sound.matched
  apart := sound.apart
  restored := by
    -- With nothing live the general law leaves a single idle unit, and its place is the whole heap.
    intro none
    have held : Held Bufunit.view _ _ use.alloc.units use.live := sound
    rw [none] at held
    obtain ⟨u, single, idle, start, size⟩ := held.restored
    have free : u.status = .free := by
      rw [free_iff, ← view_busy, idle]
      exact Bool.false_ne_true
    have place : u.region = ⟨u.vaddr, u.length⟩ := region_free free
    have first : u.vaddr = mem.heap + 4 := by
      rw [← start]
      exact (congrArg Region.start place).symm
    have length : mem.heap + 4 + u.length = mem.heap + mem.size := size
    refine ⟨u.offset, single.trans ?_⟩
    rw [← free, ← first, show mem.size - 4 = u.length by omega]

/-- The free unit that is found lies in the memory, with offsets below the alignment. -/
theorem Sound.fit (sound : Sound mem use) {fit : Fit} (nonzero : alignsize ≠ 0)
    (found : findFit size alignsize use.alloc.units = some fit) :
    use.alloc.units = fit.before ++ fit.unit :: fit.after ∧ fit.unit.status = .free ∧
      (size + fit.offset) % 2 ^ 32 ≤ fit.unit.length ∧ mem.heap + 4 ≤ fit.unit.vaddr ∧
      fit.unit.vaddr + fit.unit.length < 2 ^ 32 ∧
      (fit.unit.vaddr + fit.offset) % alignsize = 0 ∧ fit.offset < alignsize := by
  obtain ⟨same, _, _, aligned⟩ := findFit_spec found
  obtain ⟨free, fits, low, high⟩ := findFit_within sound.tiles found
  exact ⟨same, free, fits, low, Nat.lt_of_le_of_lt high mem.visible, aligned nonzero⟩

/-- An allocation that does not wrap keeps the state sound and is aligned. -/
theorem Sound.granted (sound : Sound mem use) (size_lt : size < 2 ^ 32)
    (align_lt : alignsize < 2 ^ 32)
    (unwrapped : ∀ fit, alignsize ≠ 0 → findFit size alignsize use.alloc.units = some fit →
      (fit.alloc size room).isSome → size + fit.offset < 2 ^ 32) :
    Sound mem (use.granted size (localAlignAlloc use.alloc alignsize size room)) ∧
      (localAlignAlloc use.alloc alignsize size room).2 % alignsize = 0 := by
  -- The search fails, or the unit that it finds is cut once or twice.
  rcases localAlignAlloc_cases use.alloc alignsize size room with
    ⟨refused, _⟩ | ⟨fit, front, nonzero, found, given, served, cut⟩
  · rw [refused]
    exact ⟨sound, Nat.zero_mod alignsize⟩
  · obtain ⟨same, free, fits, low, high, aligned, below⟩ := sound.fit nonzero found
    have small := unwrapped fit nonzero found given
    have positive := mem.valid.1
    have total : (size + fit.offset) % 2 ^ 32 = size + fit.offset := Nat.mod_eq_of_lt small
    have place : (fit.unit.take size fit.offset).vaddr = fit.unit.vaddr + fit.offset := by
      show (fit.unit.vaddr + fit.offset) % 2 ^ 32 = _
      omega
    have covers := take_covers fits high size_lt (by omega) cut
    have inside : Fits Bufunit.view (fit.unit.take size fit.offset)
        ⟨(fit.unit.take size fit.offset).vaddr, size⟩ := by
      refine ⟨rfl, ?_⟩
      show Region.Inside _ (region _)
      rw [region_take (by omega) (by omega), place, total]
      exact ⟨Nat.le_add_right _ _, by dsimp only; omega⟩
    have held : Held Bufunit.view _ _ use.alloc.units use.live := sound
    rw [same] at held
    have stretch : (view.region fit.unit) = ⟨fit.unit.vaddr, fit.unit.length⟩ := region_free free
    have covered : Tiles view.region (view.region fit.unit).start
        (fit.unit.take size fit.offset :: front)
        ((view.region fit.unit).start + (view.region fit.unit).size) := by
      rw [stretch]
      exact covers
    have taken := held.take (view_idle free) covered rfl ?_ inside
    · rw [served]
      refine ⟨?_, by rw [place]; exact aligned⟩
      rw [HeapUse.granted, if_neg (by rw [place]; omega)]
      exact taken
    · rcases cut with ⟨none, _⟩ | ⟨one, _⟩
      · exact Or.inl none
      · exact Or.inr ⟨_, one, rfl⟩

/-- A busy unit has an address in the memory. -/
theorem Sound.address (sound : Sound mem use) {u : Bufunit} (member : u ∈ use.alloc.units)
    (busy : u.status = .busy) : (∃ r ∈ use.live, r.start = u.vaddr) ∧ mem.heap + 4 ≤ u.vaddr := by
  obtain ⟨r, live, start, low, _⟩ := sound.matched.partner member (view_busy.mpr busy)
  have bound := (sound.tiles.within member).1
  have key : r.start = u.vaddr := start
  exact ⟨⟨r, live, key⟩, key ▸ Nat.le_trans bound low⟩

/-- A free that finds a busy unit keeps the state sound. -/
theorem Sound.returned (sound : Sound mem use)
    (found : ∃ u, (use.alloc.units.find? fun u => u.vaddr = addr) = some u ∧ u.status = .busy) :
    Sound mem (use.returned addr (localDealloc use.alloc addr)) := by
  obtain ⟨u, search, busy⟩ := found
  have member := List.mem_of_find?_eq_some search
  have key : u.vaddr = addr := by simpa using List.find?_some search
  have place := (sound.address member busy).2
  have visible := mem.visible
  rcases localDealloc_cases use.alloc addr with
    ⟨_, null | absent⟩ | ⟨left, front, self, back, right, joined, merged, _, same, first, earlier,
      freed, free, behind, ahead⟩
  · omega
  · exact (absent u member key).elim
  · -- The unit that is found is the one that is freed.
    have again := find_first back right first earlier
    rw [← same] at again
    cases search.symm.trans again
    have held : Held Bufunit.view _ _ use.alloc.units use.live := sound
    rw [same] at held
    have chain := held.single
    have released := held.release (z := merged) (view_busy.mpr busy) (joins_idle behind ahead)
      (fun lo hi bound tiles => free_covers busy visible behind ahead bound tiles)
      (view_idle free) (ahead.busy chain) (behind.busy chain) fun w before => by
        rw [← key] at earlier
        exact earlier w (List.mem_append_left front before)
    have starts : (fun r : Region => decide (r.start = view.key u)) =
        fun r => decide (r.start = addr) := by
      funext r
      rw [← key]
      rfl
    rw [starts] at released
    rw [HeapUse.returned, freed]
    exact released

/-- A call within the conditions keeps the state sound and is aligned. -/
theorem Sound.step (sound : Sound mem use) (taken : use.step call = some after)
    (unwrapped : use.Unwrapped call after) (found : use.Found call after) :
    Sound mem after ∧ use.Aligned call after := by
  rcases step_cases taken with ⟨size, alignsize, request, small, low, answer, rfl⟩ | ⟨addr, rfl, rfl⟩
  · obtain ⟨kept, aligned⟩ := sound.granted small low
      fun fit nonzero found => unwrapped size alignsize fit request nonzero found
    refine ⟨kept, fun size' align' same => ?_⟩
    cases request.symm.trans same
    rw [answer]
    exact aligned
  · exact ⟨sound.returned (found addr rfl), fun _ _ none => by cases none⟩

/-- The request is one that the loop serves with a unit that is not too long for 32 bits. -/
theorem InRange.unwrapped (range : use.InRange call after) : use.Unwrapped call after := by
  intro size alignsize fit request nonzero found _
  have below := (findFit_spec found).2.2.2 nonzero
  have sum := (range size alignsize request).2
  omega

/-- A free after which the busy units still hold the live ranges has found a busy one. -/
theorem Sound.exact_found (sound : Sound mem use) (taken : use.step call = some after)
    (live : use.Live call after) (tiled : Tiled mem after) : use.Found call after := by
  intro addr same
  subst same
  cases taken
  obtain ⟨r, member, start⟩ := live addr rfl
  obtain ⟨u, place, busy, key, _⟩ := sound.matched.holder member
  have visible := (sound.address place (view_busy.mp busy)).2
  have carries : u.vaddr = addr.toNat := key.symm.trans start
  have matched : Matching.Matched view.busy (Fits view) _ _ := tiled.ranges
  rcases localDealloc_cases use.alloc addr.toNat with
    ⟨_, null | absent⟩ | ⟨left, front, self, back, right, joined, merged, _, split, first, earlier,
      freed, free, behind, ahead⟩
  · omega
  · exact (absent u place carries).elim
  · refine ⟨self, ?_, ?_⟩
    · rw [split]
      exact find_first back right first earlier
    · -- Otherwise as many units are busy as before, and one range fewer is live.
      by_contra other
      have idle := joins_idle behind ahead
      have before := sound.matched.count
      have later := matched.count
      have fewer := List.length_eraseP_of_mem (p := fun r => decide (r.start = addr.toNat)) member
        (by simpa using start)
      have positive := List.length_pos_of_mem member
      have noneFront : front.filter view.busy = [] := by
        simpa using fun w inside => idle w (List.mem_append_left back inside)
      have noneBack : back.filter view.busy = [] := by
        simpa using fun w inside => idle w (List.mem_append_right front inside)
      rw [split] at before
      simp only [HeapUse.returned, HeapUse.answer, freed, List.filter_append, List.filter_cons,
        noneFront, noneBack, view_idle free, view_idle (free_iff.mpr other), Bool.false_eq_true,
        if_false, List.append_nil] at before later
      rw [fewer] at later
      omega

/-- An allocation after which every busy unit holds a range has not wrapped around. -/
theorem Sound.exact_unwrapped (sound : Sound mem use) (taken : use.step call = some after)
    (tiled : Tiled mem after) : use.Unwrapped call after := by
  intro size alignsize fit request nonzero found given
  rcases step_cases taken with
    ⟨size', align', request', small, low, _, rfl⟩ | ⟨addr, rfl, _⟩
  · cases request.symm.trans request'
    rcases localAlignAlloc_cases use.alloc alignsize size call.room with
      ⟨_, refused⟩ | ⟨fit', front, _, found', _, served, _⟩
    · rw [refused fit nonzero found] at given
      cases given
    · cases found.symm.trans found'
      obtain ⟨_, _, fits, above, high, _, below⟩ := sound.fit nonzero found
      -- The unit that is taken holds a range that starts at its address.
      have matched : Matching.Matched view.busy (Fits view) _ _ := tiled.ranges
      obtain ⟨r, _, start, inside⟩ := matched.partner (x := fit.unit.take size fit.offset)
        (by rw [HeapUse.granted, served]; simp) rfl
      change r.Inside (region _) at inside
      rw [region_take (by omega) (by omega)] at inside
      have start : r.start = (fit.unit.vaddr + fit.offset) % 2 ^ 32 := start
      obtain ⟨left, right⟩ := inside
      dsimp only at left right
      omega
  · cases request

/--
The units tile the memory and hold the live ranges in every state, and every address is aligned,
exactly when each free meets the busy unit with its address before a free one.
-/
theorem unitsTiled_iff (mem : HeapMem) (calls : List HeapCall)
    (live : Runs.Each step (fun use call after => use.Live call after ∧ use.InRange call after)
      (init mem) calls) :
    (Runs.Always step (Tiled mem) (init mem) calls ∧ Runs.Each step Aligned (init mem) calls) ↔
      Runs.Each step Found (init mem) calls := by
  apply Runs.safe_iff_within (I := Sound mem) ?_ ?_ ?_ sound_init live
  · exact fun use sound => sound.tiled
  · intro use call after sound taken allowed found
    exact sound.step taken allowed.2.unwrapped found
  · intro use call after sound taken allowed tiled _
    exact sound.exact_found taken allowed.1 tiled

/-- A memory of 4 KiB behind the bytes that `Local_HeapInit` leaves out. -/
def page : HeapMem where
  heap := 0x1000
  size := 0x1004
  valid := by decide
  room := by decide
  visible := by decide

/-- A block that is handed out and freed is such a run. -/
theorem unitsTiled_iff_page :
    (Runs.Always step (Tiled page) (init page) [.alloc 100 true, .dealloc 0x1004] ∧
      Runs.Each step Aligned (init page) [.alloc 100 true, .dealloc 0x1004]) ↔
    Runs.Each step Found (init page) [.alloc 100 true, .dealloc 0x1004] := by
  apply unitsTiled_iff page [.alloc 100 true, .dealloc 0x1004]
  refine (Runs.each_cons rfl).mpr ⟨⟨by simp [Live], ?_⟩, (Runs.each_cons rfl).mpr ⟨⟨?_, ?_⟩, trivial⟩⟩
  · intro size alignsize request
    cases request
    decide
  · intro addr same
    cases same
    exact ⟨⟨0x1004, 100⟩, by decide, rfl⟩
  · intro size alignsize request
    cases request

/-- The address of an empty range is handed out again, and freeing both frees one of them. -/
theorem unitsTiled_leaks :
    Runs.Each step (fun use call after => use.Live call after ∧ use.InRange call after) (init page)
      [.alloc 0 true, .alloc 100 true, .dealloc 0x1004, .dealloc 0x1004] ∧
    ¬ Runs.Always step (Tiled page) (init page)
      [.alloc 0 true, .alloc 100 true, .dealloc 0x1004, .dealloc 0x1004] := by
  constructor
  · have small : ∀ (use after : HeapUse) (n : UInt32), n.toNat + 1 < 2 ^ 32 →
        use.Live (.alloc n true) after ∧ use.InRange (.alloc n true) after := by
      intro use after n fits
      refine ⟨by simp [Live], fun size alignsize request => ?_⟩
      cases request
      exact ⟨by decide, fits⟩
    have free : ∀ (use after : HeapUse), (∃ r ∈ use.live, r.start = 0x1004) →
        use.Live (.dealloc 0x1004) after ∧ use.InRange (.dealloc 0x1004) after := by
      intro use after held
      refine ⟨fun addr same => ?_, fun size alignsize request => by cases request⟩
      cases same
      exact held
    refine (Runs.each_cons rfl).mpr ⟨small _ _ 0 (by decide), ?_⟩
    refine (Runs.each_cons rfl).mpr ⟨small _ _ 100 (by decide), ?_⟩
    refine (Runs.each_cons rfl).mpr ⟨free _ _ (by decide), ?_⟩
    exact (Runs.each_cons rfl).mpr ⟨free _ _ (by decide), trivial⟩
  · intro claim
    -- In the end nothing is live, and the second unit is still a busy one.
    obtain ⟨offset, only⟩ := (claim.last rfl).restored (by decide)
    exact absurd (congrArg List.length only) (by simp only [List.length_singleton]; decide)

end HeapUse

end Aip
