import Aip.Memory.HeapTiling

/-! The older allocator of the shared memory, of the T40, next to the one of the T41. -/

namespace Aip

open Bufunit

namespace T40

/-- The loop of `alloc_bufunit`, with the place of `preunit`; `i` is the place that it has reached. -/
def findFit (size alignsize : Nat) (preunit : Option Nat) (i : Nat) :
    List Bufunit → Option (Fit × Option Nat)
  | [] => none
  | unit :: rest =>
    if unit.status = .free ∧ size ≤ unit.length then
      if unit.vaddr % alignsize ≠ 0 then
        let offset := alignsize - unit.vaddr % alignsize
        if (size + offset) % 2 ^ 32 ≤ unit.length then some (⟨[], unit, rest, offset⟩, preunit)
        else (findFit size alignsize (some i) (i + 1) rest).map (Prod.map (Fit.behind unit) id)
      else some (⟨[], unit, rest, 0⟩, preunit)
    else (findFit size alignsize preunit (i + 1) rest).map (Prod.map (Fit.behind unit) id)

/-- `preunit->length += offset`, under its condition. -/
def bump (fit : Fit) (alignsize : Nat) (preunit : Option Nat) : Fit :=
  match preunit with
  | none => fit
  | some i =>
    if alignsize ≠ 0 ∧ fit.unit.vaddr % alignsize ≠ 0 then
      { fit with before :=
          fit.before.modify i fun u => { u with length := (u.length + fit.offset) % 2 ^ 32 } }
    else fit

/-- `alloc_bufunit`. -/
def allocBufunit (units : List Bufunit) (size alignsize : Nat) (room : Bool) :
    Option (List Bufunit × Nat) := do
  let (fit, preunit) ← findFit size alignsize none 0 units
  (bump fit alignsize preunit).alloc size room

/-- `Local_alignAlloc`. -/
def localAlignAlloc (alloc : Alloc) (alignsize size : Nat) (room : Bool) : Alloc × Nat :=
  if alignsize = 0 then (alloc, 0)
  else alloc.answer (allocBufunit alloc.units size alignsize room)

/-- What a call answers; everything but `alloc_bufunit` is as on the T41. -/
def answer (use : HeapUse) : HeapCall → Alloc × Nat
  | .alignAlloc alignsize size room => localAlignAlloc use.alloc alignsize.toNat size.toNat room
  | .alloc nbytes room => localAlignAlloc use.alloc 1 nbytes.toNat room
  | .calloc size n room => localAlignAlloc use.alloc 1 (size.toNat * n.toNat % 2 ^ 32) room
  | .dealloc addr => localDealloc use.alloc addr.toNat

/-- One call. -/
def step (use : HeapUse) (call : HeapCall) : HeapUse :=
  match call with
  | .dealloc addr => use.returned addr.toNat (answer use call)
  | .alignAlloc _ size _ => use.granted size.toNat (answer use call)
  | .alloc nbytes _ => use.granted nbytes.toNat (answer use call)
  | .calloc size n _ => use.granted (size.toNat * n.toNat % 2 ^ 32) (answer use call)

end T40

/-- The same memory under both allocators. -/
structure BothHeaps where
  t40 : HeapUse
  t41 : HeapUse
  deriving DecidableEq, Repr

namespace BothHeaps

/-- The state after both allocators are initialised. -/
def init (mem : HeapMem) : BothHeaps := ⟨HeapUse.init mem, HeapUse.init mem⟩

/-- The same call to both allocators. -/
def step (both : BothHeaps) (call : HeapCall) : Option BothHeaps := do
  let t41 ← both.t41.step call
  return ⟨T40.step both.t40 call, t41⟩

/-- Both have the same units, and those of the older allocator tile the memory. -/
def Agree (mem : HeapMem) (both : BothHeaps) : Prop :=
  both.t40.alloc.units = both.t41.alloc.units ∧ both.t40.Tiled mem

/-- Both answer the same address. -/
def SameAnswer (both : BothHeaps) (call : HeapCall) (_ : BothHeaps) : Prop :=
  (T40.answer both.t40 call).2 = (both.t41.answer call).2

/-- A free is of an address that a user holds. -/
def Live (both : BothHeaps) (call : HeapCall) (after : BothHeaps) : Prop :=
  both.t41.Live call after.t41

/-- No misaligned unit is taken behind a long but misaligned one that was passed over. -/
def Smooth (both : BothHeaps) (call : HeapCall) (_ : BothHeaps) : Prop :=
  ∀ size alignsize fit preunit, call.request = some (size, alignsize) → alignsize ≠ 0 →
    T40.findFit size alignsize none 0 both.t41.alloc.units = some (fit, preunit) →
      (fit.alloc size call.room).isSome → fit.unit.vaddr % alignsize ≠ 0 → preunit = none

/-- The condition of the T41 allocator on a call. -/
def Sane (both : BothHeaps) (call : HeapCall) (after : BothHeaps) : Prop :=
  both.t41.Unwrapped call after.t41 ∧ both.t41.Found call after.t41

end BothHeaps

variable {units : List Bufunit} {fit : Fit} {size alignsize i : Nat} {preunit last : Option Nat}
  {room : Bool} {alloc : Alloc}

namespace T40

/-- The loop takes the same unit as on the T41. -/
theorem findFit_fst (size alignsize : Nat) (preunit : Option Nat) (i : Nat)
    (units : List Bufunit) : (findFit size alignsize preunit i units).map Prod.fst =
    Aip.findFit size alignsize units := by
  -- The induction is on the units; `preunit` is carried along and decides nothing.
  induction units generalizing preunit i with
  | nil => rfl
  | cons unit rest ih =>
    have behind : ∀ place, ((findFit size alignsize place (i + 1) rest).map
        (Prod.map (Fit.behind unit) id)).map Prod.fst =
        (Aip.findFit size alignsize rest).map (Fit.behind unit) := by
      intro place
      rw [← ih place (i + 1), Option.map_map, Option.map_map]
      rfl
    simp only [findFit, Aip.findFit]
    split
    · split
      · split
        · rfl
        · exact behind (some i)
      · rfl
    · exact behind preunit

/-- A unit that was passed over in the loop stands in front of the one that is taken. -/
theorem findFit_place (found : findFit size alignsize preunit i units = some (fit, last)) :
    last = preunit ∨ ∃ k, last = some (i + k) ∧ k < fit.before.length := by
  -- The induction is on the units, with the place counted from the one reached.
  induction units generalizing preunit i fit with
  | nil => cases found
  | cons unit rest ih =>
    have behind : ∀ place, (findFit size alignsize place (i + 1) rest).map
        (Prod.map (Fit.behind unit) id) = some (fit, last) →
        (last = place ∨ ∃ k, last = some (i + (k + 1)) ∧ k + 1 < fit.before.length) ∧
          0 < fit.before.length := by
      intro place mapped
      obtain ⟨⟨fit', last'⟩, found', same⟩ := Option.map_eq_some_iff.mp mapped
      cases same
      refine ⟨?_, Nat.succ_pos _⟩
      rcases ih found' with kept | ⟨k, at', inside⟩
      · exact Or.inl kept
      · rw [show i + 1 + k = i + (k + 1) by omega] at at'
        exact Or.inr ⟨k, at', Nat.succ_lt_succ inside⟩
    simp only [findFit] at found
    split at found
    · split at found
      · split at found
        · cases found
          exact Or.inl rfl
        · obtain ⟨place, filled⟩ := behind (some i) found
          rcases place with here | ⟨k, at', inside⟩
          · exact Or.inr ⟨0, here, filled⟩
          · exact Or.inr ⟨k + 1, at', inside⟩
      · cases found
        exact Or.inl rfl
    · rcases (behind preunit found).1 with kept | ⟨k, at', inside⟩
      · exact Or.inl kept
      · exact Or.inr ⟨k + 1, at', inside⟩

/-- The longer unit in front has no part in whether the request is served. -/
theorem bump_alloc (fit : Fit) (size alignsize : Nat) (preunit : Option Nat) (room : Bool) :
    (bump fit alignsize preunit).alloc size room =
      (fit.alloc size room).map fun answer =>
        ((bump fit alignsize preunit).before ++ answer.1.drop fit.before.length, answer.2) := by
  -- The unit that grows is in front of the one that is taken.
  have same : (bump fit alignsize preunit).unit = fit.unit ∧
      (bump fit alignsize preunit).after = fit.after ∧
      (bump fit alignsize preunit).offset = fit.offset := by
    cases preunit with
    | none => exact ⟨rfl, rfl, rfl⟩
    | some i =>
      simp only [bump]
      split <;> exact ⟨rfl, rfl, rfl⟩
  obtain ⟨unit, after, offset⟩ := same
  by_cases long : (size + fit.offset) % 2 ^ 32 < fit.unit.length
  · cases room with
    | false =>
      simp only [Fit.alloc, unit, after, offset, if_pos long, Bool.false_eq_true, if_false,
        Option.map_none]
    | true =>
      simp only [Fit.alloc, unit, after, offset, if_pos long, if_true, Option.map_some,
        List.drop_left]
  · simp only [Fit.alloc, unit, after, offset, if_neg long, Option.map_some, List.drop_left]

/-- Without a unit that grows, both allocators do the same. -/
theorem localAlignAlloc_smooth (smooth : ∀ fit preunit, alignsize ≠ 0 →
    findFit size alignsize none 0 alloc.units = some (fit, preunit) →
      (fit.alloc size room).isSome → fit.unit.vaddr % alignsize ≠ 0 → preunit = none) :
    localAlignAlloc alloc alignsize size room = Aip.localAlignAlloc alloc alignsize size room := by
  -- The search agrees, so only `bump` could make a difference.
  by_cases invalid : alignsize = 0
  · rw [localAlignAlloc, Aip.localAlignAlloc, if_pos invalid, if_pos invalid]
  have first := findFit_fst size alignsize none 0 alloc.units
  rw [localAlignAlloc, Aip.localAlignAlloc, if_neg invalid, if_neg invalid, allocBufunit,
    Aip.allocBufunit, ← first]
  cases found : findFit size alignsize none 0 alloc.units with
  | none => rfl
  | some place =>
    obtain ⟨fit, preunit⟩ := place
    have same : (bump fit alignsize preunit).alloc size room = fit.alloc size room := by
      cases served : fit.alloc size room with
      | none => rw [bump_alloc, served, Option.map_none]
      | some answer =>
        rw [← served]
        by_cases aligned : fit.unit.vaddr % alignsize = 0
        · cases preunit with
          | none => rfl
          | some i => rw [bump, if_neg fun both => both.2 aligned]
        · rw [smooth fit preunit invalid found (by simp [served]) aligned]
          rfl
    simp only [Option.bind_eq_bind, Option.bind_some, Option.map_some, same]

/-- When a unit grows, the units are no longer the same. -/
theorem localAlignAlloc_grown (small : ∀ u ∈ alloc.units, u.length < 2 ^ 32)
    (align_lt : alignsize < 2 ^ 32)
    (same : (localAlignAlloc alloc alignsize size room).1.units =
      (Aip.localAlignAlloc alloc alignsize size room).1.units) {fit : Fit} {preunit : Option Nat}
    (nonzero : alignsize ≠ 0)
    (found : findFit size alignsize none 0 alloc.units = some (fit, preunit))
    (served : (fit.alloc size room).isSome) (misfit : fit.unit.vaddr % alignsize ≠ 0) :
    preunit = none := by
  have first := findFit_fst size alignsize none 0 alloc.units
  rw [found, Option.map_some] at first
  obtain ⟨split, _, _, aligned⟩ := findFit_spec first.symm
  obtain ⟨whole, below⟩ : (fit.unit.vaddr + fit.offset) % alignsize = 0 ∧ fit.offset < alignsize :=
    aligned nonzero
  obtain ⟨answer, served⟩ := Option.isSome_iff_exists.mp served
  rw [localAlignAlloc, Aip.localAlignAlloc, if_neg nonzero, if_neg nonzero, allocBufunit,
    Aip.allocBufunit, ← first, found] at same
  simp only [Option.bind_eq_bind, Option.bind_some, bump_alloc, served, Option.map_some,
    Alloc.answer] at same
  -- The list of the T41 begins with the units in front of the one that is taken.
  have front : answer.1 = fit.before ++ answer.1.drop fit.before.length := by
    have begins : fit.before <+: answer.1 := by
      simp only [Fit.alloc] at served
      split at served
      · split at served
        · cases served
          exact List.prefix_append _ _
        · cases served
      · cases served
        exact List.prefix_append _ _
    obtain ⟨rest, same⟩ := begins
    rw [← same, List.drop_left]
  rw [front, List.drop_left] at same
  have kept := List.append_cancel_right same
  rcases findFit_place found with none | ⟨k, place, inside⟩
  · exact none
  · -- The unit at the place of `preunit` would keep its length.
    subst place
    rw [bump, if_pos ⟨nonzero, misfit⟩, Nat.zero_add] at kept
    have at' := congrArg (fun us => us[k]?) kept
    simp only [List.getElem?_modify, if_true, List.getElem?_eq_getElem inside] at at'
    have length := congrArg Bufunit.length (Option.some.inj at')
    have bound := small fit.before[k] (by rw [split]; simp)
    have positive : fit.offset ≠ 0 := by
      intro none
      rw [none, Nat.add_zero] at whole
      exact misfit whole
    simp only at length
    omega

end T40

namespace BothHeaps

variable {mem : HeapMem} {both after : BothHeaps} {call : HeapCall}

/-- Both allocators are in one sound state. -/
def Synced (mem : HeapMem) (both : BothHeaps) : Prop :=
  both.t40 = both.t41 ∧ both.t41.Sound mem

/-- A call to both is one to each. -/
theorem step_some (taken : both.step call = some after) :
    both.t41.step call = some after.t41 ∧ after.t40 = T40.step both.t40 call := by
  cases stepped : both.t41.step call with
  | none => simp [step, stepped] at taken
  | some t41 =>
    simp only [step, stepped, Option.bind_eq_bind, Option.bind_some] at taken
    cases taken
    exact ⟨rfl, rfl⟩

/-- A request is answered by the aligning allocator of either kind. -/
theorem answer_request (use : HeapUse) {size alignsize : Nat}
    (request : call.request = some (size, alignsize)) : alignsize < 2 ^ 32 ∧
    T40.answer use call = T40.localAlignAlloc use.alloc alignsize size call.room ∧
    use.answer call = localAlignAlloc use.alloc alignsize size call.room := by
  -- One case for each call; a free requests nothing.
  cases call with
  | alignAlloc align n room =>
    cases request
    exact ⟨align.toNat_lt, rfl, rfl⟩
  | alloc nbytes room =>
    cases request
    exact ⟨by decide, rfl, rfl⟩
  | calloc n m room =>
    cases request
    exact ⟨by decide, rfl, rfl⟩
  | dealloc addr => cases request

/-- Without a unit that grows, the answers are the same. -/
theorem Synced.same (synced : Synced mem both) (smooth : both.Smooth call after) :
    T40.answer both.t40 call = both.t41.answer call := by
  -- Frees are the same code, and allocations differ in `bump` alone.
  rw [synced.1]
  cases request : call.request with
  | none =>
    cases call with
    | dealloc addr => rfl
    | _ => cases request
  | some asked =>
    obtain ⟨size, alignsize⟩ := asked
    obtain ⟨_, old, new⟩ := answer_request both.t41 request
    rw [old, new]
    exact T40.localAlignAlloc_smooth fun fit preunit => smooth size alignsize fit preunit request

/-- Equal answers lead to equal states. -/
theorem step_same (taken : both.step call = some after) (equal : both.t40 = both.t41)
    (same : T40.answer both.t40 call = both.t41.answer call) : after.t40 = after.t41 := by
  obtain ⟨stepped, old⟩ := step_some taken
  rw [old]
  rw [equal] at same ⊢
  apply Option.some.inj
  rw [← stepped]
  cases call <;> simp only [T40.step, HeapUse.step, same]

/-- The allocators behind a call are those that the answers come with. -/
theorem step_alloc (taken : both.step call = some after) :
    after.t40.alloc = (T40.answer both.t40 call).1 ∧
      after.t41.alloc = (both.t41.answer call).1 := by
  obtain ⟨stepped, old⟩ := step_some taken
  rw [old]
  have new : some after.t41.alloc = some (both.t41.answer call).1 := by
    rw [← Option.map_some (f := HeapUse.alloc), ← stepped]
    cases call <;> rfl
  exact ⟨by cases call <;> rfl, Option.some.inj new⟩

/-- Units that stay the same tell that no unit has grown. -/
theorem Synced.smooth (synced : Synced mem both)
    (same : (T40.answer both.t40 call).1.units = (both.t41.answer call).1.units) :
    both.Smooth call after := by
  -- A unit that grows is longer in one list than in the other.
  intro size alignsize fit preunit request nonzero found served misfit
  obtain ⟨low, old, new⟩ := answer_request both.t41 request
  rw [synced.1, old, new] at same
  refine T40.localAlignAlloc_grown (fun u member => ?_) low same nonzero found served misfit
  have bound := (synced.2.tiles.within member).2
  have visible := mem.visible
  have length : (view.region u).size = u.length := rfl
  omega

/-- The units and the address make up the whole answer. -/
theorem answer_ext {use : HeapUse} (units : (T40.answer use call).1.units =
      (use.answer call).1.units) (addr : (T40.answer use call).2 = (use.answer call).2) :
    T40.answer use call = use.answer call := by
  cases request : call.request with
  | none =>
    cases call with
    | dealloc addr => rfl
    | _ => cases request
  | some asked =>
    obtain ⟨size, alignsize⟩ := asked
    obtain ⟨_, old, new⟩ := answer_request use request
    -- Neither allocator touches the bounds of the memory.
    have bounds : ∀ found : Option (List Bufunit × Nat), ∃ answer : List Bufunit × Nat,
        use.alloc.answer found = ({ use.alloc with units := answer.1 }, answer.2) := by
      intro found
      cases found with
      | none => exact ⟨(use.alloc.units, 0), rfl⟩
      | some answer => exact ⟨answer, rfl⟩
    have older : ∃ answer : List Bufunit × Nat, T40.localAlignAlloc use.alloc alignsize size
        call.room = ({ use.alloc with units := answer.1 }, answer.2) := by
      rw [T40.localAlignAlloc]
      split
      · exact ⟨(use.alloc.units, 0), rfl⟩
      · exact bounds _
    have newer : ∃ answer : List Bufunit × Nat, localAlignAlloc use.alloc alignsize size
        call.room = ({ use.alloc with units := answer.1 }, answer.2) := by
      rw [localAlignAlloc]
      split
      · exact ⟨(use.alloc.units, 0), rfl⟩
      · exact bounds _
    obtain ⟨first, older⟩ := older
    obtain ⟨second, newer⟩ := newer
    rw [old, new, older, newer] at units addr ⊢
    rw [show first = second from Prod.ext units addr]

/--
Both allocators answer the same and reach the same units, which tile the memory, exactly when no
misaligned unit is taken behind a long one that was passed over and the calls are sane.
-/
theorem refines_iff (mem : HeapMem) (calls : List HeapCall)
    (live : Runs.Each step Live (init mem) calls) :
    (Runs.Always step (Agree mem) (init mem) calls ∧
      Runs.Each step SameAnswer (init mem) calls) ↔
    Runs.Each step (fun both call after => both.Smooth call after ∧ both.Sane call after)
      (init mem) calls := by
  -- The states agree as long as the answers do, and the answers as long as no unit grows.
  apply Runs.safe_iff_within (I := Synced mem) ?_ ?_ ?_ ⟨rfl, HeapUse.sound_init⟩ live
  · intro both synced
    refine ⟨congrArg (fun use => use.alloc.units) synced.1, ?_⟩
    rw [synced.1]
    exact synced.2.tiled
  · intro both call after synced taken _ ok
    have same := synced.same ok.1
    have kept := (synced.2.step (step_some taken).1 ok.2.1 ok.2.2).1
    exact ⟨⟨step_same taken synced.1 same, kept⟩, congrArg Prod.snd same⟩
  · intro both call after synced taken live agree same
    obtain ⟨older, newer⟩ := step_alloc taken
    have units := agree.1
    rw [older, newer] at units
    have equal : T40.answer both.t40 call = both.t41.answer call := by
      rw [SameAnswer, synced.1] at same
      rw [synced.1] at units ⊢
      exact answer_ext units same
    have stepped := (step_some taken).1
    have tiled := agree.2
    rw [step_same taken synced.1 equal] at tiled
    exact ⟨synced.smooth units, synced.2.exact_unwrapped stepped tiled,
      synced.2.exact_found stepped live tiled⟩

/-- A block that is handed out and freed is such a run. -/
theorem refines_iff_page :
    (Runs.Always step (Agree HeapUse.page) (init HeapUse.page)
        [.alignAlloc 64 100 true, .dealloc 0x1040] ∧
      Runs.Each step SameAnswer (init HeapUse.page) [.alignAlloc 64 100 true, .dealloc 0x1040]) ↔
    Runs.Each step (fun both call after => both.Smooth call after ∧ both.Sane call after)
      (init HeapUse.page) [.alignAlloc 64 100 true, .dealloc 0x1040] := by
  -- The free is of the range that the first call has given out.
  apply refines_iff HeapUse.page [.alignAlloc 64 100 true, .dealloc 0x1040]
  refine (Runs.each_cons rfl).mpr ⟨by simp [Live, HeapUse.Live], ?_⟩
  refine (Runs.each_cons rfl).mpr ⟨fun addr same => ?_, trivial⟩
  cases same
  exact ⟨⟨0x1040, 100⟩, by decide, rfl⟩

/-- A free unit that was passed over grows into the busy one behind it. -/
theorem refines_grows :
    Runs.Each step Live (init HeapUse.page) [.alignAlloc 1 100 true, .alignAlloc 1 100 true,
      .dealloc 0x1004, .alignAlloc 64 96 true] ∧
    ¬ Runs.Always step (Agree HeapUse.page) (init HeapUse.page) [.alignAlloc 1 100 true,
      .alignAlloc 1 100 true, .dealloc 0x1004, .alignAlloc 64 96 true] := by
  -- The first unit is free again when the last call passes it over.
  constructor
  · refine (Runs.each_cons rfl).mpr ⟨by simp [Live, HeapUse.Live], ?_⟩
    refine (Runs.each_cons rfl).mpr ⟨by simp [Live, HeapUse.Live], ?_⟩
    refine (Runs.each_cons rfl).mpr ⟨fun addr same => ?_, ?_⟩
    · cases same
      exact ⟨⟨0x1004, 100⟩, by decide, rfl⟩
    · exact (Runs.each_cons rfl).mpr ⟨by simp [Live, HeapUse.Live], trivial⟩
  · intro claim
    exact absurd (claim.last rfl).1 (by decide)

end BothHeaps

end Aip
