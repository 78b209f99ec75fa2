import Mathlib.Algebra.Order.Ring.Int
import Mathlib.Algebra.Order.Ring.Nat
import Mathlib.Data.List.Forall2
import Mathlib.Data.List.Nodup
import Mathlib.Data.List.Sort

/-! Images painted by a list of stores, and which stores may change places without being seen. -/

namespace Paint

variable {α β γ : Type*} [DecidableEq α]

/-- The canvas after the stores in turn, a later one over an earlier one. -/
def paint (canvas : α → β) (stores : List (α × β)) : α → β :=
  stores.foldl (fun image store => Function.update image store.1 store.2) canvas

variable {canvas : α → β} {writes more : List (α × β)} {stores : γ → List (α × β)} {place : α}
  {first second : List γ}

@[simp] theorem paint_nil : paint canvas [] = canvas := rfl

@[simp] theorem paint_append : paint canvas (writes ++ more) = paint (paint canvas writes) more :=
  List.foldl_append ..

/-- A loop that makes the stores of its jobs one after the other paints them all. -/
theorem foldl_paint (jobs : List γ) :
    jobs.foldl (fun image job => paint image (stores job)) canvas =
      paint canvas (jobs.flatMap stores) := by
  -- The canvas of the later jobs is what the first one leaves.
  induction jobs generalizing canvas with
  | nil => rfl
  | cons job jobs ih =>
    rw [List.foldl_cons, ih, List.flatMap_cons, paint_append]

/-- A loop over runs that each paint their part paints all parts. -/
theorem foldl_parts {δ : Type*} {run : (α → β) → δ → α → β} {parts : List γ} {runs : List δ}
    (each : List.Forall₂ (fun part job => ∀ image, run image job = paint image (stores part))
      parts runs) : runs.foldl run canvas = paint canvas (parts.flatMap stores) := by
  induction each generalizing canvas with
  | nil => rfl
  | cons here _ ih =>
    rw [List.foldl_cons, here, ih, List.flatMap_cons, paint_append]

/-- A loop over runs that may fail paints all parts, where no run fails. -/
theorem foldlM_parts {δ : Type*} {run : (α → β) → δ → Option (α → β)} {parts : List γ}
    {runs : List δ} (each : List.Forall₂ (fun part job =>
      ∀ image, run image job = some (paint image (stores part))) parts runs) :
    runs.foldlM run canvas = some (paint canvas (parts.flatMap stores)) := by
  induction each generalizing canvas with
  | nil => rfl
  | cons here _ ih =>
    rw [List.foldlM_cons, here, List.flatMap_cons, paint_append]
    exact ih

/-- A loop that may fail paints all its jobs, where none of them fails. -/
theorem foldlM_paint {run : (α → β) → γ → Option (α → β)} {jobs : List γ}
    (each : ∀ job ∈ jobs, ∀ image, run image job = some (paint image (stores job))) :
    jobs.foldlM run canvas = some (paint canvas (jobs.flatMap stores)) :=
  foldlM_parts (List.forall₂_same.mpr each)

/-- What a place shows depends on the stores to that place alone. -/
theorem paint_at (writes : List (α × β)) : paint canvas writes place =
    paint canvas (writes.filter fun store => store.1 = place) place := by
  -- A store to somewhere else leaves the place as it was, so it is carried through the induction.
  suffices ∀ image : α → β, image place = canvas place → paint image writes place =
      paint canvas (writes.filter fun store => store.1 = place) place from this canvas rfl
  induction writes generalizing canvas with
  | nil => exact fun image same => same
  | cons store rest ih =>
    intro image same
    by_cases here : store.1 = place
    · rw [List.filter_cons_of_pos (by simpa using here)]
      subst here
      exact ih _ (by simp)
    · rw [List.filter_cons_of_neg (by simpa using here)]
      have kept : Function.update image store.1 store.2 place = canvas place := by
        rw [Function.update_of_ne (Ne.symm here), same]
      exact ih _ kept

/-- Two lists of jobs that store the same at a place show the same there. -/
theorem paint_at_congr {other : γ → List (α × β)} {jobs : List γ}
    (same : ∀ job ∈ jobs, (stores job).filter (fun store => store.1 = place) =
      (other job).filter fun store => store.1 = place) :
    paint canvas (jobs.flatMap stores) place = paint canvas (jobs.flatMap other) place := by
  rw [paint_at, paint_at (jobs.flatMap other), List.filter_flatMap, List.filter_flatMap,
    List.flatMap_congr same]

/-- Stores that differ only where they do not touch a place are alike at that place. -/
theorem filter_map_congr {ι : Type*} {indices : List ι} {one two : ι → α × β}
    (alike : ∀ i ∈ indices, one i = two i ∨ (one i).1 ≠ place ∧ (two i).1 ≠ place) :
    (indices.map one).filter (fun store => store.1 = place) =
      (indices.map two).filter fun store => store.1 = place := by
  -- The induction is on the stores; two that differ are both filtered out.
  induction indices with
  | nil => rfl
  | cons i rest ih =>
    have tail := ih fun j member => alike j (List.mem_cons_of_mem i member)
    rw [List.map_cons, List.map_cons]
    rcases alike i List.mem_cons_self with same | ⟨away, apart⟩
    · rw [same, List.filter_cons, List.filter_cons, tail]
    · rw [List.filter_cons_of_neg (by simpa using away),
        List.filter_cons_of_neg (by simpa using apart), tail]

/-- A place keeps its byte through stores to other places. -/
theorem paint_untouched (apart : ∀ store ∈ writes, store.1 ≠ place) :
    paint canvas writes place = canvas place := by
  rw [paint_at, List.filter_eq_nil_iff.mpr (by simpa using apart), paint_nil]

/-- A place that stores reach, all of them with one value, shows that value. -/
theorem paint_uniform {value : β} (reached : ∃ store ∈ writes, store.1 = place)
    (alike : ∀ store ∈ writes, store.1 = place → store.2 = value) :
    paint canvas writes place = value := by
  -- The last store that reaches the place is in the rest of the list, or is the first one.
  induction writes generalizing canvas with
  | nil =>
    obtain ⟨_, member, _⟩ := reached
    cases member
  | cons store rest ih =>
    have others : ∀ other ∈ rest, other.1 = place → other.2 = value := fun other member =>
      alike other (List.mem_cons_of_mem store member)
    by_cases again : ∃ other ∈ rest, other.1 = place
    · exact ih again others
    · obtain ⟨only, member, here⟩ := reached
      rcases List.mem_cons.mp member with rfl | later
      · have restAway : ∀ other ∈ rest, other.1 ≠ place := fun other member same =>
          again ⟨other, member, same⟩
        have shown : paint canvas (only :: rest) place =
            Function.update canvas only.1 only.2 place := paint_untouched restAway
        rw [shown, ← here, Function.update_self]
        exact alike only List.mem_cons_self here
      · exact absurd ⟨only, later, here⟩ again

/-- Where stores reach a place, it does not show what was there before. -/
theorem paint_reached (other : α → β) (reached : place ∈ writes.map Prod.fst) :
    paint canvas writes place = paint other writes place := by
  -- Either a later store reaches the place, or the first one gives it its value on both canvases.
  induction writes generalizing canvas other with
  | nil => cases reached
  | cons store rest ih =>
    by_cases again : place ∈ rest.map Prod.fst
    · exact ih _ again
    · have here : store.1 = place := by
        rw [List.map_cons, List.mem_cons] at reached
        exact (reached.resolve_right again).symm
      have away : ∀ later ∈ rest, later.1 ≠ place := fun later member same =>
        again (List.mem_map.mpr ⟨later, member, same⟩)
      have last : ∀ image : α → β, paint image (store :: rest) place = store.2 := by
        intro image
        have shown : paint image (store :: rest) place =
            Function.update image store.1 store.2 place := paint_untouched away
        rw [shown, ← here, Function.update_self]
      rw [last, last]

/-- Stores to the places of later stores are painted over. -/
theorem paint_covered (covered : ∀ store ∈ writes, store.1 ∈ more.map Prod.fst) :
    paint (paint canvas writes) more = paint canvas more := by
  funext place
  by_cases reached : place ∈ more.map Prod.fst
  · exact paint_reached _ reached
  · have away : ∀ {stores : List (α × β)}, (∀ store ∈ stores, store.1 ∈ more.map Prod.fst) →
        ∀ store ∈ stores, store.1 ≠ place := fun inside store member same =>
      reached (same ▸ inside store member)
    have later : ∀ store ∈ more, store.1 ≠ place := away fun store member =>
      List.mem_map.mpr ⟨store, member, rfl⟩
    rw [paint_untouched later, paint_untouched later, paint_untouched (away covered)]

/-- A store shows its value, where every place gets one store at most. -/
theorem paint_own (once : (writes.map Prod.fst).Nodup) {store : α × β} (member : store ∈ writes) :
    paint canvas writes store.1 = store.2 := by
  refine paint_uniform ⟨store, member, rfl⟩ fun other listed same => ?_
  exact congrArg Prod.snd (List.inj_on_of_nodup_map once listed member same)

/-- Stores to the same places are told apart by what they show. -/
theorem paint_inj (canvas : α → β) (places : writes.map Prod.fst = more.map Prod.fst)
    (once : (writes.map Prod.fst).Nodup)
    (same : ∀ place ∈ writes.map Prod.fst, paint canvas writes place = paint canvas more place) :
    writes = more := by
  have length : writes.length = more.length := by simpa using congrArg List.length places
  refine List.ext_getElem length fun i below inside => ?_
  have first : writes[i].1 = more[i].1 := by
    have here := List.getElem_of_eq places (by simpa using below : i < (writes.map Prod.fst).length)
    simpa using here
  have shown := same writes[i].1 (List.mem_map_of_mem (List.getElem_mem below))
  rw [paint_own once (List.getElem_mem below), first,
    paint_own (places ▸ once) (List.getElem_mem inside)] at shown
  exact Prod.ext first shown

/-- Two jobs clash when they store to one place. -/
def Clash (stores : γ → List (α × β)) (job next : γ) : Prop :=
  ∃ place, place ∈ (stores job).map Prod.fst ∧ place ∈ (stores next).map Prod.fst

/-- The stores to a place come from the jobs that store there. -/
theorem filter_jobs (jobs : List γ) (place : α) :
    (jobs.flatMap stores).filter (fun store => store.1 = place) =
      (jobs.filter fun job => place ∈ (stores job).map Prod.fst).flatMap
        fun job => (stores job).filter fun store => store.1 = place := by
  -- A job that does not store to the place adds nothing to the filtered list.
  induction jobs with
  | nil => rfl
  | cons job jobs ih =>
    rw [List.flatMap_cons, List.filter_append, ih]
    by_cases touches : place ∈ (stores job).map Prod.fst
    · rw [List.filter_cons_of_pos (by simpa using touches), List.flatMap_cons]
    · rw [List.filter_cons_of_neg (by simpa using touches)]
      have none : (stores job).filter (fun store => store.1 = place) = [] := by
        apply List.filter_eq_nil_iff.mpr
        intro store member same
        exact touches (List.mem_map.mpr ⟨store, member, by simpa using same⟩)
      rw [none, List.nil_append]

/--
The same jobs in another order paint the same image, as long as jobs that clash keep their order.

The relation need only order what clashes; it says nothing about the other pairs.
-/
theorem paint_reorder (before : γ → γ → Prop)
    (antisymm : ∀ job next, before job next → before next job → job = next)
    (same : first.Perm second)
    (one : first.Pairwise fun job next => Clash stores job next → before job next)
    (two : second.Pairwise fun job next => Clash stores job next → before job next) :
    paint canvas (first.flatMap stores) = paint canvas (second.flatMap stores) := by
  funext place
  -- At one place all the jobs that count clash with each other, so their order is the same.
  have sorted : ∀ {jobs : List γ}, jobs.Pairwise (fun job next => Clash stores job next →
      before job next) →
      (jobs.filter fun job => place ∈ (stores job).map Prod.fst).Pairwise before := by
    intro jobs ordered
    refine List.Pairwise.imp_of_mem ?_ (ordered.filter _)
    intro job next here there clash
    have touch := (List.mem_filter.mp here).2
    have touches := (List.mem_filter.mp there).2
    exact clash ⟨place, by simpa using touch, by simpa using touches⟩
  have equal := (same.filter fun job => place ∈ (stores job).map Prod.fst).eq_of_pairwise
    (fun job next _ _ => antisymm job next) (sorted one) (sorted two)
  rw [paint_at, filter_jobs, equal, ← filter_jobs, ← paint_at]

/-- Jobs that never clash may be done in any order. -/
theorem paint_perm (same : first.Perm second)
    (apart : first.Pairwise fun job next => ¬ Clash stores job next) :
    paint canvas (first.flatMap stores) = paint canvas (second.flatMap stores) := by
  -- Nothing is ordered, because nothing clashes.
  have swapped : ∀ {job next : γ}, ¬ Clash stores job next → ¬ Clash stores next job :=
    fun apart ⟨place, here, there⟩ => apart ⟨place, there, here⟩
  have nothing : ∀ job next : γ, False → False → job = next := fun _ _ never _ => never.elim
  exact paint_reorder (fun _ _ => False) nothing same apart (same.pairwise apart swapped)

end Paint
