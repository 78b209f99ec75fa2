import Mathlib.Data.List.Basic
import Aip.Lib.Region

/-! Passes over a list of regions that join those which follow each other without a gap. -/

namespace Region

/-- An address of the region. -/
def Holds (r : Region) (address : Nat) : Prop := r.start ≤ address ∧ address < r.start + r.size

/-- An address of one of the regions. -/
def Covers (rs : List Region) (address : Nat) : Prop := ∃ r ∈ rs, r.Holds address

instance (r : Region) (address : Nat) : Decidable (r.Holds address) :=
  inferInstanceAs (Decidable (_ ∧ _))

instance (rs : List Region) (address : Nat) : Decidable (Covers rs address) :=
  inferInstanceAs (Decidable (∃ r ∈ rs, _))

/-- The region at a place of the list ends where the one behind it starts. -/
def Meets (rs : List Region) (i : Nat) : Prop :=
  ∃ r next, rs[i]? = some r ∧ rs[i + 1]? = some next ∧ next.start = r.start + r.size

/-- The region at a place ends a run of regions that meet, and what is in front of it is not empty. -/
def EndsRun (rs : List Region) (i : Nat) : Prop :=
  ¬ Meets rs i ∧ ∃ j < i, (∀ k, j ≤ k → k < i → Meets rs k) ∧ ∃ r, rs[j]? = some r ∧ 0 < r.size

/-- An address of a region that does not end a run. -/
def Reached (rs : List Region) (address : Nat) : Prop :=
  ∃ i r, rs[i]? = some r ∧ ¬ EndsRun rs i ∧ r.Holds address

/--
What a pass hands on that gathers a region as long as the next one meets it. The region that ends
a run is not gathered; it is handed on only when nothing has been gathered in front of it.
-/
def gather : Region → List Region → List Region
  | _, [] => []
  | held, [r] => [if 0 < held.size then held else r]
  | held, r :: next :: rest =>
    if next.start = r.start + r.size then
      gather ⟨if 0 < held.size then held.start else r.start, held.size + r.size⟩ (next :: rest)
    else (if 0 < held.size then held else r) :: gather ⟨0, 0⟩ (next :: rest)

variable {rs ss : List Region} {r held next : Region} {address i : Nat}

theorem covers_nil : ¬ Covers [] address := by simp [Covers]

theorem covers_cons : Covers (r :: rs) address ↔ r.Holds address ∨ Covers rs address := by
  simp [Covers]

theorem covers_append : Covers (rs ++ ss) address ↔ Covers rs address ∨ Covers ss address := by
  simp [Covers, or_and_right, exists_or]

/-- A region that is joined to the one behind it holds the addresses of both. -/
theorem holds_join (meet : 0 < held.size → r.start = held.start + held.size) :
    Holds ⟨if 0 < held.size then held.start else r.start, held.size + r.size⟩ address ↔
      held.Holds address ∨ r.Holds address := by
  simp only [Holds]
  split <;> omega

/-- Behind the first place the list meets where its tail does. -/
theorem meets_cons : Meets (r :: rs) (i + 1) ↔ Meets rs i := by
  simp only [Meets, List.getElem?_cons_succ]

/-- What `EndsRun` says when something may have been gathered in front of the list. -/
private def EndsRunAfter (carried : Prop) (rs : List Region) (i : Nat) : Prop :=
  ¬ Meets rs i ∧ ((carried ∧ ∀ k < i, Meets rs k) ∨
    ∃ j < i, (∀ k, j ≤ k → k < i → Meets rs k) ∧ ∃ r, rs[j]? = some r ∧ 0 < r.size)

private theorem endsRunAfter_false : EndsRunAfter False rs i ↔ EndsRun rs i := by
  simp [EndsRunAfter, EndsRun]

private theorem endsRunAfter_zero {carried : Prop} :
    EndsRunAfter carried rs 0 ↔ ¬ Meets rs 0 ∧ carried := by
  simp [EndsRunAfter]

/-- Behind the first place a run may have begun in front of it, or at it. -/
private theorem endsRunAfter_succ {carried : Prop} : EndsRunAfter carried (r :: rs) (i + 1) ↔
    EndsRunAfter (Meets (r :: rs) 0 ∧ (carried ∨ 0 < r.size)) rs i := by
  -- A run that ends later may have begun at the first place, in front of it, or behind it.
  refine and_congr (not_congr meets_cons) ⟨?_, ?_⟩
  · rintro (⟨given, all⟩ | ⟨j, less, run, first, at_j, size⟩)
    · exact Or.inl ⟨⟨all 0 (by omega), Or.inl given⟩, fun k below =>
        meets_cons.mp (all (k + 1) (by omega))⟩
    · cases j with
      | zero =>
        obtain rfl : r = first := by simpa using at_j
        exact Or.inl ⟨⟨run 0 (by omega) (by omega), Or.inr size⟩, fun k below =>
          meets_cons.mp (run (k + 1) (by omega) (by omega))⟩
      | succ j =>
        refine Or.inr ⟨j, by omega, fun k above below =>
          meets_cons.mp (run (k + 1) (by omega) (by omega)), first, by simpa using at_j, size⟩
  · rintro (⟨⟨start, given⟩, all⟩ | ⟨j, less, run, first, at_j, size⟩)
    · have run : ∀ k < i + 1, Meets (r :: rs) k := by
        intro k below
        cases k with
        | zero => exact start
        | succ k => exact meets_cons.mpr (all k (by omega))
      rcases given with given | size
      · exact Or.inl ⟨given, run⟩
      · exact Or.inr ⟨0, by omega, fun k _ below => run k below, r, rfl, size⟩
    · refine Or.inr ⟨j + 1, by omega, fun k above below => ?_, first, by simpa using at_j, size⟩
      obtain ⟨k, rfl⟩ : ∃ m, k = m + 1 := ⟨k - 1, by omega⟩
      exact meets_cons.mpr (run k (by omega) (by omega))

/-- The addresses that a list reaches when something may have been gathered in front of it. -/
private def ReachedAfter (carried : Prop) (rs : List Region) (address : Nat) : Prop :=
  ∃ i r, rs[i]? = some r ∧ ¬ EndsRunAfter carried rs i ∧ r.Holds address

private theorem reachedAfter_cons {carried : Prop} : ReachedAfter carried (r :: rs) address ↔
    ((Meets (r :: rs) 0 ∨ ¬ carried) ∧ r.Holds address) ∨
      ReachedAfter (Meets (r :: rs) 0 ∧ (carried ∨ 0 < r.size)) rs address := by
  -- The place that holds the address is the first one or one behind it.
  constructor
  · rintro ⟨i, found, at_i, sent, holds⟩
    cases i with
    | zero =>
      obtain rfl : r = found := by simpa using at_i
      rw [endsRunAfter_zero] at sent
      exact Or.inl ⟨by tauto, holds⟩
    | succ i =>
      exact Or.inr ⟨i, found, by simpa using at_i, fun ends => sent (endsRunAfter_succ.mpr ends),
        holds⟩
  · rintro (⟨sent, holds⟩ | ⟨i, found, at_i, sent, holds⟩)
    · exact ⟨0, r, rfl, fun ends => by have := endsRunAfter_zero.mp ends; tauto, holds⟩
    · exact ⟨i + 1, found, by simpa using at_i, fun ends => sent (endsRunAfter_succ.mp ends), holds⟩

private theorem reachedAfter_congr {a b : Prop} (same : a ↔ b) :
    ReachedAfter a rs address ↔ ReachedAfter b rs address := by
  rw [propext same]

private theorem covers_gather_after
    (meet : 0 < held.size → ∀ r ∈ rs.head?, r.start = held.start + held.size) :
    Covers (gather held rs) address ↔
      (rs ≠ [] ∧ held.Holds address) ∨ ReachedAfter (0 < held.size) rs address := by
  -- The induction follows the pass, with all that has been gathered so far.
  induction rs generalizing held with
  | nil => simp [gather, Covers, ReachedAfter]
  | cons r rest ih =>
    have here : 0 < held.size → r.start = held.start + held.size := by simpa using meet
    have empty : held.size = 0 → ¬ held.Holds address := by
      simp only [Holds]
      omega
    rw [reachedAfter_cons]
    cases rest with
    | nil =>
      have last : ¬ Meets [r] 0 := by simp [Meets]
      simp only [gather, covers_cons, covers_nil, last, ReachedAfter, List.getElem?_nil]
      split <;> simp_all
    | cons next rest =>
      by_cases joined : next.start = r.start + r.size
      · have start : Meets (r :: next :: rest) 0 := ⟨r, next, rfl, rfl, joined⟩
        have carried : 0 < held.size + r.size ↔ 0 < held.size ∨ 0 < r.size := by omega
        rw [gather, if_pos joined, ih, holds_join here, reachedAfter_congr carried]
        · simp [start, or_assoc]
        · intro _ found is
          obtain rfl : next = found := by simpa using is
          simp only
          split
          · have := here ‹_›
            omega
          · omega
      · have start : ¬ Meets (r :: next :: rest) 0 := by
          simpa [Meets] using joined
        rw [gather, if_neg joined, covers_cons, ih (by simp),
          reachedAfter_congr (b := False) (by simp)]
        have nothing : ¬ Holds ⟨0, 0⟩ address := by simp [Holds]
        simp only [start, nothing]
        split <;> simp_all

/-- A pass hands on just what the regions hold that do not end a run. -/
theorem covers_gather : Covers (gather ⟨0, 0⟩ rs) address ↔ Reached rs address := by
  have nothing : ¬ Holds ⟨0, 0⟩ address := by simp [Holds]
  rw [covers_gather_after (by simp), reachedAfter_congr (b := False) (by simp)]
  simp [nothing, ReachedAfter, Reached, endsRunAfter_false]

end Region
