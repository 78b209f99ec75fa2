import Mathlib.Algebra.Order.Ring.Int
import Mathlib.Algebra.Order.Ring.Nat
import Mathlib.Data.List.Basic

/-! Loops over a list that give one result for each element and hand a state on. -/

namespace Loop

variable {σ α β : Type*} (step : σ → α → β × σ)

/-- The results of a loop and the state behind it. -/
def run : σ → List α → List β × σ
  | s, [] => ([], s)
  | s, a :: as =>
    let here := step s a
    let later := run here.2 as
    (here.1 :: later.1, later.2)

variable {step} {I : σ → Prop} {s : σ}

/-- A loop gives one result for each element. -/
theorem run_length {as : List α} : (run step s as).1.length = as.length := by
  induction as generalizing s with
  | nil => rfl
  | cons a as ih => exact congrArg Nat.succ ih

/-- Every result of a loop is that of a step. -/
theorem mem_run {as : List α} {b : β} (member : b ∈ (run step s as).1) :
    ∃ now a, a ∈ as ∧ (step now a).1 = b := by
  induction as generalizing s with
  | nil => cases member
  | cons a as ih =>
    rcases List.mem_cons.mp member with rfl | later
    · exact ⟨s, a, List.mem_cons_self, rfl⟩
    · obtain ⟨now, other, listed, same⟩ := ih later
      exact ⟨now, other, List.mem_cons_of_mem a listed, same⟩

/-- What a projection shows of the results is a map when each step shows a function of its element. -/
theorem run_map {γ : Type*} {view : β → γ} {f : α → γ} {as : List α}
    (same : ∀ a ∈ as, ∀ s, I s → view (step s a).1 = f a ∧ I (step s a).2)
    (start : I s) : (run step s as).1.map view = as.map f ∧ I (run step s as).2 := by
  -- The invariant is handed on together with the state.
  induction as generalizing s with
  | nil => exact ⟨rfl, start⟩
  | cons a as ih =>
    obtain ⟨here, kept⟩ := same a List.mem_cons_self s start
    obtain ⟨later, last⟩ := ih (fun b member => same b (List.mem_cons_of_mem a member)) kept
    exact ⟨congrArg₂ List.cons here later, last⟩

/-- A loop whose results do not depend on what it hands on is a map. -/
theorem run_eq_map {f : α → β} {as : List α}
    (same : ∀ a ∈ as, ∀ s, I s → (step s a).1 = f a ∧ I (step s a).2)
    (start : I s) : (run step s as).1 = as.map f := by
  have whole : (run step s as).1.map id = as.map f := (run_map same start).1
  rwa [List.map_id] at whole

/-- What every step sets to a function of its element is behind the loop that of the last one. -/
theorem run_last {γ : Type*} (get : σ → γ) (g : α → γ)
    (sets : ∀ s a, I s → get (step s a).2 = g a ∧ I (step s a).2) (start : I s) (first : α)
    (as : List α) :
    get (run step s (first :: as)).2 = g ((first :: as).getLast (by simp)) := by
  induction as generalizing s first with
  | nil => exact (sets s first start).1
  | cons a as ih =>
    rw [List.getLast_cons (List.cons_ne_nil a as)]
    exact ih (sets s first start).2 a

end Loop
