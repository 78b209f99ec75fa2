import Mathlib.Algebra.Order.Ring.Int
import Mathlib.Algebra.Order.Ring.Nat
import Mathlib.Data.List.Basic

/-! Chains of nodes that are linked both ways by two functions of a node. -/

namespace Chain

variable {α : Type*}

/-- Each node leads to the one behind it and back, from a node in front of the first to one behind. -/
def Linked (next prev : α → α) : α → List α → α → Prop
  | _, [], _ => True
  | before, x :: rest, after =>
    prev x = before ∧ next x = rest.headD after ∧ Linked next prev x rest after

variable {next prev next' prev' : α → α} {before after y : α} {xs ys : List α}

/-- The first node of a joined chain is that of its front part, if it has one. -/
theorem headD_append : (xs ++ ys).headD after = xs.headD (ys.headD after) := by
  cases xs <;> rfl

/-- Two chains are one when each leads to the other at the seam. -/
theorem linked_append : Linked next prev before (xs ++ ys) after ↔
    Linked next prev before xs (ys.headD after) ∧
      Linked next prev (xs.getLastD before) ys after := by
  induction xs generalizing before with
  | nil => simp [Linked]
  | cons x xs ih =>
    rw [List.cons_append, Linked, Linked, ih, headD_append, List.getLastD_cons]
    simp only [and_assoc]

/-- A chain stays one when the links of its nodes do. -/
theorem Linked.congr (linked : Linked next prev before xs after)
    (forward : ∀ x ∈ xs, next' x = next x) (back : ∀ x ∈ xs, prev' x = prev x) :
    Linked next' prev' before xs after := by
  -- The induction is on the nodes, each with its two links.
  induction xs generalizing before with
  | nil => trivial
  | cons x xs ih =>
    obtain ⟨left, right, rest⟩ := linked
    exact ⟨(back x (by simp)).trans left, (forward x (by simp)).trans right,
      ih rest (fun y member => forward y (by simp [member]))
        (fun y member => back y (by simp [member]))⟩

/-- A chain gets another node in front of it when its first node is linked to that one. -/
theorem Linked.reseat (linked : Linked next prev before xs after)
    (forward : ∀ x ∈ xs, next' x = next x) (seat : ∀ x ∈ xs.head?, prev' x = y)
    (back : ∀ x ∈ xs.tail, prev' x = prev x) : Linked next' prev' y xs after := by
  cases xs with
  | nil => trivial
  | cons x xs =>
    obtain ⟨_, right, rest⟩ := linked
    exact ⟨seat x rfl, (forward x (by simp)).trans right,
      rest.congr (fun y member => forward y (by simp [member])) back⟩

end Chain
