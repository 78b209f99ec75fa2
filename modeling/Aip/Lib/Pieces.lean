import Mathlib.Algebra.Order.Ring.Int
import Mathlib.Algebra.Order.Ring.Nat
import Mathlib.Data.Multiset.Bind

/-! Stretches handled in pieces, one piece behind the other, and loops that change places. -/

namespace Pieces

variable {α β γ : Type*} {size : Nat → Nat} {n : Nat}

/-- Pieces that begin where the one before ends make up the whole. -/
theorem flatMap_pieces (f : Nat → α) (start : Nat → Nat) (first : start 0 = 0)
    (next : ∀ k < n, start (k + 1) = start k + size k) :
    ((List.range n).flatMap fun k => (List.range (size k)).map fun j => f (start k + j)) =
      (List.range (start n)).map f := by
  induction n with
  | zero => simp [first]
  | succ n ih =>
    -- The last piece goes behind the whole of the pieces before it.
    rw [List.range_succ, List.flatMap_append, List.flatMap_singleton,
      ih fun k below => next k (by omega), next n (by omega), List.range_add, List.map_append,
      List.map_map]
    rfl

/-- Of two loops, one inside the other, either may be the outer one. -/
theorem flatMap_perm (f : α → β → List γ) (xs : List α) (ys : List β) :
    (xs.flatMap fun x => ys.flatMap (f x)).Perm (ys.flatMap fun y => xs.flatMap fun x => f x y) := by
  refine Multiset.coe_eq_coe.mp ?_
  simp only [← Multiset.coe_bind]
  exact Multiset.bind_bind _ _

/-- In rows of one length, the row and the place in it tell where an element is. -/
theorem getElem?_rows {m i j : Nat} (row : i < n) (column : j < m) (f : Nat → Nat → α) :
    ((List.range n).flatMap fun i => (List.range m).map (f i))[i * m + j]? = some (f i j) := by
  have length : ∀ n, ((List.range n).flatMap fun i => (List.range m).map (f i)).length = n * m := by
    intro n
    simp [List.length_flatMap]
  induction n with
  | zero => exact absurd row i.not_lt_zero
  | succ n ih =>
    rw [List.range_succ, List.flatMap_append, List.flatMap_singleton]
    rcases Nat.lt_succ_iff_lt_or_eq.mp row with earlier | rfl
    · -- The rows in front of the last one are those of the induction.
      have behind := Nat.mul_le_mul_right m (show i + 1 ≤ n from earlier)
      rw [Nat.succ_mul] at behind
      rw [List.getElem?_append_left (by rw [length]; omega)]
      exact ih earlier
    · rw [List.getElem?_append_right (by rw [length]; omega), length, Nat.add_sub_cancel_left]
      simp [column]

end Pieces
