import Mathlib.Algebra.Order.Ring.Int
import Mathlib.Algebra.Order.Ring.Nat
import Mathlib.Data.Rat.Floor
import Mathlib.Tactic.Linarith

/-! Rational numbers made integers, as the C language does it. -/

namespace Rounding

/-- A number without its fraction, as a conversion to an integer type takes it. -/
def truncate (x : ℚ) : Int := if 0 ≤ x then ⌊x⌋ else ⌈x⌉

/-- The nearest integer; of two it is the one farther from zero. -/
def nearest (x : ℚ) : Int := if 0 ≤ x then truncate (x + 1 / 2) else truncate (x - 1 / 2)

/-- The nearest integer is no more than a half away. -/
theorem abs_sub_nearest (x : ℚ) : |x - nearest x| ≤ 1 / 2 := by
  -- On either side of zero the half is added before the fraction is cut off.
  rw [abs_le]
  by_cases positive : 0 ≤ x
  · -- From zero up the floor of `x + 1/2` is meant.
    have half : 0 ≤ x + 1 / 2 := by linarith
    simp only [nearest, truncate, if_pos positive, if_pos half]
    have low := Int.floor_le (x + 1 / 2)
    have high := Int.lt_floor_add_one (x + 1 / 2)
    constructor <;> linarith
  · have half : ¬ 0 ≤ x - 1 / 2 := by linarith
    simp only [nearest, truncate, if_neg positive, if_neg half]
    have low := Int.le_ceil (x - 1 / 2)
    have high := Int.ceil_lt_add_one (x - 1 / 2)
    constructor <;> linarith

/-- An integer is its own nearest one. -/
theorem nearest_intCast (n : Int) : nearest n = n := by
  have near := abs_sub_nearest n
  -- Two integers less than one apart are equal.
  have whole : |n - nearest n| < 1 := by
    have line : ((|n - nearest n| : Int) : ℚ) < 1 := by
      push_cast
      linarith
    exact_mod_cast line
  have equal := Int.abs_lt_one_iff.mp whole
  omega

/-- What is not negative is not rounded below zero. -/
theorem nearest_nonneg {x : ℚ} (positive : 0 ≤ x) : 0 ≤ nearest x := by
  have half : 0 ≤ x + 1 / 2 := by linarith
  simp only [nearest, truncate, if_pos positive, if_pos half]
  exact Int.floor_nonneg.mpr half

/-- Along a line with rounded slope and start, the error grows by a half with each step. -/
theorem abs_nearest_mul_add (a b : ℚ) {z : Int} (positive : 0 ≤ z) :
    |((nearest a * z + nearest b : Int) : ℚ) - (a * z + b)| ≤ (z + 1) / 2 := by
  have steps : (0 : ℚ) ≤ z := by exact_mod_cast positive
  have slope := mul_le_mul_of_nonneg_right (abs_sub_nearest a) steps
  have start := abs_sub_nearest b
  have split : ((nearest a * z + nearest b : Int) : ℚ) - (a * z + b) =
      -((a - nearest a) * z) - (b - nearest b) := by
    push_cast
    ring
  rw [split]
  -- The error of the slope counts once for each step, and that of the start once.
  calc |-((a - nearest a) * z) - (b - nearest b)|
      ≤ |-((a - nearest a) * z)| + |b - nearest b| := abs_sub _ _
    _ = |a - nearest a| * z + |b - nearest b| := by rw [abs_neg, abs_mul, abs_of_nonneg steps]
    _ ≤ (z + 1) / 2 := by linarith

/-- An integer has no fraction. -/
theorem truncate_intCast (n : Int) : truncate n = n := by
  simp only [truncate, Int.floor_intCast, Int.ceil_intCast, ite_self]

/-- A quotient of natural numbers is truncated by the division of natural numbers. -/
theorem truncate_natDiv (n d : Nat) : truncate ((n : ℚ) / d) = (n / d : Nat) := by
  have positive : (0 : ℚ) ≤ (n : ℚ) / d := div_nonneg (Nat.cast_nonneg n) (Nat.cast_nonneg d)
  rw [truncate, if_pos positive, Rat.floor_natCast_div_natCast]
  rfl

/-- A number up to an integer is truncated to no more than that. -/
theorem truncate_le {x : ℚ} {n : Int} (below : x ≤ n) : truncate x ≤ n := by
  simp only [truncate]
  split
  · exact_mod_cast (Int.floor_le x).trans below
  · exact Int.ceil_le.mpr below

/-- Truncating takes less than one away. -/
theorem lt_truncate_add_one (x : ℚ) : x < truncate x + 1 := by
  simp only [truncate]
  split
  · exact Int.lt_floor_add_one x
  · have above := Int.le_ceil x
    linarith

/-- Truncating brings a number closer to zero. -/
theorem truncate_bounds {x : ℚ} {low high : Int} (negative : low ≤ 0) (positive : 0 ≤ high)
    (above : (low : ℚ) ≤ x) (below : x ≤ high) : low ≤ truncate x ∧ truncate x ≤ high := by
  -- Each side of zero uses one of the bounds, and zero itself is within the other.
  simp only [truncate]
  split
  case isTrue side =>
    refine ⟨negative.trans (Int.floor_nonneg.mpr side), ?_⟩
    exact_mod_cast (Int.floor_le x).trans below
  case isFalse side =>
    refine ⟨?_, le_trans (Int.ceil_le.mpr ?_) positive⟩
    · exact_mod_cast above.trans (Int.le_ceil x)
    · exact_mod_cast (not_le.mp side).le

/-- Quotients in order are truncated in order, here for positive denominators. -/
theorem tdiv_le_tdiv_of_pos {a b c d : Int} (left : 0 < b) (right : 0 < d) (cross : a * d ≤ c * b) :
    a.tdiv b ≤ c.tdiv d := by
  -- A numerator below zero is truncated upwards, as its negation is downwards.
  have positive : ∀ {a b c d : Int}, 0 < b → 0 < d → 0 ≤ a → 0 ≤ c → a * d ≤ c * b →
      a.tdiv b ≤ c.tdiv d := by
    intro a b c d left right first second cross
    rw [Int.tdiv_eq_ediv_of_nonneg first, Int.tdiv_eq_ediv_of_nonneg second,
      Int.le_ediv_iff_mul_le right]
    have part : a / b * b ≤ a := Int.ediv_mul_le a left.ne'
    have whole : a / b * d * b ≤ c * b := by nlinarith
    exact le_of_mul_le_mul_right whole left
  rcases le_or_gt 0 a with first | first
  · have second : 0 ≤ c := by
      by_contra negative
      nlinarith
    exact positive left right first second cross
  · rcases le_or_gt 0 c with second | second
    · have low := Int.tdiv_nonneg (neg_nonneg.mpr first.le) left.le
      rw [Int.neg_tdiv] at low
      exact (neg_nonneg.mp low).trans (Int.tdiv_nonneg second right.le)
    · have turned := positive right left (neg_nonneg.mpr second.le) (neg_nonneg.mpr first.le)
        (by linarith)
      rw [Int.neg_tdiv, Int.neg_tdiv] at turned
      linarith

/-- Quotients in order are truncated in order, whatever signs their denominators have. -/
theorem tdiv_le_tdiv {a b c d : Int} (left : b ≠ 0) (right : d ≠ 0)
    (cross : 0 ≤ (c * b - a * d) * (b * d)) : a.tdiv b ≤ c.tdiv d := by
  -- A negative denominator is turned into a positive one, with its numerator.
  rcases lt_or_gt_of_ne left with first | first <;> rcases lt_or_gt_of_ne right with second | second
  · rw [← Int.neg_tdiv_neg a b, ← Int.neg_tdiv_neg c d]
    apply tdiv_le_tdiv_of_pos (by omega) (by omega)
    have product := mul_pos_of_neg_of_neg first second
    nlinarith
  · rw [← Int.neg_tdiv_neg a b]
    apply tdiv_le_tdiv_of_pos (by omega) second
    have product := mul_neg_of_neg_of_pos first second
    nlinarith
  · rw [← Int.neg_tdiv_neg c d]
    apply tdiv_le_tdiv_of_pos first (by omega)
    have product := mul_neg_of_pos_of_neg first second
    nlinarith
  · apply tdiv_le_tdiv_of_pos first second
    have product := mul_pos first second
    nlinarith

end Rounding
