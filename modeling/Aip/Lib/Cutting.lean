import Mathlib.Algebra.Order.Ring.Int
import Mathlib.Algebra.Order.Ring.Nat
import Mathlib.Tactic.Ring

/-! A side cut into pieces of a limited length, of which the last one takes the rest. -/

namespace Cutting

/-- The number of pieces. -/
def count (size limit : Int) : Nat := ((size + limit - 1) / limit).toNat

/-- The length of a piece. -/
def side (size limit : Int) (i : Nat) : Int :=
  if i = count size limit - 1 then (size - 1) % limit + 1 else limit

variable {size limit z : Int} {i : Nat}

/-- A side has one piece more than the limit goes into what is in front of its last place. -/
theorem count_eq (positive : 0 < limit) (nonempty : 1 ≤ size) :
    (count size limit : Int) = (size - 1) / limit + 1 := by
  have one : size + limit - 1 = size - 1 + limit := by ring
  have quotient : 0 ≤ (size - 1) / limit := Int.ediv_nonneg (by omega) positive.le
  rw [count, one, Int.add_ediv_of_dvd_right (dvd_refl limit), Int.ediv_self (by omega)]
  omega

/-- Only a side that is not empty has pieces. -/
theorem nonempty_of_piece (positive : 0 < limit) (within : i < count size limit) : 1 ≤ size := by
  -- The quotient is positive, so the sum holds the limit once at least.
  have some : 1 ≤ (size + limit - 1) / limit := by
    unfold count at within
    omega
  have whole := (Int.le_ediv_iff_mul_le positive).mp some
  omega

/-- A piece has a length up to the limit and ends within the side. -/
theorem side_within (positive : 0 < limit) (within : i < count size limit) :
    (1 ≤ side size limit i ∧ side size limit i ≤ limit) ∧
      i * limit + side size limit i ≤ size := by
  have nonempty := nonempty_of_piece positive within
  have number := count_eq positive nonempty
  have split := Int.ediv_mul_add_emod (size - 1) limit
  have low := Int.emod_nonneg (size - 1) (show limit ≠ 0 by omega)
  have high := Int.emod_lt_of_pos (size - 1) positive
  unfold side
  by_cases last : i = count size limit - 1
  · -- The last piece is as long as the rest.
    have index : (i : Int) = (size - 1) / limit := by omega
    rw [if_pos last, index]
    omega
  · -- Any other one ends where a later one begins.
    have earlier : (i : Int) + 1 ≤ (size - 1) / limit := by omega
    have behind := mul_le_mul_of_nonneg_right earlier positive.le
    rw [add_mul, one_mul] at behind
    rw [if_neg last]
    omega

/-- Every place of a side is in the piece that its quotient names. -/
theorem side_reaches (positive : 0 < limit) (lower : 0 ≤ z) (upper : z < size) :
    (z / limit).toNat < count size limit ∧
      z < z / limit * limit + side size limit (z / limit).toNat := by
  have number := count_eq positive (show 1 ≤ size by omega)
  have quotient : 0 ≤ z / limit := Int.ediv_nonneg lower positive.le
  have below : z / limit ≤ (size - 1) / limit := Int.ediv_le_ediv positive (by omega)
  have place := Int.ediv_mul_add_emod z limit
  have rest := Int.emod_lt_of_pos z positive
  refine ⟨by omega, ?_⟩
  unfold side
  split
  · -- In the last piece the place is in front of the end of the side.
    rename_i last
    have same : z / limit = (size - 1) / limit := by omega
    have split := Int.ediv_mul_add_emod (size - 1) limit
    rw [same]
    omega
  · omega

/-- A place in a piece names the piece by its quotient. -/
theorem side_named (positive : 0 < limit) (within : i < count size limit)
    (inside : i * limit ≤ z ∧ z < i * limit + side size limit i) : z / limit = i := by
  -- The place is behind the start of the piece, and in front of that of the next one.
  have length := (side_within positive within).1
  apply le_antisymm
  · apply Int.lt_add_one_iff.mp
    apply (Int.ediv_lt_iff_lt_mul positive).mpr
    rw [add_mul, one_mul]
    omega
  · exact (Int.le_ediv_iff_mul_le positive).mpr inside.1

end Cutting
