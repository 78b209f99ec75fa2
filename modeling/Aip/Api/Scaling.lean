import Aip.Lib.Rounding
import Mathlib.Tactic.FieldSimp
import Mathlib.Tactic.Ring

/-! The scaling words of the two resize front ends, in exact arithmetic. -/

namespace Aip.Scaling

open Rounding

/-- The words of one axis, `scale_x` and `trans_x` for the first one. -/
structure Axis where
  scale : Int
  trans : Int
  deriving DecidableEq, Repr

/-- The conversion `(uint32_t)`, and a product of `uint32_t`s. -/
def uint32 (x : Int) : Int := x % 2 ^ 32

/-- The conversion `(int32_t)`, and a sum of `int32_t`s. -/
def int32 (x : Int) : Int := x.bmod (2 ^ 32)

/-- The words that `iaic_resize` writes; its ratio is a variable of type `uint32_t`. -/
def iaicResize (src dst : Nat) : Axis :=
  let scale := uint32 (truncate ((src : ℚ) / dst))
  { scale := uint32 (scale * 65536)
    trans := int32 (int32 (truncate (((scale : ℚ) * (1 / 2) - 1 / 2) * 65536)) + 16) }

/-- The node of `ingenic_aip_resize_process`; its ratio is a `float`. -/
def resizeProcess (src dst : Nat) : Axis :=
  let scale := (src : ℚ) / dst
  { scale := uint32 (truncate (scale * 65536))
    trans := int32 (truncate ((scale * (1 / 2) - 1 / 2) * 65536)) }

/-- `aip_f_config_nodes`, which writes the same words to the registers and to a descriptor. -/
def configNode (node : Axis) : Axis := { scale := node.scale, trans := int32 (node.trans + 16) }

/-- The formula that the two are meant to compute. -/
def formula (src dst : Nat) : Axis where
  scale := ⌊(src : ℚ) * 65536 / dst⌋
  trans := truncate (((src : ℚ) / dst * (1 / 2) - 1 / 2) * 65536) + 16

/-- A box and its destination, with sides that the registers have bits for. -/
structure Box where
  srcW : Nat
  srcH : Nat
  dstW : Nat
  dstH : Nat
  srcW_range : 1 ≤ srcW ∧ srcW ≤ 65535
  srcH_range : 1 ≤ srcH ∧ srcH ≤ 65535
  dstW_range : 1 ≤ dstW ∧ dstW ≤ 65535
  dstH_range : 1 ≤ dstH ∧ dstH ≤ 65535

/-- Both front ends write the words of the formula, on both axes. -/
def SameScaling (box : Box) : Prop :=
  (iaicResize box.srcW box.dstW = formula box.srcW box.dstW ∧
    iaicResize box.srcH box.dstH = formula box.srcH box.dstH) ∧
  (configNode (resizeProcess box.srcW box.dstW) = formula box.srcW box.dstW ∧
    configNode (resizeProcess box.srcH box.dstH) = formula box.srcH box.dstH)

variable {src dst : Nat}

/-- A number in range is left alone by a conversion to `uint32_t`. -/
theorem uint32_eq {x : Int} (low : 0 ≤ x) (high : x < 2 ^ 32) : uint32 x = x :=
  Int.emod_eq_of_lt low high

/-- A number in range is left alone by a conversion to `int32_t`. -/
theorem int32_eq {x : Int} (low : -2 ^ 31 ≤ x) (high : x < 2 ^ 31) : int32 x = x :=
  Int.bmod_eq_of_le (by omega) (by omega)

/-- The translation of a ratio up to 65535 is far from the ends of an `int32_t`. -/
theorem trans_bounds {scale : ℚ} (low : 0 ≤ scale) (high : scale ≤ 65535) :
    -32768 ≤ truncate ((scale * (1 / 2) - 1 / 2) * 65536) ∧
      truncate ((scale * (1 / 2) - 1 / 2) * 65536) ≤ 2147418112 := by
  -- The ratio is halved, so the number stays below 2 ^ 31.
  refine truncate_bounds (by decide) (by decide) ?_ ?_
  · push_cast
    linarith
  · push_cast
    linarith

/-- A ratio of sides is between 0 and 65535. -/
theorem ratio_bounds (srcRange : src ≤ 65535) (dstRange : 1 ≤ dst) :
    (0 : ℚ) ≤ (src : ℚ) / dst ∧ (src : ℚ) / dst ≤ 65535 := by
  -- The divisor is at least one.
  have positive : (0 : ℚ) < dst := by exact_mod_cast dstRange
  refine ⟨div_nonneg (Nat.cast_nonneg src) positive.le, ?_⟩
  rw [div_le_iff₀ positive]
  have one : (1 : ℚ) ≤ dst := by exact_mod_cast dstRange
  have side : (src : ℚ) ≤ 65535 := by exact_mod_cast srcRange
  linarith

/-- The float path computes the formula, whatever the sides. -/
theorem configNode_resizeProcess (srcRange : src ≤ 65535) (dstRange : 1 ≤ dst) :
    configNode (resizeProcess src dst) = formula src dst := by
  obtain ⟨low, high⟩ := ratio_bounds srcRange dstRange
  obtain ⟨transLow, transHigh⟩ := trans_bounds low high
  -- No conversion on the way wraps.
  have scale : truncate ((src : ℚ) / dst * 65536) = ⌊(src : ℚ) * 65536 / dst⌋ := by
    rw [truncate, if_pos (mul_nonneg low (by norm_num)), div_mul_eq_mul_div]
  have bounds : 0 ≤ truncate ((src : ℚ) / dst * 65536) ∧
      truncate ((src : ℚ) / dst * 65536) ≤ 65535 * 65536 := by
    refine truncate_bounds (by decide) (by decide) ?_ ?_
    · push_cast
      linarith
    · push_cast
      linarith
  simp only [configNode, resizeProcess, formula, Axis.mk.injEq]
  refine ⟨?_, ?_⟩
  · rw [uint32_eq bounds.1 (by omega), scale]
  · rw [int32_eq (x := truncate _) (by omega) (by omega), int32_eq (by omega) (by omega)]

/-- The words of the integer path: those of the ratio without its fraction. -/
theorem iaicResize_eq (srcRange : src ≤ 65535) :
    iaicResize src dst =
      { scale := ((src / dst : Nat) : Int) * 65536
        trans := (((src / dst : Nat) : Int) - 1) * 32768 + 16 } := by
  have bound : src / dst ≤ 65535 := (Nat.div_le_self src dst).trans srcRange
  have whole : truncate ((src : ℚ) / dst) = (src / dst : Nat) := truncate_natDiv src dst
  generalize src / dst = ratio at bound whole
  -- The variable holds the quotient of the natural numbers.
  have stored : uint32 (truncate ((src : ℚ) / dst)) = (ratio : Int) := by
    rw [whole]
    exact uint32_eq (by omega) (by omega)
  have trans : truncate ((((ratio : Int) : ℚ) * (1 / 2) - 1 / 2) * 65536)
      = ((ratio : Int) - 1) * 32768 := by
    rw [← truncate_intCast (((ratio : Int) - 1) * 32768)]
    congr 1
    push_cast
    ring
  simp only [iaicResize, stored, trans, Axis.mk.injEq]
  refine ⟨uint32_eq (by omega) (by omega), ?_⟩
  have inner : int32 (((ratio : Int) - 1) * 32768) = ((ratio : Int) - 1) * 32768 :=
    int32_eq (by omega) (by omega)
  rw [inner]
  exact int32_eq (by omega) (by omega)

/-- The scale of the formula is a quotient of natural numbers. -/
theorem formula_scale (src dst : Nat) : (formula src dst).scale = (src * 65536 / dst : Nat) := by
  -- The floor of a quotient of natural numbers is their quotient.
  have cast : (src : ℚ) * 65536 / dst = ((src * 65536 : Nat) : ℚ) / dst := by
    push_cast
    rfl
  simp only [formula]
  rw [cast, Rat.floor_natCast_div_natCast]
  rfl

/-- A ratio with a fraction gives a scale with one, since no side reaches 65536. -/
theorem dvd_of_scale (dstRange : 1 ≤ dst ∧ dst ≤ 65535)
    (same : src / dst * 65536 = src * 65536 / dst) : dst ∣ src := by
  -- Otherwise the remainder times 65536 would hold the divisor once more.
  have split : src * 65536 = dst * (src / dst * 65536) + src % dst * 65536 := by
    conv_lhs => rw [← Nat.div_add_mod src dst]
    ring
  have below : src * 65536 < dst * (src * 65536 / dst) + dst := Nat.lt_mul_div_succ _ dstRange.1
  rw [← same] at below
  exact Nat.dvd_of_mod_eq_zero (by omega)

/-- On one axis the integer path computes the formula exactly for a whole ratio. -/
theorem iaicResize_iff (srcRange : src ≤ 65535) (dstRange : 1 ≤ dst ∧ dst ≤ 65535) :
    iaicResize src dst = formula src dst ↔ dst ∣ src := by
  rw [iaicResize_eq srcRange]
  constructor
  · intro same
    have scale : ((src / dst : Nat) : Int) * 65536 = (src * 65536 / dst : Nat) := by
      rw [← formula_scale]
      exact congrArg Axis.scale same
    apply dvd_of_scale dstRange
    exact_mod_cast scale
  · rintro ⟨ratio, rfl⟩
    -- The quotient is the ratio, in the naturals and in the rationals.
    have positive : (dst : ℚ) ≠ 0 := by
      have : dst ≠ 0 := by omega
      exact_mod_cast this
    have quotient : ((dst * ratio : Nat) : ℚ) / dst = ratio := by
      push_cast
      field_simp
    have trans : truncate (((ratio : ℚ) * (1 / 2) - 1 / 2) * 65536)
        = ((ratio : Int) - 1) * 32768 := by
      rw [← truncate_intCast (((ratio : Int) - 1) * 32768)]
      congr 1
      push_cast
      ring
    have scale : ⌊((dst * ratio : Nat) : ℚ) * 65536 / dst⌋ = (ratio : Int) * 65536 := by
      rw [mul_div_right_comm, quotient]
      have cast : (ratio : ℚ) * 65536 = (((ratio : Int) * 65536 : Int) : ℚ) := by push_cast; rfl
      rw [cast, Int.floor_intCast]
    simp only [formula, scale, quotient, trans, Nat.mul_div_cancel_left ratio dstRange.1]

/-- The two front ends write the words of the formula exactly for boxes of whole ratios. -/
theorem sameScaling_iff (box : Box) :
    SameScaling box ↔ box.dstW ∣ box.srcW ∧ box.dstH ∣ box.srcH := by
  -- The float path is right on both axes, so the integer path decides.
  have width := configNode_resizeProcess box.srcW_range.2 box.dstW_range.1
  have height := configNode_resizeProcess box.srcH_range.2 box.dstH_range.1
  rw [SameScaling, iaicResize_iff box.srcW_range.2 box.dstW_range,
    iaicResize_iff box.srcH_range.2 box.dstH_range]
  exact and_iff_left ⟨width, height⟩

/-- Three pixels made two: the integer path has lost the half of the ratio. -/
theorem not_sameScaling_shrink : ¬ ∀ box : Box, SameScaling box := by
  -- 65536 is written for 98304.
  intro every
  have same := every
    { srcW := 3, srcH := 4, dstW := 2, dstH := 2
      srcW_range := by decide, srcH_range := by decide
      dstW_range := by decide, dstH_range := by decide }
  have lost : iaicResize 3 2 ≠ formula 3 2 := by decide +kernel
  exact lost same.1.1

end Aip.Scaling
