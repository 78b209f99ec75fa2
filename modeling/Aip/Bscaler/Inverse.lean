import Mathlib.LinearAlgebra.Matrix.NonsingularInverse
import Mathlib.Tactic.FieldSimp
import Mathlib.Tactic.LinearCombination
import Aip.Bscaler.Common

/-! The three inversions of a transformation matrix, in exact arithmetic. -/

namespace Aip

open Bscaler (mscalex mskewx mtransx mskewy mscaley mtransy mpersp0 mpersp1 mpersp2)

/-- The nine entries of a matrix, row by row. -/
abbrev Entries (K : Type) := Fin 9 → K

namespace Entries

variable {K : Type} [Field K]

/-- The matrix that the entries are those of. -/
def toMatrix (m : Entries K) : Matrix (Fin 3) (Fin 3) K :=
  !![m 0, m 1, m 2; m 3, m 4, m 5; m 6, m 7, m 8]

/-- `scross`. -/
def scross (a b c d : K) : K := a * b - c * d

/-- `scross_dscale`. -/
def scrossDscale (a b c d scale : K) : K := scross a b c d * scale

/-- `dcross`. -/
def dcross (a b c d : K) : K := a * b - c * d

/-- `dcross_dscale`. -/
def dcrossDscale (a b c d scale : K) : K := dcross a b c d * scale

/-- `compute_inv`. -/
def computeInv (src : Entries K) (invDet : K) (isPersp : Bool) : Entries K :=
  if isPersp then
    ![scrossDscale (src mscaley) (src mpersp2) (src mtransy) (src mpersp1) invDet,
      scrossDscale (src mtransx) (src mpersp1) (src mskewx) (src mpersp2) invDet,
      scrossDscale (src mskewx) (src mtransy) (src mtransx) (src mscaley) invDet,
      scrossDscale (src mtransy) (src mpersp0) (src mskewy) (src mpersp2) invDet,
      scrossDscale (src mscalex) (src mpersp2) (src mtransx) (src mpersp0) invDet,
      scrossDscale (src mtransx) (src mskewy) (src mscalex) (src mtransy) invDet,
      scrossDscale (src mskewy) (src mpersp1) (src mscaley) (src mpersp0) invDet,
      scrossDscale (src mskewx) (src mpersp0) (src mscalex) (src mpersp1) invDet,
      scrossDscale (src mscalex) (src mscaley) (src mskewx) (src mskewy) invDet]
  else
    ![src mscaley * invDet,
      -src mskewx * invDet,
      dcrossDscale (src mskewx) (src mtransy) (src mscaley) (src mtransx) invDet,
      -src mskewy * invDet,
      src mscalex * invDet,
      dcrossDscale (src mskewy) (src mtransx) (src mscalex) (src mtransy) invDet,
      0, 0, 1]

/-- `dst_m`, in `ingenic_aip_perspective_process`. -/
def perspectiveDstM [DecidableEq K] (matrix : Entries K) : Entries K :=
  let t0 := matrix 0 * (matrix 4 * matrix 8 - matrix 5 * matrix 7)
  let t1 := matrix 1 * (matrix 3 * matrix 8 - matrix 5 * matrix 6)
  let t2 := matrix 2 * (matrix 3 * matrix 7 - matrix 4 * matrix 6)
  let t3 := t0 - t1 + t2
  if t3 ≠ 0 then
    let inv := 1 / t3
    ![(matrix 4 * matrix 8 - matrix 5 * matrix 7) * inv,
      (matrix 2 * matrix 7 - matrix 1 * matrix 8) * inv,
      (matrix 1 * matrix 5 - matrix 2 * matrix 4) * inv,
      (matrix 5 * matrix 6 - matrix 3 * matrix 8) * inv,
      (matrix 0 * matrix 8 - matrix 2 * matrix 6) * inv,
      (matrix 2 * matrix 3 - matrix 0 * matrix 5) * inv,
      (matrix 3 * matrix 7 - matrix 4 * matrix 6) * inv,
      (matrix 1 * matrix 6 - matrix 0 * matrix 7) * inv,
      (matrix 0 * matrix 4 - matrix 1 * matrix 3) * inv]
  else fun _ => 0

/-- The transformation of the matrix in `ingenic_aip_affine_process`, one assignment at a time. -/
def affineTransformed [DecidableEq K] (matrix : Entries K) : Entries K :=
  let d := matrix 0 * matrix 4 - matrix 1 * matrix 3
  let d := if d ≠ 0 then 1 / d else 0
  let a11 := matrix 4 * d
  let a22 := matrix 0 * d
  let matrix := Function.update matrix 0 a11
  let matrix := Function.update matrix 1 (matrix 1 * -d)
  let matrix := Function.update matrix 3 (matrix 3 * -d)
  let matrix := Function.update matrix 4 a22
  -- From here on the four entries read are the new ones.
  let b1 := -matrix 0 * matrix 2 - matrix 1 * matrix 5
  let b2 := -matrix 3 * matrix 2 - matrix 4 * matrix 5
  let matrix := Function.update matrix 2 b1
  Function.update matrix 5 b2

/-- `IS_ONE`, as an exact test. -/
def isOne [DecidableEq K] (a : K) : Bool := a = 1

/-- `IS_ZERO`, as an exact test. -/
def isZero [DecidableEq K] (a : K) : Bool := a = 0

/-- The test for one is exact. -/
theorem isOne_iff [DecidableEq K] {a : K} : isOne a = true ↔ a = 1 := decide_eq_true_iff

/-- So is the test for zero. -/
theorem isZero_iff [DecidableEq K] {a : K} : isZero a = true ↔ a = 0 := decide_eq_true_iff

/-- `get_inverse_matrix`. -/
def getInverseMatrix [DecidableEq K] (matrix : Entries K) : Entries K :=
  let scaleXIsOne := isOne (matrix mscalex)
  let scaleYIsOne := isOne (matrix mscaley)
  let persp2IsOne := isOne (matrix mpersp2)
  let transXIsZero := isZero (matrix mtransx)
  let transYIsZero := isZero (matrix mtransy)
  let skewXIsZero := isZero (matrix mskewx)
  let skewYIsZero := isZero (matrix mskewy)
  let persp0IsZero := isZero (matrix mpersp0)
  let persp1IsZero := isZero (matrix mpersp1)
  let isIdentity := scaleXIsOne && scaleYIsOne && persp2IsOne && transXIsZero && transYIsZero &&
    skewXIsZero && skewYIsZero && persp0IsZero && persp1IsZero
  let isScaleTrans := skewXIsZero && skewYIsZero && persp2IsOne && persp0IsZero && persp1IsZero
  let isTranslateOnly := scaleXIsOne && scaleYIsOne && persp2IsOne && skewXIsZero &&
    skewYIsZero && persp0IsZero && persp1IsZero
  let isPerspective := !(persp0IsZero && persp1IsZero && persp2IsOne)
  if isIdentity then ![1, 0, 0, 0, 1, 0, 0, 0, 1]
  else if isScaleTrans then
    let scaleX := 1 / matrix mscalex
    let scaleY := 1 / matrix mscaley
    ![scaleX, 0, -matrix mtransx * scaleX, 0, scaleY, -matrix mtransy * scaleY, 0, 0, 1]
  else if isTranslateOnly then
    -- A matrix that only translates has been taken for a scaled one before.
    ![1, 0, -matrix mtransx, 0, 1, -matrix mtransy, 0, 0, 1]
  else if isPerspective then
    let t0 := matrix mscalex *
      dcross (matrix mscaley) (matrix mpersp2) (matrix mtransy) (matrix mpersp1)
    let t1 := matrix mskewx *
      dcross (matrix mtransy) (matrix mpersp0) (matrix mskewy) (matrix mpersp2)
    let t2 := matrix mtransx *
      dcross (matrix mskewy) (matrix mpersp1) (matrix mscaley) (matrix mpersp0)
    let t3 := t0 + t1
    let t4 := t3 + t2
    computeInv matrix (1 / t4) true
  else
    let t0 := dcross (matrix mscalex) (matrix mscaley) (matrix mskewx) (matrix mskewy)
    computeInv matrix (1 / t0) false

variable {m : Entries K}

/-- The determinant as the functions expand it. -/
theorem det_toMatrix (m : Entries K) : m.toMatrix.det =
    m 0 * (m 4 * m 8 - m 5 * m 7) - m 1 * (m 3 * m 8 - m 5 * m 6) +
      m 2 * (m 3 * m 7 - m 4 * m 6) := by
  rw [toMatrix, Matrix.det_fin_three]
  simp only [Matrix.of_apply, Matrix.cons_val]
  ring

variable [DecidableEq K]

/-- The cofactors over the determinant are the inverse. -/
theorem perspectiveDstM_toMatrix (invertible : m.toMatrix.det ≠ 0) :
    (perspectiveDstM m).toMatrix = m.toMatrix⁻¹ := by
  -- Both sides are the adjugate over the determinant, entry by entry.
  have nonzero := invertible
  rw [det_toMatrix] at nonzero
  rw [Matrix.inv_def, Ring.inverse_eq_inv', det_toMatrix]
  have adjugate : m.toMatrix.adjugate = _ := Matrix.adjugate_fin_three_of _ _ _ _ _ _ _ _ _
  rw [adjugate]
  simp only [perspectiveDstM, if_pos nonzero, toMatrix]
  -- The nine entries are the same products in another order.
  ext i j
  fin_cases i <;> fin_cases j <;> simp <;> ring

/-- What `compute_inv` gives for a matrix, whichever of its two tables is taken. -/
theorem computeInv_eq (invertible : m.toMatrix.det ≠ 0) :
    computeInv m (1 / m.toMatrix.det) true = perspectiveDstM m ∧
      (m 6 = 0 → m 7 = 0 → m 8 = 1 →
        computeInv m (1 / m.toMatrix.det) false = perspectiveDstM m) := by
  have nonzero := invertible
  rw [det_toMatrix] at nonzero
  simp only [perspectiveDstM, if_pos nonzero, det_toMatrix]
  constructor
  · rfl
  · -- With the last row of an affine matrix the cofactors become the short formulas.
    intro persp0 persp1 persp2
    have unit : (m 0 * m 4 - m 1 * m 3) * (1 / (m 0 * (m 4 * m 8 - m 5 * m 7) -
        m 1 * (m 3 * m 8 - m 5 * m 6) + m 2 * (m 3 * m 7 - m 4 * m 6))) = 1 := by
      -- The last row makes the determinant that of the upper block.
      have short : m 0 * m 4 - m 1 * m 3 = m 0 * (m 4 * m 8 - m 5 * m 7) -
          m 1 * (m 3 * m 8 - m 5 * m 6) + m 2 * (m 3 * m 7 - m 4 * m 6) := by
        rw [persp0, persp1, persp2]
        ring
      rw [short]
      exact mul_one_div_cancel nonzero
    generalize (1 / (m 0 * (m 4 * m 8 - m 5 * m 7) - m 1 * (m 3 * m 8 - m 5 * m 6) +
      m 2 * (m 3 * m 7 - m 4 * m 6))) = inv at unit ⊢
    simp only [computeInv, dcrossDscale, dcross, mscalex, mskewx, mtransx, mskewy, mscaley,
      mtransy, persp0, persp1, persp2, unit]
    funext i
    fin_cases i <;> simp [-mul_eq_mul_right_iff] <;> ring

omit [DecidableEq K] in
/-- The determinant as `get_inverse_matrix` expands it, for the two tables. -/
theorem det_eq_cross (m : Entries K) :
    m.toMatrix.det = m 0 * dcross (m 4) (m 8) (m 5) (m 7) + m 1 * dcross (m 5) (m 6) (m 3) (m 8) +
        m 2 * dcross (m 3) (m 7) (m 4) (m 6) ∧
      (m 6 = 0 → m 7 = 0 → m 8 = 1 → m.toMatrix.det = dcross (m 0) (m 4) (m 1) (m 3)) := by
  -- The code expands along the first row, and for a last row of 0, 0, 1 without the last column.
  constructor
  · rw [det_toMatrix]
    simp only [dcross]
    ring
  · intro persp0 persp1 persp2
    rw [det_toMatrix, persp0, persp1, persp2]
    simp only [dcross]
    ring

/-- A matrix that only scales and translates is inverted side by side. -/
theorem scaled_eq (invertible : m.toMatrix.det ≠ 0) (skewX : m 1 = 0) (skewY : m 3 = 0)
    (persp0 : m 6 = 0) (persp1 : m 7 = 0) (persp2 : m 8 = 1) :
    ![1 / m 0, 0, -m 2 * (1 / m 0), 0, 1 / m 4, -m 5 * (1 / m 4), 0, 0, 1] =
      perspectiveDstM m := by
  -- The table of the general branch, with the zeros put in.
  have table := (computeInv_eq invertible).2 persp0 persp1 persp2
  have det : m.toMatrix.det = m 0 * m 4 := by
    rw [det_toMatrix, skewX, persp0, persp1, persp2]
    ring
  rw [det] at table invertible
  -- Neither scale is zero, so that the divisions cancel.
  obtain ⟨scaleX, scaleY⟩ := mul_ne_zero_iff.mp invertible
  rw [← table]
  simp only [computeInv, dcrossDscale, dcross, mscalex, mskewx, mtransx, mskewy, mscaley, mtransy,
    skewX, skewY]
  funext i
  fin_cases i <;> simp <;> field_simp

/-- Every branch of `get_inverse_matrix` gives the cofactors over the determinant. -/
theorem getInverseMatrix_eq (invertible : m.toMatrix.det ≠ 0) :
    getInverseMatrix m = perspectiveDstM m := by
  have scaled := scaled_eq invertible
  obtain ⟨perspective, affine⟩ := computeInv_eq invertible
  obtain ⟨full, short⟩ := det_eq_cross m
  simp only [getInverseMatrix, Bool.and_eq_true, isOne_iff, isZero_iff]
  split
  case isTrue identity =>
    -- The identity is a scaled matrix whose entries are known.
    obtain ⟨⟨⟨⟨⟨⟨⟨⟨scaleX, scaleY⟩, persp2⟩, transX⟩, transY⟩, skewX⟩, skewY⟩, persp0⟩, persp1⟩ :=
      identity
    rw [← scaled skewX skewY persp0 persp1 persp2]
    rw [show m 0 = 1 from scaleX, show m 4 = 1 from scaleY, show m 2 = 0 from transX,
      show m 5 = 0 from transY]
    simp
  split
  case isTrue scale =>
    obtain ⟨⟨⟨⟨skewX, skewY⟩, persp2⟩, persp0⟩, persp1⟩ := scale
    exact scaled skewX skewY persp0 persp1 persp2
  split
  case isTrue translate =>
    obtain ⟨⟨⟨⟨⟨⟨scaleX, scaleY⟩, persp2⟩, skewX⟩, skewY⟩, persp0⟩, persp1⟩ := translate
    rw [← scaled skewX skewY persp0 persp1 persp2]
    rw [show m 0 = 1 from scaleX, show m 4 = 1 from scaleY]
    simp [mtransx, mtransy]
  -- What is left is a skewed matrix, or one with a perspective.
  by_cases persp : (isZero (m mpersp0) && isZero (m mpersp1) && isOne (m mpersp2)) = true
  · rw [if_neg (by rw [persp]; exact Bool.false_ne_true)]
    simp only [Bool.and_eq_true, isOne_iff, isZero_iff] at persp
    obtain ⟨⟨persp0, persp1⟩, persp2⟩ := persp
    have table := affine persp0 persp1 persp2
    rw [short persp0 persp1 persp2] at table
    exact table
  · rw [if_pos (by rw [Bool.eq_false_of_not_eq_true persp]; rfl)]
    rw [full] at perspective
    exact perspective

/-- The entries that are overwritten in place are used as they are meant to be. -/
theorem affineTransformed_eq (invertible : m.toMatrix.det ≠ 0) (persp0 : m 6 = 0) (persp1 : m 7 = 0)
    (persp2 : m 8 = 1) : affineTransformed m = perspectiveDstM m := by
  -- What is overwritten first is the scale, which the translations read afterwards.
  have table := (computeInv_eq invertible).2 persp0 persp1 persp2
  have short := (det_eq_cross m).2 persp0 persp1 persp2
  rw [short] at table invertible
  have nonzero : m 0 * m 4 - m 1 * m 3 ≠ 0 := invertible
  rw [← table]
  simp only [affineTransformed, if_pos nonzero, computeInv, dcrossDscale, dcross, mscalex, mskewx,
    mtransx, mskewy, mscaley, mtransy]
  funext i
  fin_cases i <;> simp [persp0, persp1, persp2] <;> ring

/--
The inverse of an invertible matrix is the same in all three functions, in the one for affine matrices
when the last row is that of one.
-/
theorem getInverseMatrix_inverts (m : Entries K) (invertible : IsUnit m.toMatrix) :
    (getInverseMatrix m).toMatrix * m.toMatrix = 1 ∧ getInverseMatrix m = perspectiveDstM m ∧
      (m 6 = 0 → m 7 = 0 → m 8 = 1 → getInverseMatrix m = affineTransformed m) := by
  -- All branches give the same matrix, so the product needs to be computed once only.
  have unit : IsUnit m.toMatrix.det := (Matrix.isUnit_iff_isUnit_det _).mp invertible
  have nonzero : m.toMatrix.det ≠ 0 := unit.ne_zero
  have same := getInverseMatrix_eq nonzero
  refine ⟨?_, same, fun persp0 persp1 persp2 => ?_⟩
  · rw [same, perspectiveDstM_toMatrix nonzero]
    exact Matrix.nonsing_inv_mul _ unit
  · rw [same, affineTransformed_eq nonzero persp0 persp1 persp2]

/-- A skewed affine matrix is inverted alike in all three functions. -/
theorem getInverseMatrix_inverts_skewed :
    let m : Entries ℚ := ![2, 1, 3, 1, 1, 4, 0, 0, 1]
    (getInverseMatrix m).toMatrix * m.toMatrix = 1 ∧ getInverseMatrix m = perspectiveDstM m ∧
      getInverseMatrix m = affineTransformed m := by
  intro m
  -- The determinant is 1.
  have invertible : IsUnit m.toMatrix := by
    rw [Matrix.isUnit_iff_isUnit_det, det_toMatrix, isUnit_iff_ne_zero]
    decide +kernel
  obtain ⟨identity, perspective, affine⟩ := getInverseMatrix_inverts m invertible
  exact ⟨identity, perspective, affine rfl rfl rfl⟩

end Entries

end Aip
