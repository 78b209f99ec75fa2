import Aip.Bscaler.PerspectiveRows

/-! The projection of a point in 64 bits, which is exact where both shifted numerators fit. -/

namespace Aip.Bscaler

open Raster (Point)

/-- A value that an `int64_t` can hold. -/
def FitsS64 (value : Int) : Prop := -9223372036854775808 ≤ value ∧ value < 9223372036854775808

instance (value : Int) : Decidable (FitsS64 value) := by
  unfold FitsS64
  infer_instance

/-- A point that the assertions admit, with no coordinate below zero. -/
def Admitted (p : Point) : Prop := (0 ≤ p.1 ∧ p.1 < 65536) ∧ 0 ≤ p.2 ∧ p.2 < 65536

instance (p : Point) : Decidable (Admitted p) := by
  unfold Admitted
  infer_instance

/-- The numerator of the source column of a pixel. -/
def sourceX (matrix : Matrix) (p : Point) : Int :=
  p.1 * (matrix mscalex).toInt + p.2 * (matrix mskewx).toInt + (matrix mtransx).toInt

/-- The 64-bit values of one linear form: two products and two sums. -/
def formValues (scale skew trans : Int32) (p : Point) : List Int :=
  [p.1 * scale.toInt, p.2 * skew.toInt, p.1 * scale.toInt + p.2 * skew.toInt,
    p.1 * scale.toInt + p.2 * skew.toInt + trans.toInt]

/-- The 64-bit values of one coordinate behind its numerator: shifted, and divided. -/
def quotientValues (numerator denominator : Int) : List Int :=
  [numerator * 65536, (numerator * 65536).tdiv denominator]

/-- The 64-bit values that are computed for a point, as exact numbers. -/
def projectionValues (matrix : Matrix) (p : Point) : List Int :=
  formValues (matrix mscalex) (matrix mskewx) (matrix mtransx) p ++
    formValues (matrix mskewy) (matrix mscaley) (matrix mtransy) p ++
    formValues (matrix mpersp0) (matrix mpersp1) (matrix mpersp2) p ++
    if sourceZ matrix p ≠ 0 then
      quotientValues (sourceX matrix p) (sourceZ matrix p) ++
        quotientValues (sourceY matrix p) (sourceZ matrix p)
    else []

/-- A source coordinate: the truncated exact quotient, clipped to 32 bits. -/
def exactCoordinate (numerator denominator : Int) : Int :=
  clip ((numerator * 65536).tdiv denominator) s32Min s32Max

/-- All values of `perspective_dst2src` fit, and what it returns are the exact coordinates. -/
def ProjectsPoint (matrix : Matrix) (p : Point) : Prop :=
  (∀ value ∈ projectionValues matrix p, FitsS64 value) ∧
    ∃ point, perspectiveDst2src matrix p.1 p.2 = some point ∧ (sourceZ matrix p ≠ 0 →
      point.xp * 65536 + point.xw = exactCoordinate (sourceX matrix p) (sourceZ matrix p) ∧
        point.yp * 65536 + point.yw = exactCoordinate (sourceY matrix p) (sourceZ matrix p))

/-- All values for a corner fit, and its whole coordinates are those of the exact ones. -/
def ProjectsCorner (matrix : Matrix) (p : Point) : Prop :=
  (∀ value ∈ projectionValues matrix p, FitsS64 value) ∧ (sourceZ matrix p ≠ 0 →
    perspectiveCorner matrix p.1 p.2 =
      (fixWhole (exactCoordinate (sourceX matrix p) (sourceZ matrix p)),
        fixWhole (exactCoordinate (sourceY matrix p) (sourceZ matrix p))))

/-- The corners that `perspective_cac_sub_box` projects. -/
def boxCorners (dst : BoxInfo) : List Point :=
  [(dst.x, dst.y), (dst.x + dst.w - 1, dst.y), (dst.x, dst.y + dst.h - 1),
    (dst.x + dst.w - 1, dst.y + dst.h - 1)]

/-- A numerator of 48 bits, of which only the least one divided by minus one is too large. -/
def Narrow (numerator denominator : Int) : Prop :=
  (-140737488355328 ≤ numerator ∧ numerator < 140737488355328) ∧
    (numerator = -140737488355328 → denominator ≠ -1)

/-- Both numerators of a point with a denominator are narrow. -/
def Scalable (matrix : Matrix) (p : Point) : Prop :=
  sourceZ matrix p ≠ 0 → Narrow (sourceX matrix p) (sourceZ matrix p) ∧
    Narrow (sourceY matrix p) (sourceZ matrix p)

variable {matrix : Matrix} {p : Point} {value numerator denominator : Int}

/-- A value that fits is kept. -/
theorem s64_of_fits (fits : FitsS64 value) : s64 value = value := by
  obtain ⟨low, high⟩ := fits
  exact Int.bmod_eq_of_le (by omega) (by omega)

/-- The products and sums of a linear form fit for every point of 16 bits. -/
theorem formValues_fit (scale skew trans : Int32) (admitted : Admitted p) :
    ∀ value ∈ formValues scale skew trans p, FitsS64 value := by
  -- Each product has 48 bits, so the sums are far from the end of 64.
  have first := product_bound scale admitted.1.1 admitted.1.2
  have second := product_bound skew admitted.2.1 admitted.2.2
  have low := Int32.le_toInt trans
  have high := Int32.toInt_lt trans
  simp only [formValues, List.forall_mem_cons, List.not_mem_nil, false_implies, implies_true,
    and_true, FitsS64]
  omega

/-- A shifted numerator and its quotient fit exactly when the numerator is narrow. -/
theorem quotientValues_fit (nonzero : denominator ≠ 0) :
    (∀ value ∈ quotientValues numerator denominator, FitsS64 value) ↔
      Narrow numerator denominator := by
  -- A quotient is not larger than what is divided.
  have shorter := Int.natAbs_tdiv_le_natAbs (numerator * 65536) denominator
  simp only [quotientValues, List.forall_mem_cons, List.not_mem_nil, false_implies, implies_true,
    and_true]
  constructor
  · intro fit
    obtain ⟨shifted, quotient⟩ := fit
    refine ⟨by unfold FitsS64 at shifted; omega, fun least negated => ?_⟩
    -- The least number has no negative in 64 bits.
    rw [least, negated] at quotient
    revert quotient
    decide
  · intro narrow
    obtain ⟨⟨low, high⟩, least⟩ := narrow
    refine ⟨by unfold FitsS64; omega, ?_⟩
    by_cases bottom : numerator = -140737488355328
    · -- Divided by anything but minus one, the least numerator becomes smaller or stays negative.
      have shifted : numerator * 65536 = -9223372036854775808 := by omega
      rw [shifted] at shorter ⊢
      rcases Int.lt_or_gt_of_ne nonzero with negative | positive
      · have two : denominator ≤ -2 := by have := least bottom; omega
        have half : ((-9223372036854775808 : Int).tdiv denominator).natAbs ≤
            9223372036854775808 / 2 := by
          rw [Int.natAbs_tdiv]
          exact Nat.div_le_div_left (by omega) (by decide)
        unfold FitsS64
        omega
      · have sign : (-(9223372036854775808 : Int)).tdiv denominator ≤ 0 := by
          rw [Int.neg_tdiv]
          exact Int.neg_nonpos_of_nonneg (Int.tdiv_nonneg (by decide) positive.le)
        unfold FitsS64
        omega
    · -- Any other numerator has a negative in 64 bits.
      unfold FitsS64
      omega

/-- All values of a point fit exactly when the point is scalable. -/
theorem projectionValues_fit (admitted : Admitted p) :
    (∀ value ∈ projectionValues matrix p, FitsS64 value) ↔ Scalable matrix p := by
  -- The three linear forms always fit, so only the quotients decide.
  simp only [projectionValues, List.forall_mem_append]
  constructor
  · intro fit nonzero
    obtain ⟨_, quotients⟩ := fit
    rw [if_pos nonzero, List.forall_mem_append] at quotients
    exact ⟨(quotientValues_fit nonzero).mp quotients.1, (quotientValues_fit nonzero).mp quotients.2⟩
  · intro scalable
    refine ⟨⟨⟨formValues_fit _ _ _ admitted, formValues_fit _ _ _ admitted⟩,
      formValues_fit _ _ _ admitted⟩, ?_⟩
    split
    case isTrue nonzero =>
      rw [List.forall_mem_append]
      exact ⟨(quotientValues_fit nonzero).mpr (scalable nonzero).1,
        (quotientValues_fit nonzero).mpr (scalable nonzero).2⟩
    case isFalse => simp

/-- A linear form of a point of 16 bits is kept. -/
theorem form_eq (scale skew trans : Int32) (admitted : Admitted p) :
    s64 (p.1 * scale.toInt + p.2 * skew.toInt + trans.toInt) =
      p.1 * scale.toInt + p.2 * skew.toInt + trans.toInt :=
  s64_of_fits (formValues_fit scale skew trans admitted _ (by simp [formValues]))

/-- The three linear forms of a point are kept in 64 bits. -/
theorem forms_eq (matrix : Matrix) (admitted : Admitted p) :
    s64 (p.1 * (matrix mscalex).toInt + p.2 * (matrix mskewx).toInt + (matrix mtransx).toInt) =
        sourceX matrix p ∧
      s64 (p.1 * (matrix mskewy).toInt + p.2 * (matrix mscaley).toInt + (matrix mtransy).toInt) =
        sourceY matrix p ∧
      s64 (p.1 * (matrix mpersp0).toInt + p.2 * (matrix mpersp1).toInt +
        (matrix mpersp2).toInt) = sourceZ matrix p :=
  -- Each is the same function of three entries of the matrix.
  ⟨form_eq _ _ _ admitted, form_eq _ _ _ admitted, form_eq _ _ _ admitted⟩

/-- A narrow numerator is shifted, divided and clipped exactly. -/
theorem coordinate_eq (nonzero : denominator ≠ 0) (narrow : Narrow numerator denominator) :
    clip (s64 ((s64 (numerator * 65536)).tdiv denominator)) s32Min s32Max =
      exactCoordinate numerator denominator := by
  -- Neither reduction to 64 bits changes the number it is given.
  have fit := (quotientValues_fit nonzero).mpr narrow
  rw [s64_of_fits (fit (numerator * 65536) (by simp [quotientValues])),
    s64_of_fits (fit ((numerator * 65536).tdiv denominator) (by simp [quotientValues])),
    exactCoordinate]

/-- The two halves of a coordinate of 32 bits are put together again. -/
theorem fix_whole_fraction (value : Int) :
    s16 (fixWhole (clip value s32Min s32Max)) * 65536 + u16 (fixFraction (clip value s32Min s32Max)) =
      clip value s32Min s32Max := by
  rw [s16_fixWhole_clip]
  unfold fixWhole u16 fixFraction
  omega

/-- `perspective_dst2src` is exact at a point exactly when the point is scalable. -/
theorem projectsPoint_iff (admitted : Admitted p) : ProjectsPoint matrix p ↔ Scalable matrix p := by
  refine ⟨fun projects => (projectionValues_fit admitted).mp projects.1, fun scalable => ?_⟩
  -- A point with denominator 0 is refused, and nothing is said about its coordinates.
  refine ⟨(projectionValues_fit admitted).mpr scalable, ?_⟩
  obtain ⟨formX, formY, formZ⟩ := forms_eq matrix admitted
  simp only [perspectiveDst2src, if_pos (And.intro admitted.1.2 admitted.2.2), formX, formY, formZ]
  by_cases zero : sourceZ matrix p = 0
  · rw [if_neg (not_not.mpr zero)]
    exact ⟨_, rfl, fun nonzero => absurd zero nonzero⟩
  · rw [if_pos zero]
    obtain ⟨narrowX, narrowY⟩ := scalable zero
    refine ⟨_, rfl, fun _ => ?_⟩
    rw [← coordinate_eq zero narrowX, ← coordinate_eq zero narrowY]
    exact ⟨fix_whole_fraction _, fix_whole_fraction _⟩

/-- A corner is projected exactly when it is scalable. -/
theorem projectsCorner_iff (admitted : Admitted p) :
    ProjectsCorner matrix p ↔ Scalable matrix p := by
  refine ⟨fun projects => (projectionValues_fit admitted).mp projects.1, fun scalable => ?_⟩
  refine ⟨(projectionValues_fit admitted).mpr scalable, fun nonzero => ?_⟩
  -- The function for the corners skips one with denominator 0 as well.
  obtain ⟨formX, formY, formZ⟩ := forms_eq matrix admitted
  simp only [perspectiveCorner, formX, formY, formZ, if_pos nonzero]
  rw [coordinate_eq nonzero (scalable nonzero).1, coordinate_eq nonzero (scalable nonzero).2]

/--
A point is projected without overflow and exactly, by itself and as the corner of a box, exactly when
its numerators have 48 bits or its denominator is zero.
-/
theorem projects_iff_scalable (matrix : Matrix) :
    (∀ p, Admitted p → (ProjectsPoint matrix p ↔ Scalable matrix p)) ∧
      ∀ dst : BoxInfo, (∀ p ∈ boxCorners dst, Admitted p) →
        ((∀ p ∈ boxCorners dst, ProjectsCorner matrix p) ↔
          ∀ p ∈ boxCorners dst, Scalable matrix p) := by
  constructor
  · exact fun p admitted => projectsPoint_iff admitted
  · intro dst admitted
    -- Corner by corner.
    exact forall₂_congr fun p member => projectsCorner_iff (admitted p member)

/-- A matrix that doubles both coordinates. -/
def doubling : Matrix := ![131072, 0, 0, 0, 131072, 0, 0, 0, 65536]

/-- The doubled pixel and the doubled box of 64 by 64 are exact as their numerators are narrow. -/
theorem projects_iff_scalable_doubling :
    (ProjectsPoint doubling (65535, 65535) ↔ Scalable doubling (65535, 65535)) ∧
      ((∀ p ∈ boxCorners ⟨0, 0, 64, 64⟩, ProjectsCorner doubling p) ↔
        ∀ p ∈ boxCorners ⟨0, 0, 64, 64⟩, Scalable doubling p) :=
  ⟨(projects_iff_scalable doubling).1 (65535, 65535) (by decide),
    (projects_iff_scalable doubling).2 ⟨0, 0, 64, 64⟩ (by decide)⟩

/-- The largest skew and scale that `matrix_float_to_s32` gives. -/
def steepest : Matrix := ![2147418112, 2147418112, 0, 0, 65536, 0, 0, 0, 65536]

/-- At the last pixel the shifted column does not fit, and the column that is returned is negative. -/
theorem not_projects_steepest : Admitted (65535, 65535) ∧ ¬ ProjectsPoint steepest (65535, 65535) ∧
    (perspectiveDst2src steepest 65535 65535).map (·.xp) = some (-32768) ∧
    (∀ p ∈ boxCorners ⟨65472, 65472, 64, 64⟩, Admitted p) ∧
    ¬ ∀ p ∈ boxCorners ⟨65472, 65472, 64, 64⟩, ProjectsCorner steepest p := by
  -- The last corner of the box is the same point.
  have wide : ¬ FitsS64 (sourceX steepest (65535, 65535) * 65536) := by decide
  have value : sourceX steepest (65535, 65535) * 65536 ∈
      projectionValues steepest (65535, 65535) := by decide
  refine ⟨by decide, fun projects => wide (projects.1 _ value), by decide, by decide, ?_⟩
  exact fun projects => wide ((projects (65535, 65535) (by decide)).1 _ value)

end Aip.Bscaler
