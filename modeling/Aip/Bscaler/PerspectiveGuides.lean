import Aip.Bscaler.Planes
import Aip.Lib.Rounding

/-! The directions and the extreme points of the columns of a perspective box, in exact numbers. -/

namespace Aip.Bscaler

open Raster (Point)

/--
One direction of `perspective_mono`: the column where it turns over, and its bit from there on.

The bit is `false` for `INCREASE`.
-/
def monoSide (m1xm8 m2xm7 m0xm7 m1xm6 : Int) : Int × Bool :=
  if m0xm7 - m1xm6 ≠ 0 then
    let turn : ℚ := (m1xm8 - m2xm7 : Int) / (m0xm7 - m1xm6 : Int)
    (if turn < 0 ∧ turn > -1 then 0 else ⌈turn⌉, !decide (m1xm6 > m0xm7))
  else (-1, decide (m1xm8 - m2xm7 < 0))

/-- `perspective_mono`, for the source columns and for the source rows. -/
def perspectiveMono (matrix : Matrix) : (Int × Bool) × (Int × Bool) :=
  let m i := (matrix i).toInt
  (monoSide (m mskewx * m mpersp2) (m mtransx * m mpersp1) (m mscalex * m mpersp1)
      (m mskewx * m mpersp0),
    monoSide (m mscaley * m mpersp2) (m mtransy * m mpersp1) (m mskewy * m mpersp1)
      (m mscaley * m mpersp0))

/-- A bit and a position in one byte. -/
def monoByte (sign : Bool) (position : Int) : UInt8 :=
  UInt8.ofNat sign.toNat <<< 7 ||| UInt8.ofNat position.toNat

/-- The position of a turn among the columns of a whole destination. -/
def wholePosition (turn : Int) : Int := if turn > 64 then 64 else if turn < 0 then 0 else turn

/-- The position of a turn among the columns of a destination box. -/
def boxPosition (turn x w : Int) : Int :=
  if turn > x + w then 64 else if turn ≤ x then 0 else turn - x

/-- `act_extreme_point` of a column, the row where the denominator of its source points is zero. -/
def actExtremePoint (matrix : Matrix) (dx : Int) : ℚ :=
  let m i : ℚ := (matrix i).toInt
  let m6DivM7 := if (matrix mpersp1).toInt ≠ 0 then m mpersp0 / m mpersp1 else 0
  let m8DivM7 := if (matrix mpersp1).toInt ≠ 0 then m mpersp2 / m mpersp1 else 0
  (-dx : Int) * m6DivM7 - m8DivM7

/-- `IS_ZERO`. -/
def isZero (a : ℚ) : Bool := decide (|a| < 1 / 1000000)

/-- `act_extreme_point_s32`, for a test of what the conversion to an integer leaves. -/
def extremeRow (zero : ℚ → Bool) (act : ℚ) : Int :=
  if act > -1 ∧ act < 0 then 0
  else if zero (act - Rounding.truncate act) then Rounding.truncate act
  else Rounding.truncate act + 1

/-- An extreme point as the columns of a box are given it, counted from the first row of the box. -/
def extremeByte (row y h : Int) : Int8 :=
  if row < y then 0 else if row > y + h - 1 then 64 else Int8.ofInt (row - y)

/-- The guides of `bs_perspective_cfg_stuff`, which tests the conversion by an equality. -/
def wholeGuides (matrix : Matrix) (dst : DataInfo) : Guides :=
  let mono := perspectiveMono matrix
  { monoX := monoByte mono.1.2 (wholePosition mono.1.1)
    monoY := monoByte mono.2.2 (wholePosition mono.2.1)
    extremePoint := fun dx => extremeByte (extremeRow (fun left => left = 0)
      (actExtremePoint matrix dx)) 0 dst.height }

/-- The guides of a destination box of `perspective_box_split`. -/
def boxGuides (matrix : Matrix) (box : BoxInfo) : Guides :=
  let mono := perspectiveMono matrix
  { monoX := monoByte mono.1.2 (boxPosition mono.1.1 box.x box.w)
    monoY := monoByte mono.2.2 (boxPosition mono.2.1 box.x box.w)
    extremePoint := fun dx => extremeByte (extremeRow isZero
      (actExtremePoint matrix (dx + box.x))) box.y box.h }

/-- The numerator of the source row of a pixel. -/
def sourceY (matrix : Matrix) (p : Point) : Int :=
  p.1 * (matrix mskewy).toInt + p.2 * (matrix mscaley).toInt + (matrix mtransy).toInt

/-- The denominator of a source point. -/
def sourceZ (matrix : Matrix) (p : Point) : Int :=
  p.1 * (matrix mpersp0).toInt + p.2 * (matrix mpersp1).toInt + (matrix mpersp2).toInt

/-- What the sign of the source rows along a column depends on. -/
def columnSlope (matrix : Matrix) (dx : Int) : Int :=
  dx * ((matrix mscaley).toInt * (matrix mpersp0).toInt -
      (matrix mskewy).toInt * (matrix mpersp1).toInt) +
    ((matrix mscaley).toInt * (matrix mpersp2).toInt -
      (matrix mtransy).toInt * (matrix mpersp1).toInt)

variable {matrix : Matrix} {guides : Guides} {dst : BsBox} {dx y y' : Int}

/-- Two rows of a column differ by its slope, over both denominators. -/
theorem cross_rows : sourceY matrix (dx, y') * sourceZ matrix (dx, y) -
    sourceY matrix (dx, y) * sourceZ matrix (dx, y') = columnSlope matrix dx * (y' - y) := by
  unfold sourceY sourceZ columnSlope
  ring

/-- The bit of a column says which sign its slope has. -/
theorem monoSide_slope {m1xm8 m2xm7 m0xm7 m1xm6 dx : Int} (right : 0 ≤ dx) :
    let side := monoSide m1xm8 m2xm7 m0xm7 m1xm6
    let decreases := if side.1 ≤ dx then side.2 else !side.2
    (decreases = false → 0 ≤ dx * (m1xm6 - m0xm7) + (m1xm8 - m2xm7)) ∧
      (decreases = true → dx * (m1xm6 - m0xm7) + (m1xm8 - m2xm7) ≤ 0) := by
  unfold monoSide
  have opposite : m1xm6 - m0xm7 = -(m0xm7 - m1xm6) := by omega
  have sign : decide (m1xm6 > m0xm7) = decide (m0xm7 - m1xm6 < 0) := by
    rw [decide_eq_decide]
    omega
  rw [opposite, sign]
  generalize m0xm7 - m1xm6 = a
  generalize m1xm8 - m2xm7 = b
  by_cases flat : a = 0
  · -- The slope is the same in all columns, all of them behind the turn.
    have behind : (-1 : Int) ≤ dx := by omega
    simp only [flat, ne_eq, not_true_eq_false, if_false, behind, if_true, neg_zero, mul_zero,
      zero_add, decide_eq_false_iff_not, decide_eq_true_eq]
    exact ⟨not_lt.mp, le_of_lt⟩
  · -- A column is behind the turn exactly where it is behind the root of the slope.
    have behind : (if (b : ℚ) / a < 0 ∧ (b : ℚ) / a > -1 then (0 : Int) else ⌈(b : ℚ) / a⌉) ≤ dx ↔
        (b : ℚ) / a ≤ dx := by
      split
      case isTrue near =>
        have far : (b : ℚ) / a ≤ dx := near.1.le.trans (by exact_mod_cast right)
        exact iff_of_true right far
      case isFalse => exact Int.ceil_le
    simp only [ne_eq, flat, not_false_eq_true, if_true, behind]
    rcases lt_or_gt_of_ne flat with negative | positive
    · have root : (b : ℚ) / a ≤ dx ↔ dx * a ≤ b := by
        rw [div_le_iff_of_neg (by exact_mod_cast negative)]
        exact_mod_cast Iff.rfl
      simp only [root, negative, decide_true, Bool.not_true, Bool.not_false]
      split_ifs with below
      · exact ⟨fun _ => by linarith, nofun⟩
      · exact ⟨nofun, fun _ => by linarith⟩
    · have root : (b : ℚ) / a ≤ dx ↔ b ≤ dx * a := by
        rw [div_le_iff₀ (by exact_mod_cast positive)]
        exact_mod_cast Iff.rfl
      simp only [root, not_lt.mpr positive.le, decide_false, Bool.not_true, Bool.not_false]
      split_ifs with below
      · exact ⟨nofun, fun _ => by linarith⟩
      · exact ⟨fun _ => by linarith, nofun⟩

/-- A byte gives back its bit and its position. -/
theorem monoByte_parts (sign : Bool) {position : Int} (lower : 0 ≤ position)
    (upper : position ≤ 64) :
    (monoByte sign position &&& 0x7F).toNat = position.toNat ∧
      decide (monoByte sign position >>> 7 ≠ 0) = sign := by
  have parts : ∀ sign : Bool, ∀ n < 65, (monoByte sign (n : Nat) &&& 0x7F).toNat = n ∧
      decide (monoByte sign (n : Nat) >>> 7 ≠ 0) = sign := by decide +kernel
  have found := parts sign position.toNat (by omega)
  rwa [Int.toNat_of_nonneg lower] at found

/-- The direction of the rows of a column, from the byte that the columns are given. -/
theorem mono_rows {sign : Bool} {position : Int} {i : Nat}
    (byte : guides.monoY = monoByte sign position) (lower : 0 ≤ position) (upper : position ≤ 64)
    (within : (i : Int) < dst.sboxW) :
    yIncreases (guides.mono dst i) = !(if position ≤ i then sign else !sign) := by
  obtain ⟨place, bit⟩ := monoByte_parts sign lower upper
  have bits : ∀ x y : Bool, yIncreases (x.toNat <<< 1 ||| y.toNat) = !y := by decide
  have reached : position.toNat ≤ i ↔ position ≤ i := by omega
  unfold Guides.mono
  simp only [if_pos within, byte, place, bit, reached, bits]

/-- An extreme point that is at a row or before it is not put behind the row. -/
theorem extremeRow_le {zero : ℚ → Bool} {act : ℚ} (whole : zero 0 = true) (top : 0 ≤ y)
    (before : act ≤ y) : extremeRow zero act ≤ y := by
  unfold extremeRow
  split_ifs with near kept
  · exact top
  · exact Rounding.truncate_le before
  · -- With a fraction it is below the next integer, or so far above that this does not matter.
    by_cases positive : 0 ≤ act
    · have fraction : act ≠ Rounding.truncate act := by
        intro same
        rw [← same, sub_self, whole] at kept
        exact kept rfl
      rw [Rounding.truncate, if_pos positive] at fraction ⊢
      have less : (⌊act⌋ : ℚ) < y :=
        (lt_of_le_of_ne (Int.floor_le act) fraction.symm).trans_le before
      have below : ⌊act⌋ < y := by exact_mod_cast less
      omega
    · have far : act ≤ (-1 : Int) := by
        by_contra close
        push_cast at close
        exact near ⟨not_le.mp close, not_le.mp positive⟩
      have above := Rounding.truncate_le far
      omega

/-- An extreme point that is put before a row is before it. -/
theorem lt_of_extremeRow_lt {zero : ℚ → Bool} {act : ℚ} (before : extremeRow zero act < y) :
    act < y := by
  have next : Rounding.truncate act + 1 ≤ y → act < y := by
    intro reached
    apply (Rounding.lt_truncate_add_one act).trans_le
    exact_mod_cast reached
  unfold extremeRow at before
  split_ifs at before with near kept
  · exact near.2.trans (by exact_mod_cast before)
  · exact next before
  · exact next (by omega)

/-- The byte of an extreme point, for a box of at most 64 rows. -/
theorem extremeByte_toInt {row y h : Int} (short : h ≤ 64) :
    (extremeByte row y h).toInt =
      if row < y then 0 else if row > y + h - 1 then 64 else row - y := by
  unfold extremeByte
  split_ifs with above below
  · rfl
  · rfl
  · exact Int8.toInt_ofInt_of_le (by omega) (by omega)

/-- What the guides of a box say about the map of its columns. -/
structure Guides.Sound (guides : Guides) (matrix : Matrix) (dst : BsBox) : Prop where
  upward : ∀ i : Nat, (i : Int) < dst.sboxW → yIncreases (guides.mono dst i) = true →
    0 ≤ columnSlope matrix (i + dst.sboxX)
  downward : ∀ i : Nat, (i : Int) < dst.sboxW → yIncreases (guides.mono dst i) = false →
    columnSlope matrix (i + dst.sboxX) ≤ 0
  crossed : ∀ i : Nat, (i : Int) < dst.sboxW → ∀ y, dst.sboxY ≤ y → y + 1 < dst.sboxY + dst.sboxH →
    sourceZ matrix (i + dst.sboxX, y) * sourceZ matrix (i + dst.sboxX, y + 1) < 0 →
      guides.inside dst i ∧ (guides.limit dst i = y ∨ guides.limit dst i = y + 1)
  parted : ∀ i : Nat, (i : Int) < dst.sboxW → dst.sboxY < guides.limit dst i →
    guides.limit dst i < dst.sboxY + dst.sboxH - 1 →
      sourceZ matrix (i + dst.sboxX, dst.sboxY) *
        sourceZ matrix (i + dst.sboxX, dst.sboxY + dst.sboxH - 1) < 0

/-- The denominator along a column is zero at its extreme point. -/
theorem sourceZ_act (tilted : (matrix mpersp1).toInt ≠ 0) (dx y : Int) :
    (sourceZ matrix (dx, y) : ℚ) = (matrix mpersp1).toInt * (y - actExtremePoint matrix dx) := by
  have nonzero : ((matrix mpersp1).toInt : ℚ) ≠ 0 := by exact_mod_cast tilted
  simp only [sourceZ, actExtremePoint, ne_eq, tilted, not_false_eq_true, if_true]
  push_cast
  field_simp
  ring

/-- The denominators of two rows have opposite signs exactly where the extreme point is between. -/
theorem opposite_iff (tilted : (matrix mpersp1).toInt ≠ 0) (ordered : y < y') :
    sourceZ matrix (dx, y) * sourceZ matrix (dx, y') < 0 ↔
      y < actExtremePoint matrix dx ∧ actExtremePoint matrix dx < y' := by
  have square : (0 : ℚ) < (matrix mpersp1).toInt * (matrix mpersp1).toInt :=
    mul_self_pos.mpr (by exact_mod_cast tilted)
  have product : ((sourceZ matrix (dx, y) * sourceZ matrix (dx, y') : Int) : ℚ) =
      ((matrix mpersp1).toInt * (matrix mpersp1).toInt) *
        ((y - actExtremePoint matrix dx) * (y' - actExtremePoint matrix dx)) := by
    push_cast
    rw [sourceZ_act tilted, sourceZ_act tilted]
    ring
  have rows : (y : ℚ) < y' := by exact_mod_cast ordered
  rw [← Int.cast_lt (R := ℚ), product, Int.cast_zero, mul_neg_iff]
  constructor
  · rintro (⟨_, negative⟩ | ⟨wrong, _⟩)
    · rcases mul_neg_iff.mp negative with ⟨first, second⟩ | ⟨first, second⟩
      · linarith
      · constructor <;> linarith
    · exact absurd square wrong.le.not_gt
  · rintro ⟨first, second⟩
    exact Or.inl ⟨square, mul_neg_of_neg_of_pos (by linarith) (by linarith)⟩

/-- The guides that one of the two functions computes for a box. -/
structure Guides.Computed (guides : Guides) (matrix : Matrix) (zero : ℚ → Bool) (position : Int)
    (dst : BsBox) : Prop where
  whole : zero 0 = true
  lower : 0 ≤ position
  upper : position ≤ 64
  byte : guides.monoY = monoByte (perspectiveMono matrix).2.2 position
  turn : ∀ i : Nat, (i : Int) < dst.sboxW →
    (position ≤ i ↔ (perspectiveMono matrix).2.1 ≤ i + dst.sboxX)
  points : ∀ i : Nat, (i : Int) < dst.sboxW → guides.extremePoint i = extremeByte
    (extremeRow zero (actExtremePoint matrix (i + dst.sboxX))) dst.sboxY dst.sboxH

/-- Guides that are computed for a box say what they should about its columns. -/
theorem Guides.Computed.sound {zero : ℚ → Bool} {position : Int}
    (computed : guides.Computed matrix zero position dst) (left : 0 ≤ dst.sboxX)
    (top : 0 ≤ dst.sboxY) (short : dst.sboxH ≤ 64) : guides.Sound matrix dst := by
  have slope : ∀ dx, columnSlope matrix dx = dx * ((matrix mscaley).toInt * (matrix mpersp0).toInt -
      (matrix mskewy).toInt * (matrix mpersp1).toInt) +
    ((matrix mscaley).toInt * (matrix mpersp2).toInt -
      (matrix mtransy).toInt * (matrix mpersp1).toInt) := fun _ => rfl
  have rows : ∀ i : Nat, (i : Int) < dst.sboxW → yIncreases (guides.mono dst i) =
      !(if (perspectiveMono matrix).2.1 ≤ i + dst.sboxX then (perspectiveMono matrix).2.2
        else !(perspectiveMono matrix).2.2) := by
    intro i within
    rw [mono_rows computed.byte computed.lower computed.upper within]
    simp only [computed.turn i within]
  have limit : ∀ i : Nat, (i : Int) < dst.sboxW → guides.limit dst i =
      (if extremeRow zero (actExtremePoint matrix (i + dst.sboxX)) < dst.sboxY then 0
        else if extremeRow zero (actExtremePoint matrix (i + dst.sboxX)) >
          dst.sboxY + dst.sboxH - 1 then 64
        else extremeRow zero (actExtremePoint matrix (i + dst.sboxX)) - dst.sboxY) + dst.sboxY := by
    intro i within
    rw [Guides.limit, if_pos within, computed.points i within, extremeByte_toInt short]
  constructor
  case upward =>
    intro i within increases
    rw [rows i within, Bool.not_eq_true'] at increases
    rw [slope]
    exact (monoSide_slope (by omega)).1 increases
  case downward =>
    intro i within decreases
    rw [rows i within, Bool.not_eq_false'] at decreases
    rw [slope]
    exact (monoSide_slope (by omega)).2 decreases
  case crossed =>
    intro i within y above below opposite
    -- Without a slope of its own the denominator has one sign in the whole column.
    have tilted : (matrix mpersp1).toInt ≠ 0 := by
      intro flat
      simp only [sourceZ, flat, mul_zero, add_zero] at opposite
      exact absurd opposite (mul_self_nonneg _).not_gt
    obtain ⟨before, behind⟩ := (opposite_iff tilted (by omega)).mp opposite
    have reached := extremeRow_le computed.whole (by omega) behind.le
    have kept : y ≤ extremeRow zero (actExtremePoint matrix (i + dst.sboxX)) := by
      by_contra earlier
      exact lt_asymm before (lt_of_extremeRow_lt (not_le.mp earlier))
    rw [Guides.inside, limit i within, if_neg (by omega), if_neg (by omega)]
    omega
  case parted =>
    intro i within above below
    rw [limit i within] at above below
    have inside : dst.sboxY < extremeRow zero (actExtremePoint matrix (i + dst.sboxX)) ∧
        extremeRow zero (actExtremePoint matrix (i + dst.sboxX)) < dst.sboxY + dst.sboxH - 1 := by
      split_ifs at above below <;> omega
    -- An extreme point behind the first row was not made up for a denominator without a slope.
    have tilted : (matrix mpersp1).toInt ≠ 0 := by
      intro flat
      have none : actExtremePoint matrix (i + dst.sboxX) = 0 := by
        simp [actExtremePoint, flat]
      have low : extremeRow zero (actExtremePoint matrix (i + dst.sboxX)) ≤ 0 :=
        extremeRow_le computed.whole le_rfl (by rw [none, Int.cast_zero])
      omega
    rw [opposite_iff tilted (by omega)]
    constructor
    · by_contra low
      have early := extremeRow_le computed.whole top (not_lt.mp low)
      omega
    · exact lt_of_extremeRow_lt inside.2

/-- The guides of a destination of at most 64 rows and columns are computed for it. -/
theorem wholeGuides_computed {whole : DataInfo} (corner : dst.sboxX = 0 ∧ dst.sboxY = 0)
    (width : dst.sboxW ≤ 64) (height : dst.sboxH = whole.height) :
    (wholeGuides matrix whole).Computed matrix (fun left => left = 0)
      (wholePosition (perspectiveMono matrix).2.1) dst := by
  constructor
  case whole => exact decide_eq_true rfl
  case lower =>
    unfold wholePosition
    split_ifs <;> omega
  case upper =>
    unfold wholePosition
    split_ifs <;> omega
  case byte => rfl
  case turn =>
    intro i within
    unfold wholePosition
    rw [corner.1]
    split_ifs <;> omega
  case points =>
    intro i within
    rw [corner.1, corner.2, height, add_zero]
    rfl

/-- The guides of a destination box are computed for it. -/
theorem boxGuides_computed {box : BoxInfo} (corner : dst.sboxX = box.x ∧ dst.sboxY = box.y)
    (width : dst.sboxW = box.w ∧ box.w ≤ 64) (height : dst.sboxH = box.h) :
    (boxGuides matrix box).Computed matrix isZero
      (boxPosition (perspectiveMono matrix).2.1 box.x box.w) dst := by
  constructor
  case whole => simp [isZero]
  case lower =>
    unfold boxPosition
    split_ifs <;> omega
  case upper =>
    unfold boxPosition
    split_ifs <;> omega
  case byte => rfl
  case turn =>
    intro i within
    unfold boxPosition
    rw [corner.1]
    split_ifs <;> omega
  case points =>
    intro i within
    rw [corner.1, corner.2, height]
    rfl

end Aip.Bscaler
