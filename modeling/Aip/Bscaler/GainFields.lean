import Mathlib.Order.Bounds.Defs
import Aip.Bscaler.FrmcChain
import Aip.Bscaler.ResizeRuns

/-! The vertical gain of a resize box: the search for it, and the fields that have to hold it. -/

namespace Aip.Bscaler

/-- `get_exp` in exact numbers, with `none` where one is shifted beyond 30 bits. -/
def exactExp (scaleY : ℚ) : Option Nat :=
  (List.range' 1 30).find? fun n => 1 ≤ scaleY * 2 ^ n

/-- The matrix of both functions in exact numbers, with its second row amplified. -/
def gainedMatrix (scales : ExactScales) (gain : Nat) : Matrix :=
  ![exactFixed scales.scaleX, 0, exactFixed scales.transX,
    0, exactFixed (scales.scaleY * 2 ^ gain), exactFixed (scales.transY * 2 ^ gain), 0, 0, 2 ^ 16]

/-- The configuration that `bs_resize_cfg_stuff` makes for a gain, in exact numbers. -/
def gainedCfg (info : BoxResizeInfo) (src dst : ImageInfo) (coef : Fin 9 → UInt32)
    (offset : Fin 2 → UInt32) (gain : Nat) : ResizeCfg :=
  { resizeCfg info src dst coef offset gain with
    matrix := fun i => if i < 6 ∨ affineMode src then
      some (gainedMatrix (exactScales info.box dst) gain i) else none }

/-- The configuration that `resize_box_split` makes of a piece for a gain, in exact numbers. -/
def gainedSboxCfg (info : BoxResizeInfo) (src dst : ImageInfo) (coef : Fin 9 → UInt32)
    (offset : Fin 2 → UInt32) (gain : Nat) (dstSbox : BoxInfo) : ResizeCfg :=
  { exactSboxCfg info src dst coef offset dstSbox with
    yGainExp := gain
    matrix := fun i => some (gainedMatrix (exactScales info.box dst) gain i) }

/-- The word that a chain holds for the mode register. -/
def HwOnceCfg.chainMode (cfg : HwOnceCfg) : UInt32 :=
  if cfg.SkipsGain then cfg.modeWord else cfg.gainedMode

/-- The three bits of `y_gain_exp` in a word for the mode register. -/
def gainField (word : UInt32) : Nat := ((word >>> 16) &&& 7).toNat

/-- A number with 16 bits behind the point fits the 32 bits of an entry of the matrix. -/
def FitsWord (value : ℚ) : Prop :=
  -(2 ^ 31) ≤ Rounding.nearest (value * 2 ^ matAcc) ∧
    Rounding.nearest (value * 2 ^ matAcc) < 2 ^ 31

/-- The search for the gain ends with the least exponent, and the gain fits where it is stored. -/
structure GainFits (info : BoxResizeInfo) (src dst : ImageInfo) : Prop where
  least : ∃ n ≤ 30, exactExp (exactScale info.box.h dst.height) = some n ∧
    IsLeast {n : Nat | 1 ≤ n ∧ 1 ≤ exactScale info.box.h dst.height * 2 ^ n} n
  words : ∀ gain, exactGain src (exactScales info.box dst).scaleY = some gain →
    FitsWord ((exactScales info.box dst).scaleY * 2 ^ gain) ∧
      FitsWord ((exactScales info.box dst).transY * 2 ^ gain)
  whole : ∀ gain, exactGain src (exactScales info.box dst).scaleY = some gain →
    ∀ coef offset unset,
      gainField ((gainedCfg info src dst coef offset gain).hw unset).gainedMode = gain ∧
        gainField ((gainedCfg info src dst coef offset gain).hw unset).chainMode = gain
  pieces : ∀ gain, exactGain src (exactScales info.box dst).scaleY = some gain →
    ∀ coef offset unset dstSbox,
      gainField ((gainedSboxCfg info src dst coef offset gain dstSbox).hw unset).gainedMode = gain ∧
        gainField ((gainedSboxCfg info src dst coef offset gain dstSbox).hw unset).chainMode = gain

section Search

variable {h d : Int} {n : Nat}

/-- The ratio of two sides reaches one when the smaller one, shifted, reaches the larger one. -/
theorem one_le_scale_iff (positive : 1 ≤ d) : 1 ≤ exactScale h d * 2 ^ n ↔ d ≤ h * 2 ^ n := by
  have above : (0 : ℚ) < d := by exact_mod_cast (show 0 < d by omega)
  rw [exactScale, div_mul_eq_mul_div, one_le_div above]
  exact_mod_cast Iff.rfl

/-- A side of a box is below that of the destination when its ratio to it is below one. -/
theorem abs_scale_lt_one (low : 1 ≤ h) (less : h < d) : |exactScale h d| < 1 := by
  have above : (0 : ℚ) < d := by exact_mod_cast (show 0 < d by omega)
  have positive : (0 : ℚ) ≤ exactScale h d :=
    div_nonneg (by exact_mod_cast (show 0 ≤ h by omega)) above.le
  rw [abs_of_nonneg positive, exactScale, div_lt_one above]
  exact_mod_cast less

/-- The search ends with the first exponent that makes the box as high as the destination. -/
theorem exactExp_spec (low : 1 ≤ h) (less : h < d) (high : d ≤ 65535) :
    ∃ n, exactExp (exactScale h d) = some n ∧ 1 ≤ n ∧ n ≤ 16 ∧ d ≤ h * 2 ^ n ∧
      ∀ m < n, h * 2 ^ m < d := by
  have positive : 1 ≤ d := by omega
  have reach : ∃ n, d ≤ h * 2 ^ n := ⟨16, by omega⟩
  -- The exponent zero is not enough, and sixteen always is.
  have start : Nat.find reach ≠ 0 := by
    intro zero
    have found := Nat.find_spec reach
    rw [zero] at found
    omega
  have stop : Nat.find reach ≤ 16 := Nat.find_min' reach (by omega)
  have before : ∀ m < Nat.find reach, h * 2 ^ m < d := fun m early =>
    not_le.mp (Nat.find_min reach early)
  refine ⟨Nat.find reach, ?_, by omega, stop, Nat.find_spec reach, before⟩
  rw [exactExp, List.find?_range'_eq_some]
  refine ⟨?_, List.mem_range'_1.mpr (by omega), fun m _ early => ?_⟩
  · exact decide_eq_true ((one_le_scale_iff positive).mpr (Nat.find_spec reach))
  · have less := before m early
    rw [Bool.not_eq_true', decide_eq_false_iff_not, one_le_scale_iff positive]
    omega

/-- The exponent that the search ends with is the least one. -/
theorem exactExp_least (low : 1 ≤ h) (less : h < d) (high : d ≤ 65535) :
    ∃ n ≤ 30, exactExp (exactScale h d) = some n ∧
      IsLeast {n : Nat | 1 ≤ n ∧ 1 ≤ exactScale h d * 2 ^ n} n := by
  obtain ⟨n, found, first, last, reach, before⟩ := exactExp_spec low less high
  have positive : 1 ≤ d := by omega
  refine ⟨n, by omega, found, ⟨first, (one_le_scale_iff positive).mpr reach⟩, ?_⟩
  rintro m ⟨_, enough⟩
  -- A smaller exponent would have been found before.
  by_contra early
  have short := before m (not_le.mp early)
  have long := (one_le_scale_iff positive).mp enough
  omega

/-- The gain is found, and keeps the amplified side below twice that of the destination. -/
theorem exactGain_spec (src : ImageInfo) (low : 1 ≤ h) (less : h < d) (high : d ≤ 65535) :
    ∃ gain, exactGain src (exactScale h d) = some gain ∧ gain ≤ 16 ∧ h * 2 ^ gain + 1 < 2 * d ∧
      (gain ≤ 7 ↔ affineMode src = true ∨ d ≤ 128 * h) := by
  by_cases affine : affineMode src
  · refine ⟨0, if_pos affine, by omega, ?_, by simp [affine]⟩
    rw [pow_zero]
    omega
  · obtain ⟨n, found, first, last, reach, before⟩ := exactExp_spec low less high
    have gain : exactGain src (exactScale h d) = some n := by
      have small := abs_scale_lt_one low less
      have positive : (0 : ℚ) ≤ exactScale h d := div_nonneg
        (by exact_mod_cast (show 0 ≤ h by omega)) (by exact_mod_cast (show 0 ≤ d by omega))
      rw [exactGain, if_neg affine, if_pos small, abs_of_nonneg positive]
      exact found
    have twice : h * 2 ^ n = 2 * (h * 2 ^ (n - 1)) := by
      obtain ⟨m, rfl⟩ := Nat.exists_eq_succ_of_ne_zero (show n ≠ 0 by omega)
      rw [Nat.succ_sub_one, pow_succ]
      ring
    have half := before (n - 1) (by omega)
    refine ⟨n, gain, last, by omega, ?_⟩
    simp only [affine, Bool.false_eq_true, false_or]
    constructor
    · intro small
      -- The seventh power of two is at least the one that reaches the destination.
      have power : (2 : Int) ^ n ≤ 2 ^ 7 := pow_le_pow_right₀ (by decide) small
      have bound := mul_le_mul_of_nonneg_left power (show 0 ≤ h by omega)
      omega
    · intro enough
      by_contra large
      have short := before 7 (by omega)
      omega

end Search

section Words

variable {info : BoxResizeInfo} {src dst : ImageInfo} {gain : Nat} {value : ℚ}

/-- A number between bounds of an entry fits it. -/
theorem fitsWord_of_bounds (low : -(2 ^ 31) ≤ value * 2 ^ matAcc)
    (high : value * 2 ^ matAcc < 2 ^ 31 - 1) : FitsWord value := by
  -- Rounding moves the number by at most a half.
  have near := abs_le.mp (Rounding.abs_sub_nearest (value * 2 ^ matAcc))
  have above : (-(2 ^ 31) - 1 : ℚ) < Rounding.nearest (value * 2 ^ matAcc) := by linarith
  have below : (Rounding.nearest (value * 2 ^ matAcc) : ℚ) < 2 ^ 31 := by linarith
  constructor
  · have whole : (-(2 ^ 31) - 1 : Int) < Rounding.nearest (value * 2 ^ matAcc) := by
      exact_mod_cast above
    omega
  · exact_mod_cast below

/-- The sides of a box that is enlarged in height. -/
structure Enlarges (info : BoxResizeInfo) (dst : ImageInfo) : Prop where
  low : 1 ≤ info.box.h
  less : info.box.h < dst.height
  high : dst.height ≤ 65535

/-- The amplified scale stays between zero and two, with room for the rounding at both ends. -/
theorem Enlarges.scale_bounds (enlarges : Enlarges info dst)
    (below : info.box.h * 2 ^ gain + 1 < 2 * dst.height) :
    0 < (exactScales info.box dst).scaleY * 2 ^ gain ∧
      (exactScales info.box dst).scaleY * 2 ^ gain * 2 ^ matAcc < 2 * 2 ^ matAcc - 1 := by
  obtain ⟨low, less, high⟩ := enlarges
  -- The quotient of both sides is below two by more than one part in 2 ^ 16.
  have height : (0 : ℚ) < info.box.h := by exact_mod_cast (show 0 < info.box.h by omega)
  have above : (0 : ℚ) < dst.height := by exact_mod_cast (show 0 < dst.height by omega)
  have top : (dst.height : ℚ) ≤ 65535 := by exact_mod_cast high
  have room : (info.box.h : ℚ) * 2 ^ gain + 2 ≤ 2 * dst.height := by
    exact_mod_cast (show info.box.h * 2 ^ gain + 2 ≤ 2 * dst.height by omega)
  have scale : (exactScales info.box dst).scaleY * 2 ^ gain =
      info.box.h * 2 ^ gain / dst.height := by
    simp only [exactScales, exactScale]
    ring
  rw [scale]
  refine ⟨div_pos (mul_pos height (by positivity)) above, ?_⟩
  rw [div_mul_eq_mul_div, div_lt_iff₀ above]
  simp only [matAcc]
  linarith

/-- The amplified scale and shift fit the matrix. -/
theorem Enlarges.words (enlarges : Enlarges info dst) (small : gain ≤ 16)
    (below : info.box.h * 2 ^ gain + 1 < 2 * dst.height) :
    FitsWord ((exactScales info.box dst).scaleY * 2 ^ gain) ∧
      FitsWord ((exactScales info.box dst).transY * 2 ^ gain) := by
  obtain ⟨positive, top⟩ := enlarges.scale_bounds below
  have shift : (exactScales info.box dst).transY * 2 ^ gain =
      1 / 2 * ((exactScales info.box dst).scaleY * 2 ^ gain) - 1 / 2 * 2 ^ gain := by
    simp only [exactScales, exactTrans]
    ring
  have power : (2 : ℚ) ^ gain ≤ 2 ^ 16 := pow_le_pow_right₀ (by norm_num) small
  have one : (0 : ℚ) < 2 ^ gain := by positivity
  simp only [matAcc] at top
  constructor
  · apply fitsWord_of_bounds <;> simp only [matAcc] <;> linarith
  · -- The shift takes off half of the power, which is `2 ^ 31` with the bits behind the point.
    rw [shift]
    apply fitsWord_of_bounds <;> simp only [matAcc] <;> linarith

end Words

section Fields

variable {cfg : HwOnceCfg}

/-- The field of the gain holds its last three bits. -/
theorem gainField_gainedMode : gainField cfg.gainedMode = cfg.yGainExp.toNat % 8 := by
  have free : (cfg.modeWord >>> 16) &&& 7 = 0 := by
    have shifted := congrArg (· >>> (16 : UInt32)) (modeWord_free cfg)
    simp only [UInt32.shiftRight_and] at shifted
    exact shifted
  have small : (cfg.yGainExp &&& 7).toNat ≤ 7 := by
    rw [UInt32.toNat_and]
    exact Nat.and_le_right
  have own : (cfg.yGainExp &&& 7) <<< 16 >>> 16 = cfg.yGainExp &&& 7 := by
    -- Three bits are far from leaving the word.
    apply UInt32.toNat_inj.mp
    simp only [UInt32.toNat_shiftRight, UInt32.toNat_shiftLeft, UInt32.reduceToNat, Nat.reduceMod,
      Nat.shiftLeft_eq, Nat.shiftRight_eq_div_pow]
    omega
  rw [gainField, HwOnceCfg.gainedMode, UInt32.shiftRight_or, or_masked, free, own, UInt32.zero_or,
    UInt32.and_assoc, UInt32.and_self, UInt32.toNat_and]
  exact Nat.and_two_pow_sub_one_eq_mod cfg.yGainExp.toNat 3

/-- So does that of a chain, unless the gain is left out of it. -/
theorem gainField_chainMode (keeps : ¬ cfg.SkipsGain) :
    gainField cfg.chainMode = cfg.yGainExp.toNat % 8 := by
  rw [HwOnceCfg.chainMode, if_neg keeps, gainField_gainedMode]

end Fields

section Stored

variable {info : BoxResizeInfo} {src dst : ImageInfo} {gain : Nat} {coef : Fin 9 → UInt32}
  {offset : Fin 2 → UInt32} {unset : HwOnceCfg} {cfg : ResizeCfg}

/-- An amplified scale keeps the chain from leaving the gain out. -/
theorem Enlarges.keeps (enlarges : Enlarges info dst)
    (below : info.box.h * 2 ^ gain + 1 < 2 * dst.height)
    (entry : cfg.matrix mscaley = some (exactFixed ((exactScales info.box dst).scaleY * 2 ^ gain))) :
    ¬ (cfg.hw unset).SkipsGain := by
  -- The gain is left out where the entry is two or more, which it does not reach.
  rintro ⟨large, _⟩
  obtain ⟨positive, top⟩ := enlarges.scale_bounds below
  set value := (exactScales info.box dst).scaleY * 2 ^ gain
  have near := abs_le.mp (Rounding.abs_sub_nearest (value * 2 ^ matAcc))
  have low : 0 ≤ Rounding.nearest (value * 2 ^ matAcc) :=
    Rounding.nearest_nonneg (mul_nonneg positive.le (by positivity))
  have less : (Rounding.nearest (value * 2 ^ matAcc) : ℚ) < 2 * 2 ^ matAcc := by linarith
  have high : Rounding.nearest (value * 2 ^ matAcc) < 2 * 2 ^ matAcc := by exact_mod_cast less
  have stored : ((cfg.hw unset).matrix mscaley).toInt =
      Rounding.nearest (value * 2 ^ matAcc) := by
    simp only [ResizeCfg.hw, ofMatrix, entry, Option.getD_some, exactFixed]
    simp only [matAcc] at high low ⊢
    exact Int32.toInt_ofInt_of_le (by omega) (by omega)
  rw [stored] at large
  simp only [matAcc] at high large
  omega

/-- A configuration shows its gain in the mode register, as far as three bits go. -/
theorem Enlarges.shows (enlarges : Enlarges info dst) (unset : HwOnceCfg) (small : gain ≤ 16)
    (below : info.box.h * 2 ^ gain + 1 < 2 * dst.height) (holds : cfg.yGainExp = gain)
    (entry : cfg.matrix mscaley = some (exactFixed ((exactScales info.box dst).scaleY * 2 ^ gain))) :
    gainField (cfg.hw unset).gainedMode = gain % 8 ∧
      gainField (cfg.hw unset).chainMode = gain % 8 := by
  -- A gain of up to sixteen is the same number in its word.
  have stored : (cfg.hw unset).yGainExp.toNat = gain := by
    simp only [ResizeCfg.hw, holds, Nat.toUInt32_eq, UInt32.toNat_ofNat']
    omega
  rw [gainField_gainedMode, gainField_chainMode (enlarges.keeps below entry), stored]
  exact ⟨rfl, rfl⟩

/-- A gain of up to seven fits all its fields. -/
theorem Enlarges.gainFits (enlarges : Enlarges info dst)
    (room : affineMode src = true ∨ dst.height ≤ 128 * info.box.h) : GainFits info src dst := by
  -- The search has only one result, and it is below eight.
  obtain ⟨gain, found, small, below, fits⟩ :=
    exactGain_spec src enlarges.low enlarges.less enlarges.high
  have only : ∀ other, exactGain src (exactScales info.box dst).scaleY = some other →
      other = gain := fun other same => Option.some.inj (same.symm.trans found)
  have own : gain % 8 = gain := Nat.mod_eq_of_lt (Nat.lt_succ_of_le (fits.mpr room))
  refine ⟨exactExp_least enlarges.low enlarges.less enlarges.high, ?_, ?_, ?_⟩
  · intro other same
    rw [only other same]
    exact enlarges.words small below
  · intro other same coef offset unset
    rw [only other same]
    have entry : (gainedCfg info src dst coef offset gain).matrix mscaley =
        some (exactFixed ((exactScales info.box dst).scaleY * 2 ^ gain)) := by
      have row : mscaley < 6 ∨ affineMode src = true := .inl (by decide)
      simp only [gainedCfg, if_pos row]
      rfl
    have shown := enlarges.shows unset small below rfl entry
    rwa [own] at shown
  · intro other same coef offset unset dstSbox
    rw [only other same]
    have entry : (gainedSboxCfg info src dst coef offset gain dstSbox).matrix mscaley =
        some (exactFixed ((exactScales info.box dst).scaleY * 2 ^ gain)) := rfl
    have shown := enlarges.shows unset small below rfl entry
    rwa [own] at shown

/-- A gain above seven does not: the mode register keeps three bits of it. -/
theorem Enlarges.not_gainFits (enlarges : Enlarges info dst) (feature : ¬ affineMode src = true)
    (tall : 128 * info.box.h < dst.height) : ¬ GainFits info src dst := by
  intro held
  obtain ⟨gain, found, small, below, fits⟩ :=
    exactGain_spec src enlarges.low enlarges.less enlarges.high
  have large : ¬ gain ≤ 7 := fun few => (fits.mp few).elim feature (not_le.mpr tall)
  -- The field of three bits holds less than eight.
  have field := (held.pieces gain found (fun _ => 0) (fun _ => 0) blank info.box).1
  have entry : (gainedSboxCfg info src dst (fun _ => 0) (fun _ => 0) gain info.box).matrix mscaley =
      some (exactFixed ((exactScales info.box dst).scaleY * 2 ^ gain)) := rfl
  have shown := (enlarges.shows blank small below rfl entry).1
  rw [shown] at field
  omega

/-- The gain of an enlarged box is found and fits its fields exactly when the affine unit takes the
source or the destination is at most 128 times as high as the box. -/
theorem gainFits_iff (info : BoxResizeInfo) (src dst : ImageInfo) (enlarges : Enlarges info dst) :
    GainFits info src dst ↔ affineMode src = true ∨ dst.height ≤ 128 * info.box.h := by
  refine ⟨fun held => ?_, enlarges.gainFits⟩
  by_contra outside
  obtain ⟨feature, tall⟩ := not_or.mp outside
  exact enlarges.not_gainFits feature (not_le.mp tall) held

/-- A feature map of 64 columns and some rows. -/
def featureMap (rows : Int) : ImageInfo :=
  { base := 0, base1 := 0, format := .fmu8, width := 64, height := rows, lineStride := 2048
    locate := .nmem }

/-- A box of one row. -/
def oneRow : BoxResizeInfo := ⟨⟨0, 0, 64, 1⟩, 0⟩

/-- A row is made two. -/
theorem gainFits_two : GainFits oneRow (featureMap 1) (featureMap 2) :=
  (gainFits_iff oneRow (featureMap 1) (featureMap 2) ⟨by decide, by decide, by decide⟩).mpr
    (.inr (by decide))

/-- A row that is made 129 needs a gain of eight, of which the mode register keeps zero. -/
theorem not_gainFits_129 : Enlarges oneRow (featureMap 129) ∧
    ¬ GainFits oneRow (featureMap 1) (featureMap 129) := by
  have enlarges : Enlarges oneRow (featureMap 129) := ⟨by decide, by decide, by decide⟩
  exact ⟨enlarges, enlarges.not_gainFits (by decide) (by decide)⟩

end Stored

end Aip.Bscaler
