import Aip.Lib.Indices
import Aip.Lib.Rounding
import Mathlib.Data.BitVec
import Mathlib.Tactic.FinCases
import Mathlib.Tactic.Linarith
import Mathlib.Tactic.Ring

/-! The perspective coefficients: rounded by `iaic_round`, packed into words by `iaic_perspective`. -/

namespace Aip.Coefficients

open Rounding

/-- The conversion `(int)`; what it gives outside the range of an `int` is up to the machine. -/
def toInt32 (undefined : ℚ → BitVec 32) (x : ℚ) : Int :=
  if -2 ^ 31 ≤ truncate x ∧ truncate x < 2 ^ 31 then truncate x else (undefined x).toInt

/-- `iaic_round`. -/
def iaicRound (undefined : ℚ → BitVec 32) (x : ℚ) : Int :=
  if 0 ≤ x then toInt32 undefined (x + 1 / 2) else toInt32 undefined (x - 1 / 2)

/-- `(int64_t)iaic_round(dst_m[i] * 65536 * 1024)`. -/
def coefficient (undefined : ℚ → BitVec 32) (m : ℚ) : BitVec 64 :=
  BitVec.ofInt 64 (iaicRound undefined (m * 65536 * 1024))

/-- The five words of a row, `coef0` to `coef4` for the first one. -/
structure Words where
  coef0 : BitVec 32
  coef1 : BitVec 32
  coef2 : BitVec 32
  coef3 : BitVec 32
  coef4 : BitVec 32
  deriving DecidableEq, Repr

/-- The words that are stored for the three coefficients of a row, on 64 bits and cut to 32. -/
def Words.pack (a b c : BitVec 64) : Words where
  coef0 := (a &&& 0xffffffff).setWidth 32
  coef1 := (((b &&& 0xffff) <<< 16) ||| ((a &&& 0xffff00000000).sshiftRight 32)).setWidth 32
  coef2 := ((b &&& 0xffffffff0000).sshiftRight 16).setWidth 32
  coef3 := (c &&& 0xffffffff).setWidth 32
  coef4 := ((c &&& 0x7ffffff00000000).sshiftRight 32).setWidth 32

/-- The row of the matrix as the hardware reads it. -/
structure Fields where
  x : BitVec 48
  y : BitVec 48
  const : BitVec 59
  deriving DecidableEq, Repr

/-- The fields of the words: 48 bits, 48 bits behind them, and 59 bits of the last two words. -/
def Words.decode (w : Words) : Fields where
  x := w.coef1.extractLsb' 0 16 ++ w.coef0
  y := w.coef2 ++ w.coef1.extractLsb' 16 16
  const := w.coef4.extractLsb' 0 27 ++ w.coef3

/-- One row of the inverse matrix. -/
structure Row where
  x : ℚ
  y : ℚ
  const : ℚ
  deriving DecidableEq, Repr

/-- The words that `iaic_perspective` stores for a row. -/
def Row.words (undefined : ℚ → BitVec 32) (row : Row) : Words :=
  .pack (coefficient undefined row.x) (coefficient undefined row.y) (coefficient undefined row.const)

/-- An entry in the fixed point of the hardware, `m * 2^26`, rounded. -/
def fixed (m : ℚ) : Int := nearest (m * 2 ^ 26)

/-- The rounded entries have the widths of their fields. -/
structure Row.InField (row : Row) : Prop where
  x : -2 ^ 47 ≤ fixed row.x ∧ fixed row.x < 2 ^ 47
  y : -2 ^ 47 ≤ fixed row.y ∧ fixed row.y < 2 ^ 47
  const : -2 ^ 58 ≤ fixed row.const ∧ fixed row.const < 2 ^ 58

/-- The words decode to the rounded entries in two's complement. -/
def Row.Survives (undefined : ℚ → BitVec 32) (row : Row) : Prop :=
  (row.words undefined).decode =
    ⟨.ofInt 48 (fixed row.x), .ofInt 48 (fixed row.y), .ofInt 59 (fixed row.const)⟩

instance (undefined : ℚ → BitVec 32) (row : Row) : Decidable (row.Survives undefined) :=
  inferInstanceAs (Decidable (_ = _))

/-- The rounded entry is an `int`. -/
def IsInt (m : ℚ) : Prop := -2 ^ 31 ≤ fixed m ∧ fixed m < 2 ^ 31

instance (m : ℚ) : Decidable (IsInt m) := inferInstanceAs (Decidable (_ ∧ _))

/-- All rounded entries of a row are. -/
def Row.IsInts (row : Row) : Prop := IsInt row.x ∧ IsInt row.y ∧ IsInt row.const

/-- A rounded entry is off by no more than half a unit of the fixed point. -/
theorem abs_sub_fixed (m : ℚ) : |m * 2 ^ 26 - fixed m| ≤ 1 / 2 := abs_sub_nearest _

/-- The macro gives the nearest integer if that is an `int`, and else another `int`. -/
theorem iaicRound_eq (undefined : ℚ → BitVec 32) (x : ℚ) :
    (iaicRound undefined x = nearest x ↔ -2 ^ 31 ≤ nearest x ∧ nearest x < 2 ^ 31) ∧
      -2 ^ 31 ≤ iaicRound undefined x ∧ iaicRound undefined x < 2 ^ 31 := by
  -- Both sides of zero pass a number through the same conversion.
  have convert (y : ℚ) : (toInt32 undefined y = truncate y ↔
      -2 ^ 31 ≤ truncate y ∧ truncate y < 2 ^ 31) ∧
        -2 ^ 31 ≤ toInt32 undefined y ∧ toInt32 undefined y < 2 ^ 31 := by
    have low : -2 ^ 31 ≤ (undefined y).toInt := BitVec.le_toInt _
    have high : (undefined y).toInt < 2 ^ 31 := BitVec.toInt_lt
    simp only [toInt32]
    split
    case isTrue inside => exact ⟨iff_of_true rfl inside, inside⟩
    case isFalse outside =>
      refine ⟨iff_of_false (fun same => ?_) outside, low, high⟩
      rw [same] at low high
      exact outside ⟨low, high⟩
  simp only [iaicRound, nearest]
  split
  · exact convert (x + 1 / 2)
  · exact convert (x - 1 / 2)

/-- The bits that the masks of the source keep. -/
theorem mask_bits : ∀ i < 64,
    (0xffffffff : BitVec 64).getLsbD i = decide (i < 32) ∧
    (0xffff : BitVec 64).getLsbD i = decide (i < 16) ∧
    (0xffff00000000 : BitVec 64).getLsbD i = decide (32 ≤ i ∧ i < 48) ∧
    (0xffffffff0000 : BitVec 64).getLsbD i = decide (16 ≤ i ∧ i < 48) ∧
    (0x7ffffff00000000 : BitVec 64).getLsbD i = decide (32 ≤ i ∧ i < 59) := by
  decide

section Bits

variable (a b c : BitVec 64) {i : Nat}

/-- A word cut off a masked number, shifted down, has the bits that the mask keeps. -/
theorem word_bit (x mask : BitVec 64) {shift : Nat} (inside : shift + i < 64) (word : i < 32)
    (kept : mask.getLsbD (shift + i) = true) :
    (((x &&& mask).sshiftRight shift).setWidth 32).getLsbD i = x.getLsbD (shift + i) := by
  have place : ¬ 64 ≤ i := by omega
  simp only [BitVec.getLsbD_setWidth, BitVec.getLsbD_sshiftRight, BitVec.getLsbD_and, inside, if_true,
    kept, word, place, decide_true, decide_false, Bool.not_false, Bool.and_true, Bool.true_and]

theorem coef0_bit (inside : i < 32) : (Words.pack a b c).coef0.getLsbD i = a.getLsbD i := by
  have mask := (mask_bits i (by omega)).1
  simp only [Words.pack, BitVec.getLsbD_setWidth, BitVec.getLsbD_and, mask, inside, decide_true,
    Bool.and_true, Bool.true_and]

/-- The low half of the shared word has the upper bits of the first coefficient. -/
theorem coef1_low (inside : i < 16) :
    (Words.pack a b c).coef1.getLsbD i = a.getLsbD (32 + i) := by
  -- The first coefficient is shifted down; the second one starts above these bits.
  have mask := (mask_bits (32 + i) (by omega)).2.2.1
  have kept : 32 ≤ 32 + i ∧ 32 + i < 48 := by omega
  have word : i < 32 := by omega
  have place : ¬ 64 ≤ i := by omega
  have within : 32 + i < 64 := by omega
  simp only [Words.pack, BitVec.getLsbD_setWidth, BitVec.getLsbD_or, BitVec.getLsbD_shiftLeft,
    BitVec.getLsbD_sshiftRight, BitVec.getLsbD_and, mask, kept, inside, word, place, within,
    decide_true, decide_false, and_self, if_true, Bool.not_true, Bool.not_false, Bool.and_true,
    Bool.true_and, Bool.and_false, Bool.false_and, Bool.false_or]

/-- The high half has the lowest bits of the second one. -/
theorem coef1_high (inside : i < 16) :
    (Words.pack a b c).coef1.getLsbD (16 + i) = b.getLsbD i := by
  -- Here the mask of the first coefficient ends, and the second one has been shifted up.
  have mask := (mask_bits i (by omega)).2.1
  have mask' := (mask_bits (32 + (16 + i)) (by omega)).2.2.1
  have outside : ¬ (32 ≤ 32 + (16 + i) ∧ 32 + (16 + i) < 48) := by omega
  have word : 16 + i < 32 := by omega
  have place : 16 + i < 64 := by omega
  have within : 32 + (16 + i) < 64 := by omega
  have above : ¬ 16 + i < 16 := by omega
  have same : 16 + i - 16 = i := by omega
  simp only [Words.pack, BitVec.getLsbD_setWidth, BitVec.getLsbD_or, BitVec.getLsbD_shiftLeft,
    BitVec.getLsbD_sshiftRight, BitVec.getLsbD_and, mask, mask', outside, inside, word, place, within,
    above, same, decide_true, decide_false, if_true, Bool.not_false, Bool.and_true, Bool.true_and,
    Bool.and_false, Bool.or_false]

theorem coef2_bit (inside : i < 32) : (Words.pack a b c).coef2.getLsbD i = b.getLsbD (16 + i) := by
  have kept : 16 ≤ 16 + i ∧ 16 + i < 48 := by omega
  have mask := (mask_bits (16 + i) (by omega)).2.2.2.1
  rw [decide_eq_true kept] at mask
  exact word_bit b _ (by omega) inside mask

theorem coef3_bit (inside : i < 32) : (Words.pack a b c).coef3.getLsbD i = c.getLsbD i := by
  have mask := (mask_bits i (by omega)).1
  simp only [Words.pack, BitVec.getLsbD_setWidth, BitVec.getLsbD_and, mask, inside, decide_true,
    Bool.and_true, Bool.true_and]

theorem coef4_bit (inside : i < 27) : (Words.pack a b c).coef4.getLsbD i = c.getLsbD (32 + i) := by
  have kept : 32 ≤ 32 + i ∧ 32 + i < 59 := by omega
  have mask := (mask_bits (32 + i) (by omega)).2.2.2.2
  rw [decide_eq_true kept] at mask
  exact word_bit c _ (by omega) (by omega) mask

/-- The words of a row decode to the low bits of its coefficients. -/
theorem decode_pack :
    (Words.pack a b c).decode = ⟨a.setWidth 48, b.setWidth 48, c.setWidth 59⟩ := by
  -- Field by field, and bit by bit on either side of the seam of two words.
  simp only [Words.decode, Fields.mk.injEq]
  refine ⟨?_, ?_, ?_⟩
  · apply BitVec.eq_of_getLsbD_eq
    intro i inside
    rw [BitVec.getLsbD_append, BitVec.getLsbD_setWidth, decide_eq_true inside, Bool.true_and]
    split
    case isTrue low => exact coef0_bit a b c low
    case isFalse high =>
      have rest : i - 32 < 16 := by omega
      rw [BitVec.getLsbD_extractLsb', decide_eq_true rest, Bool.true_and, Nat.zero_add,
        coef1_low a b c rest, Nat.add_sub_cancel' (by omega)]
  · apply BitVec.eq_of_getLsbD_eq
    intro i inside
    rw [BitVec.getLsbD_append, BitVec.getLsbD_setWidth, decide_eq_true inside, Bool.true_and]
    split
    case isTrue low =>
      rw [BitVec.getLsbD_extractLsb', decide_eq_true low, Bool.true_and, coef1_high a b c low]
    case isFalse high =>
      have rest : i - 16 < 32 := by omega
      rw [coef2_bit a b c rest, Nat.add_sub_cancel' (by omega)]
  · apply BitVec.eq_of_getLsbD_eq
    intro i inside
    rw [BitVec.getLsbD_append, BitVec.getLsbD_setWidth, decide_eq_true inside, Bool.true_and]
    split
    case isTrue low => exact coef3_bit a b c low
    case isFalse high =>
      have rest : i - 32 < 27 := by omega
      rw [BitVec.getLsbD_extractLsb', decide_eq_true rest, Bool.true_and, Nat.zero_add,
        coef4_bit a b c rest, Nat.add_sub_cancel' (by omega)]

end Bits

/-- The low bits of a number in two's complement are the number on fewer bits. -/
theorem setWidth_ofInt {w : Nat} (narrow : w ≤ 64) (n : Int) :
    (BitVec.ofInt 64 n).setWidth w = BitVec.ofInt w n := by
  -- Both are the number modulo the smaller power of two.
  apply BitVec.eq_of_toInt_eq
  rw [BitVec.toInt_setWidth, BitVec.toInt_ofInt, BitVec.toNat_ofInt]
  have wide : ((2 ^ w : Nat) : Int) ∣ ((2 ^ 64 : Nat) : Int) := by
    exact_mod_cast Nat.pow_dvd_pow 2 narrow
  have positive : (0 : Int) ≤ n % ((2 ^ 64 : Nat) : Int) := Int.emod_nonneg _ (by decide)
  rw [Int.toNat_of_nonneg positive, Int.bmod_eq_emod, Int.emod_emod_of_dvd n wide, ← Int.bmod_eq_emod]

/-- Two numbers that fit are the same if they are in two's complement. -/
theorem ofInt_inj {w : Nat} {n m : Int} (positive : 0 < w)
    (fitsN : -2 ^ (w - 1) ≤ n ∧ n < 2 ^ (w - 1)) (fitsM : -2 ^ (w - 1) ≤ m ∧ m < 2 ^ (w - 1)) :
    BitVec.ofInt w n = BitVec.ofInt w m ↔ n = m := by
  -- A number that fits is read back as it is.
  refine ⟨fun same => ?_, fun same => by rw [same]⟩
  have values := congrArg BitVec.toInt same
  rwa [BitVec.toInt_ofInt_eq_self positive fitsN.1 fitsN.2,
    BitVec.toInt_ofInt_eq_self positive fitsM.1 fitsM.2] at values

/-- The field of a coefficient holds the rounded entry exactly if that is an `int`. -/
theorem field_iff {w : Nat} {m : ℚ} (undefined : ℚ → BitVec 32) (wide : 32 ≤ w ∧ w ≤ 64)
    (fits : -2 ^ (w - 1) ≤ fixed m ∧ fixed m < 2 ^ (w - 1)) :
    (coefficient undefined m).setWidth w = BitVec.ofInt w (fixed m) ↔ IsInt m := by
  have scale : m * 65536 * 1024 = m * 2 ^ 26 := by ring
  obtain ⟨exact, low, high⟩ := iaicRound_eq undefined (m * 2 ^ 26)
  -- What the macro gives is an `int`, so it fits into the field as well.
  have power : (2 : Int) ^ 31 ≤ 2 ^ (w - 1) := pow_le_pow_right₀ (by decide) (by omega)
  rw [coefficient, scale, setWidth_ofInt wide.2, ofInt_inj (by omega) ⟨by linarith, by linarith⟩ fits]
  exact exact

/-- A row survives exactly if its rounded entries are `int`s. -/
theorem Row.survives_iff {row : Row} (undefined : ℚ → BitVec 32) (fits : row.InField) :
    row.Survives undefined ↔ row.IsInts := by
  -- The fields are independent of each other.
  simp only [Row.Survives, Row.words, decode_pack, Fields.mk.injEq]
  rw [field_iff undefined (by decide) fits.x, field_iff undefined (by decide) fits.y,
    field_iff undefined (by decide) fits.const]
  rfl

/--
For every inverse matrix whose rounded entries have the widths of the fields, and whatever the
conversion of a number that is no `int` gives, the fifteen words decode to the rounded entries
exactly if all nine are `int`s.
-/
theorem coefficients_iff (undefined : ℚ → BitVec 32) (matrix : Fin 3 → Row)
    (fits : ∀ i, (matrix i).InField) :
    (∀ i, (matrix i).Survives undefined) ↔ ∀ i, (matrix i).IsInts :=
  forall_congr' fun i => Row.survives_iff undefined (fits i)

/-- A conversion that gives the largest `int` for everything it cannot represent. -/
def saturates : ℚ → BitVec 32 := fun _ => 0x7fffffff

/-- A rotation by a right angle with a shift. -/
def rotation : Fin 3 → Row
  | 0 => ⟨0, -1, 31⟩
  | 1 => ⟨1, 0, -63 / 4⟩
  | 2 => ⟨0, 0, 1⟩

/-- The rotation survives, its negative entries included. -/
theorem coefficients_iff_rotation : (rotation 0).Survives saturates ∧
    (rotation 1).Survives saturates ∧ (rotation 2).Survives saturates := by
  have every := (coefficients_iff saturates rotation fun i => ?fits).mpr fun i => ?ints
  case fits => fin_cases i <;> exact ⟨by decide +kernel, by decide +kernel, by decide +kernel⟩
  case ints => fin_cases i <;> exact ⟨by decide +kernel, by decide +kernel, by decide +kernel⟩
  exact ⟨every 0, every 1, every 2⟩

/-- The constant term 32 is 2^31 in fixed point: far inside 59 bits, and stored as 2^31 - 1. -/
theorem not_survives_shift :
    Row.InField ⟨1, 0, 32⟩ ∧ fixed 32 = 2 ^ 31 ∧
      (Row.words saturates ⟨1, 0, 32⟩).decode.const = 0x7fffffff ∧
      ¬ Row.Survives saturates ⟨1, 0, 32⟩ := by
  refine ⟨⟨?_, ?_, ?_⟩, ?_, ?_, ?_⟩ <;> decide +kernel

end Aip.Coefficients
