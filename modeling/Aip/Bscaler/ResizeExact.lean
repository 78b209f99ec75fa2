import Mathlib.Tactic.LinearCombination
import Aip.Bscaler.Blend
import Aip.Bscaler.Resize
import Aip.Bscaler.SplitLaws
import Aip.Lib.Rounding

/-! The resize split in exact numbers, and where it loses a tap along one side of the box. -/

namespace Aip.Bscaler

/-- The scales and shifts of a resize box without the rounding of `float`. -/
structure ExactScales where
  scaleX : ℚ
  scaleY : ℚ
  transX : ℚ
  transY : ℚ

/-- The exact ratio of a side of the source to that of the destination. -/
def exactScale (size length : Int) : ℚ := size / length

/-- The exact shift that lays the middles of the two sides on each other. -/
def exactTrans (size length : Int) : ℚ := 1 / 2 * exactScale size length - 1 / 2

/-- `resampling` in exact numbers. -/
def exactScales (box : BoxInfo) (dst : ImageInfo) : ExactScales :=
  { scaleX := exactScale box.w dst.width
    scaleY := exactScale box.h dst.height
    transX := exactTrans box.w dst.width
    transY := exactTrans box.h dst.height }

/-- `yGain` in exact numbers. -/
def exactGain (src : ImageInfo) (scaleY : ℚ) : Option Nat :=
  -- The affine unit needs no gain, and neither does a box that shrinks.
  if affineMode src then some 0
  else if |scaleY| < 1 then (List.range' 1 30).find? fun n => 1 ≤ |scaleY| * 2 ^ n
  else some 0

/-- The nearest number with 16 bits behind the point. -/
def exactFixed (value : ℚ) : Int32 := Int32.ofInt (Rounding.nearest (value * 2 ^ matAcc))

/-- The matrix of both runs, where the rows are not amplified. -/
def exactMatrix (scales : ExactScales) : Matrix :=
  ![exactFixed scales.scaleX, 0, exactFixed scales.transX,
    0, exactFixed scales.scaleY, exactFixed scales.transY, 0, 0, 2 ^ 16]

/-- `CLIP` between zero and the last place of a side. -/
def clipExact (value : ℚ) (last : Int) : ℚ :=
  if value < 0 then 0 else if (last : ℚ) < value then last else value

/-- `resizeSubSide` in exact numbers. -/
def exactSubSide (scale trans : ℚ) (start length size : Int) : Int × Int :=
  let low := scale * start + trans
  let high := scale * (start + length - 1 : Int) + trans
  let least := clipExact (if low < high then low else high) (size - 1)
  let most := clipExact (if high < low then low else high) (size - 1)
  -- Start and length are made even, for NV12.
  let first := Rounding.truncate least
  let start := if first % 2 ≠ 0 then first - 1 else first
  let length := ⌈most⌉ - start + 1
  (start, if length % 2 ≠ 0 then length + 1 else length)

/-- `resizeCacSubBox` in exact numbers. -/
def exactSubBox (dst wbox : BoxInfo) (scales : ExactScales) : BoxInfo :=
  let side := exactSubSide scales.scaleX scales.transX dst.x dst.w wbox.w
  let height := exactSubSide scales.scaleY scales.transY dst.y dst.h wbox.h
  { x := side.1, y := height.1, w := side.2, h := height.2 }

/-- The source point of a pixel in `bs_resize_chn_base`, in the 32 bits of `sx` and `sy`. -/
def resizeDst2src (matrix : Matrix) (dx dy : Int) : SrcPoint :=
  let sx := (dx * (matrix mscalex).toInt + (matrix mtransx).toInt).bmod 4294967296
  let sy := (dy * (matrix mscaley).toInt + (matrix mtransy).toInt).bmod 4294967296
  { xp := s16 (fixWhole sx), yp := s16 (fixWhole sy)
    xw := u16 (fixFraction sx), yw := u16 (fixFraction sy) }

/-- The source point of a pixel, from the affine unit or from the box resizer. -/
def resizePoint (affine : Bool) (matrix : Matrix) (p : Raster.Point) : SrcPoint :=
  if affine then affineDst2src matrix p.1 p.2 else resizeDst2src matrix p.1 p.2

/-- The coordinate of a place of the destination, in exact numbers. -/
def exactPlace (size length z : Int) : ℚ := exactScale size length * z + exactTrans size length

/-- The coordinate of a place of the destination, in fixed-point numbers. -/
def fixedPlace (size length z : Int) : Int :=
  Rounding.nearest (exactScale size length * 2 ^ matAcc) * z +
    Rounding.nearest (exactTrans size length * 2 ^ matAcc)

/-- A place of the source has a weight in the value between two places around a coordinate. -/
def Reaches (value n : Int) : Prop := 65536 * (n - 1) < value ∧ value + 1 < 65536 * (n + 1)

/-- The first place of a piece. -/
def pieceFirst (i : Nat) : Int := i * bsAffineSize

/-- The last place of a piece. -/
def pieceLast (length : Int) (i : Nat) : Int := pieceFirst i + sboxSide length i - 1

/--
Rounding moves no end of a piece over the edge of its part of the source.

Parts start at even places and end at odd ones. Only an end that lies exactly on such a place, or
closer to it than the rounding, is in danger, and only if the source goes on behind it.
-/
structure EdgesClear (size length : Int) : Prop where
  right : ∀ i < sboxNum length, ∀ n : Int, n % 2 = 1 → n + 2 ≤ size →
    exactPlace size length (pieceLast length i) ≤ n →
      fixedPlace size length (pieceLast length i) ≤ 65536 * n
  left : ∀ i < sboxNum length, ∀ m : Int, m % 2 = 0 → 2 ≤ m →
    (m : ℚ) ≤ exactPlace size length (pieceFirst i) →
      65536 * m ≤ fixedPlace size length (pieceFirst i) + 1

/-- The sides of a source box and of a destination, up to 4096. -/
structure Sides (size length : Int) : Prop where
  size : 1 ≤ size ∧ size ≤ 4096
  length : 1 ≤ length ∧ length ≤ 4096

variable {size length z n : Int} {i : Nat}

/-- The sides have a positive ratio. -/
theorem Sides.scale_pos (sides : Sides size length) : 0 < exactScale size length := by
  have first := sides.size
  have second := sides.length
  have above : (0 : ℚ) < size := by exact_mod_cast (show 0 < size by omega)
  have below : (0 : ℚ) < length := by exact_mod_cast (show 0 < length by omega)
  exact div_pos above below

/-- All pixels lie above half a place in front of the source. -/
theorem Sides.exactPlace_gt (sides : Sides size length) (positive : 0 ≤ z) :
    -(1 / 2) < exactPlace size length z := by
  have scale := sides.scale_pos
  have part : 0 ≤ exactScale size length * z := mul_nonneg scale.le (by exact_mod_cast positive)
  simp only [exactPlace, exactTrans]
  linarith

/-- All pixels lie below half a place behind the source. -/
theorem Sides.exactPlace_lt (sides : Sides size length) (within : z < length) :
    exactPlace size length z < size - 1 / 2 := by
  have scale := sides.scale_pos
  have second := sides.length
  have nonzero : (length : ℚ) ≠ 0 := by exact_mod_cast (show length ≠ 0 by omega)
  have whole : exactScale size length * length = size := div_mul_cancel₀ _ nonzero
  -- The last pixel is the one farthest to the right.
  have part : exactScale size length * z ≤ exactScale size length * (length - 1) := by
    apply mul_le_mul_of_nonneg_left _ scale.le
    exact_mod_cast (show z ≤ length - 1 by omega)
  simp only [exactPlace, exactTrans]
  linarith

/-- A later pixel has no smaller exact coordinate. -/
theorem Sides.exactPlace_mono (sides : Sides size length) {y : Int} (le : y ≤ z) :
    exactPlace size length y ≤ exactPlace size length z := by
  have part := mul_le_mul_of_nonneg_left (show (y : ℚ) ≤ z by exact_mod_cast le) sides.scale_pos.le
  simp only [exactPlace]
  linarith

/-- The fixed-point coordinate is off by a half for each place and for the shift, or by less. -/
theorem Sides.fixedPlace_near (sides : Sides size length) (lower : 0 ≤ z) (upper : z < length) :
    65536 * exactPlace size length z - 2048 ≤ fixedPlace size length z ∧
      fixedPlace size length z ≤ 65536 * exactPlace size length z + 2048 := by
  have second := sides.length
  have near := Rounding.abs_nearest_mul_add (exactScale size length * 2 ^ matAcc)
    (exactTrans size length * 2 ^ matAcc) lower
  -- There are at most 4096 pixels, and each adds a half to the error.
  have most : (z : ℚ) + 1 ≤ 4096 := by exact_mod_cast (show z + 1 ≤ 4096 by omega)
  rw [abs_le] at near
  have power : (2 : ℚ) ^ matAcc = 65536 := by norm_num [matAcc]
  rw [power] at near
  simp only [fixedPlace, exactPlace, power]
  obtain ⟨low, high⟩ := near
  constructor <;> linarith

/-- A later pixel has no smaller fixed-point coordinate. -/
theorem Sides.fixedPlace_mono (sides : Sides size length) {y : Int} (le : y ≤ z) :
    fixedPlace size length y ≤ fixedPlace size length z := by
  -- The rounded scale is not negative either.
  have positive : 0 ≤ Rounding.nearest (exactScale size length * 2 ^ matAcc) :=
    Rounding.nearest_nonneg (mul_nonneg sides.scale_pos.le (by positivity))
  have part := mul_le_mul_of_nonneg_left le positive
  simp only [fixedPlace]
  omega

/-- A clipped number reaches the places that the number reaches, up to the last one. -/
theorem le_clipExact {value : ℚ} {last m : Int} (some : 1 ≤ m) (below : value < last + 1) :
    (m : ℚ) ≤ clipExact value last ↔ (m : ℚ) ≤ value := by
  have one : (1 : ℚ) ≤ m := by exact_mod_cast some
  unfold clipExact
  split_ifs with negative above
  · -- What is cut off at the end lies between the last place and the next one.
    constructor <;> intro le <;> linarith
  · constructor
    · intro le
      linarith
    · intro le
      have small : (m : ℚ) < last + 1 := le.trans_lt below
      exact_mod_cast Int.lt_add_one_iff.mp (by exact_mod_cast small)
  · rfl

/-- A clipped number stays below the places that the number stays below, up to the last one. -/
theorem clipExact_le {value : ℚ} {last n : Int} (some : 0 ≤ n) (below : n < last) :
    clipExact value last ≤ n ↔ value ≤ n := by
  have zero : (0 : ℚ) ≤ n := by exact_mod_cast some
  have less : (n : ℚ) < last := by exact_mod_cast below
  unfold clipExact
  -- Either end of the clip is on the same side of the place as the number.
  split_ifs with negative above
  · constructor <;> intro le <;> linarith
  · constructor <;> intro le <;> linarith
  · rfl

/-- A clipped number lies between zero and the last place. -/
theorem clipExact_within {value : ℚ} {last : Int} (positive : 0 ≤ last) :
    0 ≤ clipExact value last ∧ clipExact value last ≤ last := by
  have zero : (0 : ℚ) ≤ last := by exact_mod_cast positive
  unfold clipExact
  split_ifs with negative above
  · exact ⟨le_refl _, zero⟩
  · exact ⟨zero, le_refl _⟩
  · exact ⟨not_lt.mp negative, not_lt.mp above⟩

/-- Clipping keeps the order of numbers. -/
theorem clipExact_mono {low high : ℚ} {last : Int} (positive : 0 ≤ last) (le : low ≤ high) :
    clipExact low last ≤ clipExact high last := by
  have zero : (0 : ℚ) ≤ last := by exact_mod_cast positive
  unfold clipExact
  split_ifs <;> linarith

/-- A part starts at the even place before the lower end, and stops behind an odd one. -/
theorem exactSubSide_ends {scale trans : ℚ} {start length size : Int} (positive : 0 ≤ size - 1)
    (order : scale * start + trans ≤ scale * (start + length - 1 : Int) + trans) :
    (exactSubSide scale trans start length size).1 =
        ⌊clipExact (scale * start + trans) (size - 1)⌋ -
          ⌊clipExact (scale * start + trans) (size - 1)⌋ % 2 ∧
      (exactSubSide scale trans start length size).1 +
          (exactSubSide scale trans start length size).2 =
        ⌈clipExact (scale * (start + length - 1 : Int) + trans) (size - 1)⌉ + 1 +
          (⌈clipExact (scale * (start + length - 1 : Int) + trans) (size - 1)⌉ + 1) % 2 := by
  simp only [exactSubSide]
  generalize scale * start + trans = low at order ⊢
  generalize scale * (start + length - 1 : Int) + trans = high at order ⊢
  -- The ends are in order, and the lower one is not negative.
  have least : (if low < high then low else high) = low := by
    split
    · rfl
    · exact le_antisymm (not_lt.mp ‹_›) order
  have most : (if high < low then low else high) = high := if_neg (not_lt.mpr order)
  have floor : Rounding.truncate (clipExact low (size - 1)) = ⌊clipExact low (size - 1)⌋ :=
    if_pos (clipExact_within positive).1
  rw [least, most, floor]
  generalize ⌊clipExact low (size - 1)⌋ = first
  generalize ⌈clipExact high (size - 1)⌉ = last
  split_ifs <;> omega

/-- The part of the source of a piece, along one side. -/
def exactPart (size length : Int) (i : Nat) : Int × Int :=
  exactSubSide (exactScale size length) (exactTrans size length) (pieceFirst i)
    (sboxSide length i) size

/-- The first and the last place of a piece lie in the destination, in this order. -/
theorem piece_within (within : i < sboxNum length) :
    0 ≤ pieceFirst i ∧ pieceFirst i ≤ pieceLast length i ∧ pieceLast length i < length := by
  have side := sboxSide_within within
  unfold pieceLast pieceFirst bsAffineSize at *
  omega

/-- A part reaches from the place at or before its first pixel to the one at or behind its last. -/
theorem Sides.exactPart_ends (sides : Sides size length) (within : i < sboxNum length) :
    ∃ low high : Int, 0 ≤ low ∧ low ≤ high ∧ high < size ∧
      (∀ m, 1 ≤ m → (m ≤ low ↔ (m : ℚ) ≤ exactPlace size length (pieceFirst i))) ∧
      (∀ n, 0 ≤ n → n < size - 1 → (high ≤ n ↔ exactPlace size length (pieceLast length i) ≤ n)) ∧
      (exactPart size length i).1 = low - low % 2 ∧
      (exactPart size length i).1 + (exactPart size length i).2 = high + 1 + (high + 1) % 2 := by
  have first := sides.size
  obtain ⟨lower, order, upper⟩ := piece_within within
  have last : 0 ≤ size - 1 := by omega
  have mono := sides.exactPlace_mono order
  have inside := @clipExact_within (exactPlace size length (pieceFirst i)) _ last
  have inside' := @clipExact_within (exactPlace size length (pieceLast length i)) _ last
  have clipped := clipExact_mono last mono
  have below := sides.exactPlace_lt (lt_of_le_of_lt order upper)
  -- The clipped coordinates of both ends, rounded outwards to whole places.
  refine ⟨⌊clipExact (exactPlace size length (pieceFirst i)) (size - 1)⌋,
    ⌈clipExact (exactPlace size length (pieceLast length i)) (size - 1)⌉,
    Int.floor_nonneg.mpr inside.1, ?_, ?_, ?_, ?_, ?_⟩
  · -- Rounding outwards keeps the ends in order.
    have floor := Int.floor_le (clipExact (exactPlace size length (pieceFirst i)) (size - 1))
    have ceil := Int.le_ceil (clipExact (exactPlace size length (pieceLast length i)) (size - 1))
    exact_mod_cast (floor.trans clipped).trans ceil
  · have ceil := Int.ceil_le.mpr inside'.2
    omega
  · -- The lower end is clipped where it does not matter, in front of the first place.
    intro m some
    rw [Int.le_floor]
    exact le_clipExact some (by push_cast; linarith)
  · -- The upper end is clipped at the last place, which `n` lies in front of.
    intro n some less
    rw [Int.ceil_le]
    exact clipExact_le some less
  · exact exactSubSide_ends last mono

/-- A part lies within the side rounded up to even, and is not empty. -/
theorem Sides.exactPart_within (sides : Sides size length) (within : i < sboxNum length) :
    0 ≤ (exactPart size length i).1 ∧ 1 ≤ (exactPart size length i).2 ∧
      (exactPart size length i).1 + (exactPart size length i).2 ≤ size + size % 2 := by
  obtain ⟨low, high, positive, order, below, _, _, start, stop⟩ := sides.exactPart_ends within
  omega

/-- With clear edges a part keeps the weighted places that the side rounded up to even has. -/
theorem EdgesClear.keeps (clear : EdgesClear size length) (sides : Sides size length)
    (within : i < sboxNum length) (inside : pieceFirst i ≤ z ∧ z ≤ pieceLast length i)
    (reaches : Reaches (fixedPlace size length z) n) :
    ((exactPart size length i).1 ≤ n ∧
        n < (exactPart size length i).1 + (exactPart size length i).2) ↔
      0 ≤ n ∧ n < size + size % 2 := by
  obtain ⟨low, high, positive, order, below, starts, stops, start, stop⟩ :=
    sides.exactPart_ends within
  obtain ⟨front, back⟩ := reaches
  constructor
  · rintro ⟨lower, upper⟩
    omega
  rintro ⟨lower, upper⟩
  constructor
  · -- A place in front of the part would be reached from beyond the even place it starts at.
    by_contra before
    have bound := clear.left i within (low - low % 2) (by omega) (by omega)
      ((starts _ (by omega)).mp (by omega))
    have mono := sides.fixedPlace_mono inside.1
    omega
  · -- A place behind the part would be reached from beyond the odd place it ends at.
    by_contra behind
    have bound := clear.right i within (high + (high + 1) % 2) (by omega) (by omega)
      ((stops _ (by omega) (by omega)).mp (by omega))
    have mono := sides.fixedPlace_mono inside.2
    omega

/-- Parts that keep all weighted places of the side have clear edges. -/
theorem Sides.edgesClear (sides : Sides size length)
    (keeps : ∀ i < sboxNum length, ∀ z, pieceFirst i ≤ z → z ≤ pieceLast length i →
      ∀ n, 0 ≤ n → n < size → Reaches (fixedPlace size length z) n →
        (exactPart size length i).1 ≤ n ∧
          n < (exactPart size length i).1 + (exactPart size length i).2) :
    EdgesClear size length := by
  constructor
  · -- Beyond an odd place, the last pixel has a weight on the place behind it.
    intro i within n odd inside bound
    by_contra beyond
    obtain ⟨low, high, positive, order, below, _, stops, start, stop⟩ := sides.exactPart_ends within
    obtain ⟨first, ordered, last⟩ := piece_within within
    have near := (sides.fixedPlace_near (first.trans ordered) last).2
    have above := sides.exactPlace_gt (first.trans ordered)
    have front : 0 ≤ n := by
      have line : ((-1 : Int) : ℚ) < n := by
        push_cast
        linarith
      have whole : -1 < n := by exact_mod_cast line
      omega
    have close : fixedPlace size length (pieceLast length i) ≤ 65536 * n + 2048 := by
      have line : (fixedPlace size length (pieceLast length i) : ℚ) ≤ 65536 * n + 2048 := by
        linarith
      exact_mod_cast line
    have kept := keeps i within _ ordered (le_refl _) (n + 1) (by omega) (by omega)
      ⟨by omega, by omega⟩
    have ends := (stops n front (by omega)).mpr bound
    omega
  · -- Below an even place, the first pixel has a weight on the place in front of it.
    intro i within m even some bound
    by_contra beyond
    obtain ⟨low, high, positive, order, below, starts, _, start, stop⟩ :=
      sides.exactPart_ends within
    obtain ⟨first, ordered, last⟩ := piece_within within
    have near := (sides.fixedPlace_near first (lt_of_le_of_lt ordered last)).1
    have close : 65536 * m - 2048 ≤ fixedPlace size length (pieceFirst i) := by
      have line : 65536 * (m : ℚ) - 2048 ≤ fixedPlace size length (pieceFirst i) := by linarith
      exact_mod_cast line
    have starts := (starts m (by omega)).mpr bound
    have kept := keeps i within _ (le_refl _) ordered (m - 1) (by omega) (by omega)
      ⟨by omega, by omega⟩
    omega

/-- Every pixel has a weight on some place of the source. -/
theorem Sides.exists_place (sides : Sides size length) (lower : 0 ≤ z) (upper : z < length) :
    ∃ n, (0 ≤ n ∧ n < size) ∧ Reaches (fixedPlace size length z) n := by
  obtain ⟨near, far⟩ := sides.fixedPlace_near lower upper
  have above := sides.exactPlace_gt lower
  have below := sides.exactPlace_lt upper
  have low : -34816 < fixedPlace size length z := by
    have line : (-34816 : ℚ) < fixedPlace size length z := by linarith
    exact_mod_cast line
  have high : fixedPlace size length z < 65536 * size - 30720 := by
    have line : (fixedPlace size length z : ℚ) < 65536 * size - 30720 := by linarith
    exact_mod_cast line
  have some := sides.size
  -- It is the place at the coordinate or the next one, which has all the weight just below it.
  refine ⟨max 0 ((fixedPlace size length z + 1) / 65536), ⟨by omega, by omega⟩, ?_, ?_⟩
  · omega
  · omega

/-- Where 16 bits behind the point hold the scale and the shift, nothing is rounded. -/
theorem edgesClear_exact (some : 1 ≤ length) (fits : 2 * length ∣ 65536 * size) :
    EdgesClear size length := by
  obtain ⟨half, product⟩ := fits
  have nonzero : (length : ℚ) ≠ 0 := by exact_mod_cast (show length ≠ 0 by omega)
  have power : (2 : ℚ) ^ matAcc = 65536 := by norm_num [matAcc]
  have scale : exactScale size length * 2 ^ matAcc = ((2 * half : Int) : ℚ) := by
    have line : (65536 * size : ℚ) = 2 * length * half := by exact_mod_cast product
    rw [exactScale, power, div_mul_eq_mul_div, div_eq_iff nonzero]
    push_cast
    linarith
  have shift : exactTrans size length * 2 ^ matAcc = ((half - 32768 : Int) : ℚ) := by
    rw [power] at scale ⊢
    push_cast at scale ⊢
    unfold exactTrans
    linarith
  -- The fixed-point coordinates are the exact ones.
  have exact_place : ∀ z, (fixedPlace size length z : ℚ) = 65536 * exactPlace size length z := by
    intro z
    rw [fixedPlace, scale, shift, Rounding.nearest_intCast, Rounding.nearest_intCast]
    rw [power] at scale shift
    push_cast at scale shift ⊢
    unfold exactPlace
    linear_combination -(z : ℚ) * scale - shift
  constructor
  · intro i within n odd inside bound
    have line : (fixedPlace size length (pieceLast length i) : ℚ) ≤ (65536 * n : Int) := by
      rw [exact_place]
      push_cast
      linarith
    exact_mod_cast line
  · intro i within m even some bound
    have line : ((65536 * m : Int) : ℚ) ≤ (fixedPlace size length (pieceFirst i) + 1 : Int) := by
      push_cast
      rw [exact_place]
      linarith
    exact_mod_cast line

end Aip.Bscaler
