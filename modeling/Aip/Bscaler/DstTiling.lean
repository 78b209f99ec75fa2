import Aip.Bscaler.Grid
import Aip.Bscaler.Resize

/-! The destination boxes of all four splits, as 32-bit machines compute and allocate them. -/

namespace Aip.Bscaler

open Raster (Point)
open Cutting (count_eq side_within)

/-- The functions that cut a destination into boxes. -/
inductive BoxSplit where
  | affineBoxSplit
  | perspectiveBoxSplit
  | affineResizeBoxSplit
  | resizeBoxSplit
  deriving DecidableEq, Repr

/-- The columns that a box of a split has at most. -/
def BoxSplit.limitW : BoxSplit → Int
  | affineBoxSplit | perspectiveBoxSplit => bsAffineSize
  | affineResizeBoxSplit | resizeBoxSplit => bsResizeW

/-- The rows that a box of a split has at most; one split looks at the format of the source. -/
def BoxSplit.limitH (src : ImageInfo) : BoxSplit → Int
  | affineBoxSplit | perspectiveBoxSplit => bsAffineSize
  | affineResizeBoxSplit => bsResizeH
  | resizeBoxSplit => sboxHMax src

/-- `sbox_num_w` or `sbox_num_h`. -/
def sboxCount (size limit : Int) : Int := (s32 (size + limit - 1)).tdiv limit

/-- `sbox_w` or `sbox_h`. -/
def sboxLength (size limit i : Int) : Int :=
  if i = sboxCount size limit - 1 then (size - 1).tmod limit + 1 else limit

/-- `dst_sbox` as the loops fill it. -/
def splitBoxes (limitW limitH : Int) (dst : DataInfo) : List BoxInfo :=
  (List.range (sboxCount dst.height limitH).toNat).flatMap fun j : Nat =>
    (List.range (sboxCount dst.width limitW).toNat).map fun i : Nat =>
      { x := s32 (i * limitW), y := s32 (j * limitH)
        w := sboxLength dst.width limitW i, h := sboxLength dst.height limitH j }

/-- `sizeof(box_info_s)`. -/
def boxInfoSize : Int := 16

/-- The bytes that are allocated for `dst_sbox`, and again for `src_sbox`. -/
def splitBytes (limitW limitH : Int) (dst : DataInfo) : Int :=
  boxInfoSize * s32 (sboxCount dst.width limitW * sboxCount dst.height limitH) % 2 ^ 32

/-- The boxes tile the destination, none is empty or too large, and the arrays have an entry for
each of them. -/
structure Tiled (limitW limitH : Int) (dst : DataInfo) : Prop where
  once : ((splitBoxes limitW limitH dst).flatMap BoxInfo.pixels).Perm dst.pixels
  sides : ∀ box ∈ splitBoxes limitW limitH dst,
    (1 ≤ box.w ∧ box.w ≤ limitW) ∧ 1 ≤ box.h ∧ box.h ≤ limitH
  allocated : splitBytes limitW limitH dst = boxInfoSize * (splitBoxes limitW limitH dst).length

/-- The sums of the sides and the sizes of the arrays fit the types they are computed in. -/
structure Representable (limitW limitH : Int) (dst : DataInfo) : Prop where
  width : dst.width + limitW - 1 ≤ s32Max
  height : dst.height + limitH - 1 ≤ s32Max
  bytes : boxInfoSize * (Cutting.count dst.width limitW * Cutting.count dst.height limitH) < 2 ^ 32

section Side

variable {size limit z : Int} {i : Nat}

/-- On sides that leave room in an `int`, the machine counts the pieces. -/
theorem sboxCount_eq (positive : 0 < limit) (nonempty : 1 ≤ size) (room : size + limit - 1 ≤ s32Max) :
    sboxCount size limit = Cutting.count size limit := by
  -- Neither the sum nor the quotient leaves the range of an `int`.
  have kept : s32 (size + limit - 1) = size + limit - 1 := by
    simp only [s32, s32Max] at *
    rw [Int.bmod_eq_of_le] <;> omega
  have quotient : 0 ≤ (size + limit - 1) / limit := Int.ediv_nonneg (by omega) positive.le
  rw [sboxCount, kept, Int.tdiv_eq_ediv_of_nonneg (by omega), Cutting.count]
  omega

/-- It gives them the lengths of the pieces. -/
theorem sboxLength_eq (positive : 0 < limit) (nonempty : 1 ≤ size) (room : size + limit - 1 ≤ s32Max) :
    sboxLength size limit i = Cutting.side size limit i := by
  -- The last piece has the same number on both sides.
  have number := count_eq positive nonempty
  have quotient : 0 ≤ (size - 1) / limit := Int.ediv_nonneg (by omega) positive.le
  rw [sboxLength, sboxCount_eq positive nonempty room, Int.tmod_eq_emod_of_nonneg (by omega), Cutting.side]
  have same : (i : Int) = Cutting.count size limit - 1 ↔ i = Cutting.count size limit - 1 := by omega
  simp only [same]

/-- And it puts them where the pieces are. -/
theorem s32_place (positive : 0 < limit) (room : size + limit - 1 ≤ s32Max)
    (within : i < Cutting.count size limit) : s32 (i * limit) = i * limit := by
  obtain ⟨side, stop⟩ := side_within positive within
  have start : 0 ≤ (i : Int) * limit := mul_nonneg (Int.natCast_nonneg i) positive.le
  simp only [s32, s32Max] at *
  rw [Int.bmod_eq_of_le] <;> omega

end Side

section Grid

variable {limitW limitH : Int} {dst : DataInfo} {box : BoxInfo} {p : Point}

/-- The boxes of the affine and the perspective split are those of the model. -/
theorem gridBoxes_affine (dst : DataInfo) :
    gridBoxes bsAffineSize bsAffineSize dst = dstSboxes dst := rfl

/-- So are the boxes of the resize split. -/
theorem gridBoxes_resize (src dst : ImageInfo) :
    gridBoxes bsResizeW (sboxHMax src) dst.toDataInfo = resizeSboxes src dst := rfl

namespace Limits

/-- The machine computes the boxes where its numbers fit. -/
theorem splitBoxes_eq (limits : Limits limitW limitH) (nonempty : 1 ≤ dst.width ∧ 1 ≤ dst.height)
    (fits : Representable limitW limitH dst) :
    splitBoxes limitW limitH dst = gridBoxes limitW limitH dst := by
  -- The loops have the same bounds, and fill in the same numbers.
  have columns := sboxCount_eq limits.left nonempty.1 fits.width
  have rows := sboxCount_eq limits.top nonempty.2 fits.height
  rw [splitBoxes, gridBoxes, columns, rows, Int.toNat_natCast, Int.toNat_natCast]
  refine List.flatMap_congr fun j below => List.map_congr_left fun i within => ?_
  rw [s32_place limits.left fits.width (List.mem_range.mp within),
    s32_place limits.top fits.height (List.mem_range.mp below),
    sboxLength_eq limits.left nonempty.1 fits.width, sboxLength_eq limits.top nonempty.2 fits.height]

/-- It allocates an entry for each of them. -/
theorem splitBytes_eq (limits : Limits limitW limitH) (nonempty : 1 ≤ dst.width ∧ 1 ≤ dst.height)
    (fits : Representable limitW limitH dst) :
    splitBytes limitW limitH dst = boxInfoSize * (splitBoxes limitW limitH dst).length := by
  -- The product of both counts is the number of boxes, and has room in the argument.
  have bytes := fits.bytes
  have entries : 0 ≤ (Cutting.count dst.width limitW * Cutting.count dst.height limitH : Int) :=
    mul_nonneg (Int.natCast_nonneg _) (Int.natCast_nonneg _)
  have number : ((splitBoxes limitW limitH dst).length : Int) =
      Cutting.count dst.width limitW * Cutting.count dst.height limitH := by
    rw [limits.splitBoxes_eq nonempty fits, length_gridBoxes, Nat.cast_mul, mul_comm]
  rw [splitBytes, sboxCount_eq limits.left nonempty.1 fits.width,
    sboxCount_eq limits.top nonempty.2 fits.height, number]
  generalize (Cutting.count dst.width limitW * Cutting.count dst.height limitH : Int) = count at *
  have kept : s32 count = count := by
    simp only [s32, boxInfoSize] at *
    rw [Int.bmod_eq_of_le] <;> omega
  rw [kept]
  simp only [boxInfoSize] at *
  omega

end Limits

/-- The limits of all splits are positive. -/
theorem limits_pos (split : BoxSplit) (src : ImageInfo) : 0 < split.limitW ∧ 0 < split.limitH src := by
  cases split with
  | affineBoxSplit => exact ⟨by decide, show 0 < bsAffineSize by decide⟩
  | perspectiveBoxSplit => exact ⟨by decide, show 0 < bsAffineSize by decide⟩
  | affineResizeBoxSplit => exact ⟨by decide, show 0 < bsResizeH by decide⟩
  | resizeBoxSplit =>
    -- The rows are limited to 64 or to 256.
    refine ⟨by decide, ?_⟩
    simp only [BoxSplit.limitH, sboxHMax]
    split <;> decide

/-- All four splits tile a destination whose numbers fit, with an entry allocated for each box. -/
theorem splits_tile (split : BoxSplit) (src : ImageInfo) (dst : DataInfo) (width : 1 ≤ dst.width)
    (height : 1 ≤ dst.height) (fits : Representable split.limitW (split.limitH src) dst) :
    Tiled split.limitW (split.limitH src) dst := by
  -- The four differ in their limits only.
  obtain ⟨left, top⟩ := limits_pos split src
  have limits : Limits split.limitW (split.limitH src) := ⟨left, top⟩
  have nonempty : 1 ≤ dst.width ∧ 1 ≤ dst.height := ⟨width, height⟩
  refine ⟨?_, ?_, limits.splitBytes_eq nonempty fits⟩
  · rw [limits.splitBoxes_eq nonempty fits]
    exact limits.tiles
  · intro box member
    rw [limits.splitBoxes_eq nonempty fits] at member
    have bounds := limits.box_within member
    exact ⟨bounds.2.1, bounds.2.2.1⟩

/-- The loops fill an entry for each pair of counters. -/
theorem length_splitBoxes : (splitBoxes limitW limitH dst).length =
    (sboxCount dst.height limitH).toNat * (sboxCount dst.width limitW).toNat := by
  simp [splitBoxes, List.length_flatMap]

/-- A square destination of single bytes. -/
def square (side : Int) : ImageInfo :=
  { base := 0, base1 := 0, format := .nv12, width := side, height := side, lineStride := side
    locate := .nmem }

/-- A square of 100 by 100 is cut into four boxes by each of the splits for squares of 64. -/
theorem square_tiled : Tiled bsAffineSize bsAffineSize (square 100).toDataInfo :=
  splits_tile .affineBoxSplit (square 100) (square 100).toDataInfo (by decide) (by decide)
    ⟨by decide, by decide, by decide⟩

/-- For a square of `2 ^ 20` by `2 ^ 20` the size of the arrays comes round to zero. -/
theorem square_not_tiled : 1 ≤ (square (2 ^ 20)).width ∧ 1 ≤ (square (2 ^ 20)).height ∧
    ¬ Tiled bsAffineSize bsAffineSize (square (2 ^ 20)).toDataInfo := by
  refine ⟨by decide, by decide, fun tiled => ?_⟩
  -- There are `2 ^ 28` boxes of sixteen bytes.
  have columns : (sboxCount (2 ^ 20) bsAffineSize).toNat = 2 ^ 14 := by decide
  have none : splitBytes bsAffineSize bsAffineSize (square (2 ^ 20)).toDataInfo = 0 := by decide
  have entries := tiled.allocated
  rw [none, length_splitBoxes] at entries
  simp only [square, columns, boxInfoSize] at entries
  omega

end Grid

end Aip.Bscaler
