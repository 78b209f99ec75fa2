import Aip.Bscaler.AffineOrder
import Aip.Bscaler.Grid

/-! The boxes of a split: they tile the destination, and each sees the taps that the whole box has. -/

namespace Aip.Bscaler

open Raster (Point)

variable {size z : Int} {i : Nat} {dst : DataInfo} {box : BoxInfo} {matrix : Matrix}

/-- The grid of this split has squares of 64 by 64. -/
theorem affine_limits : Limits bsAffineSize bsAffineSize := ⟨by decide, by decide⟩

/-- A destination box has a side of at most 64 and ends within the image. -/
theorem sboxSide_within (within : i < sboxNum size) :
    (1 ≤ sboxSide size i ∧ sboxSide size i ≤ 64) ∧ i * bsAffineSize + sboxSide size i ≤ size :=
  Cutting.side_within affine_limits.left within

/-- The destination boxes by their number in the row and in the column. -/
theorem mem_dstSboxes : box ∈ dstSboxes dst ↔
    ∃ i < sboxNum dst.width, ∃ j < sboxNum dst.height,
      box = { x := i * bsAffineSize, y := j * bsAffineSize
              w := sboxSide dst.width i, h := sboxSide dst.height j } :=
  mem_gridBoxes

/-- No destination box is there twice. -/
theorem nodup_dstSboxes : (dstSboxes dst).Nodup := affine_limits.nodup

/-- An image with pixels that 16-bit counters can go through. -/
structure DataInfo.Sized (dst : DataInfo) : Prop where
  width : 1 ≤ dst.width ∧ dst.width ≤ 65535
  height : 1 ≤ dst.height ∧ dst.height ≤ 65535

/-- A destination box lies within the image and has at most 64 rows and columns. -/
theorem sbox_within (member : box ∈ dstSboxes dst) :
    0 ≤ box.x ∧ 0 ≤ box.y ∧ (1 ≤ box.w ∧ box.w ≤ 64) ∧ (1 ≤ box.h ∧ box.h ≤ 64) ∧
      box.x + box.w ≤ dst.width ∧ box.y + box.h ≤ dst.height := by
  obtain ⟨⟨left, top⟩, width, height, right, bottom⟩ := affine_limits.box_within member
  exact ⟨left, top, width, height, right, bottom⟩

/-- The box that a pixel belongs to. -/
def ownerSbox (dst : DataInfo) (p : Point) : BoxInfo :=
  { x := ((p.1 / bsAffineSize).toNat : Int) * bsAffineSize
    y := ((p.2 / bsAffineSize).toNat : Int) * bsAffineSize
    w := sboxSide dst.width (p.1 / bsAffineSize).toNat
    h := sboxSide dst.height (p.2 / bsAffineSize).toNat }

/-- A pixel of a destination box belongs to no other box. -/
theorem sbox_owner (member : box ∈ dstSboxes dst) {p : Point} (here : p ∈ box.pixels) :
    ownerSbox dst p = box := affine_limits.owner member here

/-- A pixel of the image lies in the destination box it belongs to. -/
theorem dstSboxes_reach {p : Point} (inside : p ∈ dst.pixels) :
    ownerSbox dst p ∈ dstSboxes dst ∧ p ∈ (ownerSbox dst p).pixels := affine_limits.reaches inside

/-- The destination boxes have the pixels of the image, each of them once. -/
theorem dstSboxes_tile : ((dstSboxes dst).flatMap BoxInfo.pixels).Perm dst.pixels :=
  affine_limits.tiles

/-- The four source points that a pixel is interpolated from. -/
def tap (point : SrcPoint) : Fin 4 → Point :=
  ![(s16 point.xp, s16 point.yp), (s16 (point.xp + 1), s16 point.yp),
    (s16 point.xp, s16 (point.yp + 1)), (s16 (point.xp + 1), s16 (point.yp + 1))]

/-- The points of a source box. -/
def BsBox.Covers (src : BsBox) (p : Point) : Prop :=
  (src.sboxX ≤ p.1 ∧ p.1 < src.sboxX + src.sboxW) ∧ src.sboxY ≤ p.2 ∧ p.2 < src.sboxY + src.sboxH

variable {src : BsBox} {point : SrcPoint} {c : Fin 4}

/-- A source box with points, all of them at 16-bit places. -/
structure BsBox.Sound (src : BsBox) : Prop where
  left : 0 ≤ src.sboxX
  top : 0 ≤ src.sboxY
  width : 1 ≤ src.sboxW
  height : 1 ≤ src.sboxH
  right : src.sboxX + src.sboxW ≤ 65536
  bottom : src.sboxY + src.sboxH ≤ 65536

/-- The bound check leaves out the taps that the box does not cover. -/
theorem boundCheck_iff (sound : src.Sound) :
    bilinearBoundCheck src.sboxX src.sboxY src.sboxW src.sboxH point.xp point.yp c = false ↔
      src.Covers (tap point c) := by
  have left := sound.left
  have top := sound.top
  have width := sound.width
  have height := sound.height
  have right := sound.right
  have bottom := sound.bottom
  -- None of the conversions to 16 bits changes the box.
  have first : u16 src.sboxX = src.sboxX := Int.emod_eq_of_lt (by omega) (by omega)
  have upper : u16 src.sboxY = src.sboxY := Int.emod_eq_of_lt (by omega) (by omega)
  have lastX : u16 (u16 src.sboxW + src.sboxX - 1) = src.sboxX + src.sboxW - 1 := by
    unfold u16
    omega
  have lastY : u16 (u16 src.sboxH + src.sboxY - 1) = src.sboxY + src.sboxH - 1 := by
    unfold u16
    omega
  have outside : ∀ tx ty : Int, (decide (tx < src.sboxX) ||
      decide (tx > src.sboxX + src.sboxW - 1) || decide (ty < src.sboxY) ||
        decide (ty > src.sboxY + src.sboxH - 1)) = false ↔ src.Covers (tx, ty) := by
    intro tx ty
    simp only [BsBox.Covers, Bool.or_eq_false_iff, decide_eq_false_iff_not]
    omega
  match c with
  | 0 | 1 | 2 | 3 =>
    simp only [bilinearBoundCheck, tap, first, upper, lastX, lastY, Matrix.cons_val]
    exact outside _ _

/-- Two boxes that cover the same taps let the same taps through. -/
theorem boundCheck_congr {other : BsBox} (sound : src.Sound) (sound' : other.Sound)
    (same : src.Covers (tap point c) ↔ other.Covers (tap point c)) :
    bilinearBoundCheck src.sboxX src.sboxY src.sboxW src.sboxH point.xp point.yp c =
      bilinearBoundCheck other.sboxX other.sboxY other.sboxW other.sboxH point.xp point.yp c := by
  rw [Bool.eq_iff_iff, ← not_iff_not, Bool.not_eq_true, Bool.not_eq_true, boundCheck_iff sound,
    boundCheck_iff sound']
  exact same

section Side

variable {s0 s1 s2 s3 start length u lo hi t : Int}

/-- A coordinate between the least and the greatest of four corners. -/
structure Between (s0 s1 s2 s3 u : Int) : Prop where
  above : s0 ≤ u ∨ s1 ≤ u ∨ s2 ≤ u ∨ s3 ≤ u
  below : u ≤ s0 ∨ u ≤ s1 ∨ u ≤ s2 ∨ u ≤ s3

/-- A smaller coordinate has no larger whole part. -/
theorem fixWhole_mono {a b : Int} (le : a ≤ b) : fixWhole a ≤ fixWhole b :=
  Int.ediv_le_ediv (by decide) le

/-- The whole part of a coordinate keeps between those of the corners. -/
theorem Between.whole (between : Between s0 s1 s2 s3 u) :
    Between (fixWhole s0) (fixWhole s1) (fixWhole s2) (fixWhole s3) (fixWhole u) := by
  constructor
  · rcases between.above with le | le | le | le
    · exact Or.inl (fixWhole_mono le)
    · exact Or.inr (Or.inl (fixWhole_mono le))
    · exact Or.inr (Or.inr (Or.inl (fixWhole_mono le)))
    · exact Or.inr (Or.inr (Or.inr (fixWhole_mono le)))
  · rcases between.below with le | le | le | le
    · exact Or.inl (fixWhole_mono le)
    · exact Or.inr (Or.inl (fixWhole_mono le))
    · exact Or.inr (Or.inr (Or.inl (fixWhole_mono le)))
    · exact Or.inr (Or.inr (Or.inr (fixWhole_mono le)))

/-- A side without overflow comes from a range of whole coordinates that all pixels keep to. -/
theorem subSide_range (found : subSide s0 s1 s2 s3 size = some (start, length)) :
    ∃ lo hi, 0 ≤ lo ∧ lo ≤ hi ∧ hi < s32Max ∧
      (∀ u, Between s0 s1 s2 s3 u → lo ≤ max 0 (fixWhole u) ∧ fixWhole u ≤ hi) ∧
      start = clip lo 0 (size - 1) - clip lo 0 (size - 1) % 2 ∧
      length = clip (hi + 1) 0 (size - 1) + 1 - start +
        (clip (hi + 1) 0 (size - 1) + 1 - start) % 2 := by
  -- The clipped corners are not negative, and what is below a corner stays below it.
  have clipped : ∀ v : Int, 0 ≤ clip v 0 s32Max ∧ clip v 0 s32Max ≤ s32Max ∧
      clip v 0 s32Max ≤ max 0 v ∧ (clip v 0 s32Max < s32Max → v ≤ clip v 0 s32Max) := by
    intro v
    unfold clip s32Max
    split_ifs <;> omega
  have even : ∀ v : Int, (if v % 2 ≠ 0 then v - 1 else v) = v - v % 2 := by
    intro v
    split <;> omega
  have raised : ∀ v : Int, (if v % 2 ≠ 0 then v + 1 else v) = v + v % 2 := by
    intro v
    split <;> omega
  unfold subSide at found
  simp only [even, raised] at found
  have c0 := clipped (fixWhole s0)
  have c1 := clipped (fixWhole s1)
  have c2 := clipped (fixWhole s2)
  have c3 := clipped (fixWhole s3)
  generalize clip (fixWhole s0) 0 s32Max = a0 at found c0
  generalize clip (fixWhole s1) 0 s32Max = a1 at found c1
  generalize clip (fixWhole s2) 0 s32Max = a2 at found c2
  generalize clip (fixWhole s3) 0 s32Max = a3 at found c3
  have least : min (min a0 a1) (min a2 a3) ≤ a0 ∧ min (min a0 a1) (min a2 a3) ≤ a1 ∧
      min (min a0 a1) (min a2 a3) ≤ a2 ∧ min (min a0 a1) (min a2 a3) ≤ a3 ∧
      0 ≤ min (min a0 a1) (min a2 a3) := by
    simp [c0.1, c1.1, c2.1, c3.1]
  have greatest : a0 ≤ max (max a0 a1) (max a2 a3) ∧ a1 ≤ max (max a0 a1) (max a2 a3) ∧
      a2 ≤ max (max a0 a1) (max a2 a3) ∧ a3 ≤ max (max a0 a1) (max a2 a3) := by
    simp
  generalize min (min a0 a1) (min a2 a3) = lo at found least
  generalize max (max a0 a1) (max a2 a3) = hi at found greatest
  split at found
  · cases found
  · rename_i fits
    rw [Option.some.injEq, Prod.mk.injEq] at found
    refine ⟨lo, hi, least.2.2.2.2, by omega, by omega, ?_, found.1.symm, ?_⟩
    · intro u between
      -- A corner on either side of the pixel, and the clip keeps it within the bounds.
      have above := between.whole.above
      have below := between.whole.below
      exact ⟨by omega, by omega⟩
    · rw [← found.2, ← found.1]

/-- The side of a part starts and ends at even places, within the whole side rounded up to even. -/
theorem subSide_even (found : subSide s0 s1 s2 s3 size = some (start, length)) (some' : 1 ≤ size) :
    0 ≤ start ∧ 1 ≤ length ∧ start % 2 = 0 ∧ length % 2 = 0 ∧
      start + length ≤ size + size % 2 := by
  obtain ⟨lo, hi, positive, ordered, _, _, first, last⟩ := subSide_range found
  unfold clip at first last
  split_ifs at first last <;> omega

/-- The place of a tap: the clipped coordinate or the one behind it, in 16 bits. -/
def TapPlace (u t : Int) : Prop :=
  t = s16 (s16 (fixWhole (clip u s32Min s32Max))) ∨
    t = s16 (s16 (fixWhole (clip u s32Min s32Max)) + 1)

/-- Clipping to 32 bits clips the whole part to 16 bits. -/
theorem fixWhole_clip (u : Int) :
    s16 (fixWhole (clip u s32Min s32Max)) = clip (fixWhole u) s16Min s16Max := by
  rw [s16_fixWhole_clip]
  unfold clip fixWhole s32Min s32Max s16Min s16Max
  split_ifs <;> omega

/-- A tap is at a place between the clipped coordinate and the next, or has wrapped around. -/
theorem TapPlace.cases (place : TapPlace u t) :
    t = clip (fixWhole u) s16Min s16Max ∨
      t = clip (fixWhole u) s16Min s16Max + 1 ∧ t ≤ 32767 ∨ t = -32768 := by
  have range : s16Min ≤ clip (fixWhole u) s16Min s16Max ∧
      clip (fixWhole u) s16Min s16Max ≤ s16Max := by
    unfold clip s16Min s16Max
    split_ifs <;> omega
  unfold TapPlace at place
  rw [fixWhole_clip] at place
  generalize clip (fixWhole u) s16Min s16Max = whole at place range ⊢
  unfold s16Min s16Max at range
  -- The second tap is one further, which 16 bits cannot hold behind the last place.
  rcases place with rfl | rfl
  · exact Or.inl (Int.bmod_eq_of_le (by omega) (by omega))
  · rcases lt_or_eq_of_le range.2 with below | rfl
    · exact Or.inr (Or.inl ⟨Int.bmod_eq_of_le (by omega) (by omega),
        by rw [s16, Int.bmod_eq_of_le (by omega) (by omega)]; omega⟩)
    · exact Or.inr (Or.inr (by decide))

/-- A part has exactly the taps of its pixels that the whole side rounded up to even has. -/
theorem subSide_tap (found : subSide s0 s1 s2 s3 size = some (start, length))
    (small : 1 ≤ size ∧ size ≤ 32767) (between : Between s0 s1 s2 s3 u) (place : TapPlace u t) :
    (start ≤ t ∧ t < start + length) ↔ 0 ≤ t ∧ t < size + size % 2 := by
  obtain ⟨lo, hi, positive, ordered, _, range, first, last⟩ := subSide_range found
  obtain ⟨lower, upper⟩ := range u between
  -- What the clip to 16 bits cuts off is outside the rounded side as well.
  have cases := place.cases
  generalize fixWhole u = whole at lower upper cases
  unfold clip s16Min s16Max at cases
  unfold clip at first last
  split_ifs at first last cases <;> omega

/-- A part has no overflow exactly where no corner reaches the largest whole coordinate. -/
theorem subSide_isSome (size : Int) : (∃ part, subSide s0 s1 s2 s3 size = some part) ↔
    fixWhole s0 < s32Max ∧ fixWhole s1 < s32Max ∧ fixWhole s2 < s32Max ∧ fixWhole s3 < s32Max := by
  have below : ∀ v : Int, clip v 0 s32Max < s32Max ↔ v < s32Max := by
    intro v
    unfold clip s32Max
    split_ifs <;> omega
  rw [← below (fixWhole s0), ← below (fixWhole s1), ← below (fixWhole s2), ← below (fixWhole s3)]
  -- The largest of the four decides, and clipping leaves what is below the limit.
  have greatest : max (max (clip (fixWhole s0) 0 s32Max) (clip (fixWhole s1) 0 s32Max))
      (max (clip (fixWhole s2) 0 s32Max) (clip (fixWhole s3) 0 s32Max)) < s32Max ↔
      clip (fixWhole s0) 0 s32Max < s32Max ∧ clip (fixWhole s1) 0 s32Max < s32Max ∧
        clip (fixWhole s2) 0 s32Max < s32Max ∧ clip (fixWhole s3) 0 s32Max < s32Max := by
    simp only [max_lt_iff, and_assoc]
  rw [← greatest]
  unfold subSide
  simp only
  split
  · rename_i above
    simp only [reduceCtorEq, exists_false, false_iff, not_lt]
    omega
  · rename_i fits
    simp only [Option.some.injEq, exists_eq', true_iff]
    omega

end Side

section SubBox

variable {wbox sub : BoxInfo} {p : Point}

/-- The source coordinates of a pixel, in 64 bits. -/
def source (matrix : Matrix) (p : Point) : Point :=
  (source64 (matrix mscalex) (matrix mskewx) (matrix mtransx) p.1 p.2,
    source64 (matrix mskewy) (matrix mscaley) (matrix mtransy) p.1 p.2)

/-- A coordinate of a pixel lies between those of the corners of its box. -/
theorem between_corners (scale skew trans : Int32) (here : p ∈ box.pixels) :
    Between (source64 scale skew trans box.x box.y)
      (source64 scale skew trans (box.x + box.w - 1) box.y)
      (source64 scale skew trans box.x (box.y + box.h - 1))
      (source64 scale skew trans (box.x + box.w - 1) (box.y + box.h - 1))
      (source64 scale skew trans p.1 p.2) := by
  rw [BoxInfo.pixels, Raster.mem_columns] at here
  exact ⟨Raster.corner_le (by omega) (by omega), Raster.le_corner (by omega) (by omega)⟩

/-- The two sides of a part of the source. -/
theorem affineCacSubBox_sides : affineCacSubBox matrix box wbox = some sub ↔
    subSide (source matrix (box.x, box.y)).1 (source matrix (box.x + box.w - 1, box.y)).1
        (source matrix (box.x, box.y + box.h - 1)).1
        (source matrix (box.x + box.w - 1, box.y + box.h - 1)).1 wbox.w = some (sub.x, sub.w) ∧
      subSide (source matrix (box.x, box.y)).2 (source matrix (box.x + box.w - 1, box.y)).2
        (source matrix (box.x, box.y + box.h - 1)).2
        (source matrix (box.x + box.w - 1, box.y + box.h - 1)).2 wbox.h = some (sub.y, sub.h) := by
  -- The two sides are computed apart, and both have to be there.
  unfold affineCacSubBox source
  simp only
  split
  · rename_i x w y h horizontal vertical
    rw [horizontal, vertical]
    simp only [Option.some.injEq, Prod.mk.injEq]
    constructor
    · rintro rfl
      exact ⟨⟨rfl, rfl⟩, rfl, rfl⟩
    · rintro ⟨⟨rfl, rfl⟩, rfl, rfl⟩
      rfl
  · rename_i missing
    simp only [reduceCtorEq, false_iff, not_and]
    intro horizontal vertical
    exact missing _ _ _ _ horizontal vertical

end SubBox

end Aip.Bscaler
