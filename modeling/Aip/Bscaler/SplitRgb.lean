import Mathlib.Tactic.LinearCombination
import Aip.Bscaler.Blend
import Aip.Lib.Matching
import Aip.Bscaler.SplitLaws

/-! When an affine box of four-byte pixels looks the same in one run and cut into parts. -/

namespace Aip.Bscaler

open Raster (Point)

/-- The source box of one run over the whole box. -/
def wholeSrc (src : DataInfo) (box : BoxInfo) : BsBox :=
  { base0 := (srcWboxBase src box).1, base1 := (srcWboxBase src box).2
    stride0 := src.lineStride, stride1 := src.lineStride
    sboxX := 0, sboxY := 0, sboxW := box.w, sboxH := box.h
    format := ((src.format.code &&& 1 : Nat) : Int) }

/-- The destination box of one run over the whole image. -/
def wholeDst (dst : DataInfo) : BsBox :=
  { base0 := dst.base
    base1 := if dst.format = .nv12 then
        if dst.base1 = 0 then dst.base + dst.height * dst.lineStride else dst.base1
      else 0
    stride0 := dst.lineStride, stride1 := dst.lineStride
    sboxX := 0, sboxY := 0, sboxW := dst.width, sboxH := dst.height
    format := ((dst.format.code &&& 1 : Nat) : Int) }

/-- `bs_affine_box_rgb` on each configuration in turn. -/
def affineSplitRgb (mem : Memory) (cfgs : List BscHwOnceCfg) (image : Memory) : Memory :=
  cfgs.foldl (fun image cfg => bsAffineBoxRgb mem cfg.src cfg.dst cfg.matrix cfg.zeroPoint
    (abgrOrder cfg.dstFormat.nv2bgrOrder) cfg.nv2bgrAlpha image) image

/-- `bs_affine_box_rgb` in one run. -/
def affineWholeRgb (mem : Memory) (matrix : Matrix) (nv2bgrAlpha : UInt8) (info : BoxAffineInfo)
    (src dst : DataInfo) (image : Memory) : Memory :=
  bsAffineBoxRgb mem (wholeSrc src info.box) (wholeDst dst) matrix info.zeroPoint
    (abgrOrder dst.format.nv2bgrOrder) nv2bgrAlpha image

/-- The source point of a pixel in `affine_whole_int`, which keeps 32 bits of it. -/
def affineWholePoint (matrix : Matrix) (dx dy : Int) : SrcPoint :=
  let sx := clip ((matrix mscalex).toInt * dx + (matrix mskewx).toInt * dy +
    (matrix mtransx).toInt) s32Min s32Max
  let sy := clip ((matrix mskewy).toInt * dx + (matrix mscaley).toInt * dy +
    (matrix mtransy).toInt) s32Min s32Max
  { xp := fixWhole sx, yp := fixWhole sy, xw := fixFraction sx, yw := fixFraction sy }

/-- The source of `affine_whole_int`: a box of this size at the first pixel. -/
def goldenSrc (src : DataInfo) (info : BoxAffineInfo) : BsBox :=
  { base0 := src.base, base1 := 0, stride0 := src.lineStride, stride1 := 0
    sboxX := 0, sboxY := 0, sboxW := info.box.w, sboxH := info.box.h, format := 1 }

/--
`affine_whole_int` from the fixed-point matrix on: all four bytes, from the image's first pixel.

The result is `none` where one of the loops does not end.
-/
def affineWholeInt (mem : Memory) (src dst : DataInfo) (info : BoxAffineInfo) (matrix : Matrix)
    (image : Memory) : Option Memory := do
  let xs ← intCounter 0 dst.width
  xs.foldlM (fun image dx => do
    let ys ← intCounter 0 dst.height
    some (ys.foldl (fun image dy =>
      Paint.paint image ((List.range 4).map fun k : Nat =>
        (dst.base + (dy * dst.lineStride + dx * 4 + k),
          rgbByte mem (goldenSrc src info) info.zeroPoint (affineWholePoint matrix dx dy) k)))
      image)) image

/-- The number of the alpha byte of a pixel. -/
def alphaByte (format : DataFormat) : Nat := if abgrOrder format.nv2bgrOrder = 0 then 3 else 0

/--
The parts give the image of one run, and that of the golden model up to alpha.

The golden model ends, and takes the box at the first pixel of the image. No part lets a tap through
that is outside the whole box.
-/
def SplitInvisible (matrix : Matrix) (nv2bgrAlpha : UInt8) (info : BoxAffineInfo)
    (src dst : DataInfo) (coef : Fin 9 → UInt32) (offset : Fin 2 → UInt32) : Prop :=
  ∃ cfgs, affineBoxSplit matrix nv2bgrAlpha info src dst coef offset = some cfgs ∧
    (∀ mem image, affineSplitRgb mem cfgs image =
      affineWholeRgb mem matrix nv2bgrAlpha info src dst image) ∧
    (∀ mem image, ∃ golden, affineWholeInt mem src dst info matrix image = some golden ∧
      (info.box.x = 0 → info.box.y = 0 → ∀ address,
        (∀ p ∈ dst.pixels, address ≠ rgbAddress (wholeDst dst) p.1 p.2 (alphaByte dst.format)) →
          affineSplitRgb mem cfgs image address = golden address)) ∧
    ∀ cfg ∈ cfgs, ∀ p ∈ cfg.dst.pixels, ∀ c,
      bilinearBoundCheck cfg.src.sboxX cfg.src.sboxY cfg.src.sboxW cfg.src.sboxH
        (affineDst2src matrix p.1 p.2).xp (affineDst2src matrix p.1 p.2).yp c = false →
      (wholeSrc src info.box).Covers (tap (affineDst2src matrix p.1 p.2) c)

/--
No pixel has a tap in the column or row that rounding the box up to even adds.

The source coordinates stay below the largest whole number, as they do up to 32767 pixels a side.
-/
def SplitClean (matrix : Matrix) (info : BoxAffineInfo) (dst : DataInfo) : Prop :=
  ∀ p ∈ dst.pixels, (fixWhole (source matrix p).1 < s32Max ∧ fixWhole (source matrix p).2 < s32Max) ∧
    ∀ c, 0 ≤ (tap (affineDst2src matrix p.1 p.2) c).1 →
      (tap (affineDst2src matrix p.1 p.2) c).1 < info.box.w + info.box.w % 2 →
      0 ≤ (tap (affineDst2src matrix p.1 p.2) c).2 →
      (tap (affineDst2src matrix p.1 p.2) c).2 < info.box.h + info.box.h % 2 →
      (tap (affineDst2src matrix p.1 p.2) c).1 < info.box.w ∧
        (tap (affineDst2src matrix p.1 p.2) c).2 < info.box.h

variable {mem image : Memory} {matrix : Matrix} {nv2bgrAlpha : UInt8} {info : BoxAffineInfo}
  {src dst : DataInfo} {coef : Fin 9 → UInt32} {offset : Fin 2 → UInt32} {box sub : BoxInfo}
  {cfgs : List BscHwOnceCfg} {zeroPoint : UInt8} {isAbgrOrder : Nat}

/-- The taps of a pixel are at the places that its clipped coordinates name. -/
theorem tap_places (matrix : Matrix) (p : Point) (c : Fin 4) :
    TapPlace (source matrix p).1 (tap (affineDst2src matrix p.1 p.2) c).1 ∧
      TapPlace (source matrix p).2 (tap (affineDst2src matrix p.1 p.2) c).2 := by
  match c with
  | 0 => exact ⟨Or.inl rfl, Or.inl rfl⟩
  | 1 => exact ⟨Or.inr rfl, Or.inl rfl⟩
  | 2 => exact ⟨Or.inl rfl, Or.inr rfl⟩
  | 3 => exact ⟨Or.inr rfl, Or.inr rfl⟩

/-- A source box that bounds a part or the whole. -/
structure BoxInfo.Sized (box : BoxInfo) : Prop where
  width : 1 ≤ box.w ∧ box.w ≤ 32767
  height : 1 ≤ box.h ∧ box.h ≤ 32767

/-- A part covers the taps of its pixels that the box rounded up to even covers. -/
theorem sub_covers {wbox : BoxInfo} (sized : wbox.Sized)
    (found : affineCacSubBox matrix box wbox = some sub) {p : Point} (here : p ∈ box.pixels)
    (c : Fin 4) :
    ((sub.x ≤ (tap (affineDst2src matrix p.1 p.2) c).1 ∧
        (tap (affineDst2src matrix p.1 p.2) c).1 < sub.x + sub.w) ∧
      sub.y ≤ (tap (affineDst2src matrix p.1 p.2) c).2 ∧
        (tap (affineDst2src matrix p.1 p.2) c).2 < sub.y + sub.h) ↔
      (0 ≤ (tap (affineDst2src matrix p.1 p.2) c).1 ∧
        (tap (affineDst2src matrix p.1 p.2) c).1 < wbox.w + wbox.w % 2) ∧
      0 ≤ (tap (affineDst2src matrix p.1 p.2) c).2 ∧
        (tap (affineDst2src matrix p.1 p.2) c).2 < wbox.h + wbox.h % 2 := by
  obtain ⟨horizontal, vertical⟩ := affineCacSubBox_sides.mp found
  obtain ⟨column, row⟩ := tap_places matrix p c
  exact and_congr (subSide_tap horizontal sized.width (between_corners _ _ _ here) column)
    (subSide_tap vertical sized.height (between_corners _ _ _ here) row)

/-- A part of the source is a box within the whole one rounded up to even. -/
theorem sub_within {wbox : BoxInfo} (sized : wbox.Sized)
    (found : affineCacSubBox matrix box wbox = some sub) :
    (0 ≤ sub.x ∧ 1 ≤ sub.w ∧ sub.x % 2 = 0 ∧ sub.w % 2 = 0 ∧ sub.x + sub.w ≤ wbox.w + wbox.w % 2) ∧
      0 ≤ sub.y ∧ 1 ≤ sub.h ∧ sub.y % 2 = 0 ∧ sub.h % 2 = 0 ∧
        sub.y + sub.h ≤ wbox.h + wbox.h % 2 := by
  obtain ⟨horizontal, vertical⟩ := affineCacSubBox_sides.mp found
  exact ⟨subSide_even horizontal sized.width.1, subSide_even vertical sized.height.1⟩

/-- The source box of a part. -/
theorem sub_sound {wbox : BoxInfo} (sized : wbox.Sized)
    (found : affineCacSubBox matrix box wbox = some sub) :
    (sboxCfg matrix nv2bgrAlpha info src dst coef offset box sub).src.Sound := by
  have width := sized.width
  have height := sized.height
  obtain ⟨⟨left, wide, _, _, right⟩, top, tall, _, _, bottom⟩ := sub_within sized found
  exact ⟨left, top, wide, tall, by simp only [sboxCfg, BscHwOnceCfg.src]; omega,
    by simp only [sboxCfg, BscHwOnceCfg.src]; omega⟩

/-- The source box of one run. -/
theorem whole_sound (sized : info.box.Sized) : (wholeSrc src info.box).Sound := by
  have width := sized.width
  have height := sized.height
  exact ⟨le_refl _, le_refl _, width.1, height.1, by simp only [wholeSrc]; omega,
    by simp only [wholeSrc]; omega⟩

/-- A byte depends on which taps a box lets through, and on where its pixels are. -/
theorem rgbByte_congr {one other : BsBox} {point : SrcPoint} (stride : one.stride0 = other.stride0)
    (bounds : bilinearBoundCheck one.sboxX one.sboxY one.sboxW one.sboxH point.xp point.yp =
      bilinearBoundCheck other.sboxX other.sboxY other.sboxW other.sboxH point.xp point.yp)
    (base : one.base0 - one.sboxY * other.stride0 - one.sboxX * 4 =
      other.base0 - other.sboxY * other.stride0 - other.sboxX * 4) :
    rgbByte mem one zeroPoint point = rgbByte mem other zeroPoint point := by
  -- Both boxes start at their own place behind the same corner of the image.
  have first : one.base0 = (other.base0 - other.sboxY * other.stride0 - other.sboxX * 4) +
      one.sboxY * one.stride0 + one.sboxX * (4 : Nat) := by
    rw [stride]
    push_cast
    linear_combination base
  have second : other.base0 = (other.base0 - other.sboxY * other.stride0 - other.sboxX * 4) +
      other.sboxY * other.stride0 + other.sboxX * (4 : Nat) := by
    push_cast
    ring
  funext k
  rw [rgbByte_chn, rgbByte_chn, chnByte_blend first, chnByte_blend second, stride]
  simp only [blendByte, bounds]

/-- A format of four-byte pixels is odd, so it is not NV12. -/
theorem DataFormat.isRgba_odd {format : DataFormat} (rgba : format.isRgba) :
    format ≠ .nv12 ∧ format.code &&& 1 = 1 ∧
      format ∉ ([.vbgr, .vrgb, .fmu2, .fmu4, .fmu8] : List DataFormat) := by
  cases format <;> revert rgba <;> decide

/-- A pixel of a destination box is a pixel of the image. -/
theorem sbox_pixels (member : box ∈ dstSboxes dst) {p : Point}
    (here : p ∈ box.pixels) : p ∈ dst.pixels :=
  dstSboxes_tile.subset (List.mem_flatMap.mpr ⟨box, member, here⟩)

/-- The whole box as the split hands it to each part. -/
def BoxAffineInfo.wbox (info : BoxAffineInfo) : BoxInfo :=
  { x := 0, y := 0, w := info.box.w, h := info.box.h }

/-- Without taps in the rounded rim, a part and the whole let the same taps of a pixel through. -/
theorem part_bounds (clean : SplitClean matrix info dst) (sized : info.box.Sized)
    (member : box ∈ dstSboxes dst)
    (found : affineCacSubBox matrix box info.wbox = some sub) {p : Point} (here : p ∈ box.pixels)
    (cfg : BscHwOnceCfg)
    (shape : cfg = sboxCfg matrix nv2bgrAlpha info src dst coef offset box sub) (c : Fin 4) :
    bilinearBoundCheck cfg.src.sboxX cfg.src.sboxY cfg.src.sboxW cfg.src.sboxH
        (affineDst2src matrix p.1 p.2).xp (affineDst2src matrix p.1 p.2).yp c =
      bilinearBoundCheck (wholeSrc src info.box).sboxX (wholeSrc src info.box).sboxY
        (wholeSrc src info.box).sboxW (wholeSrc src info.box).sboxH
        (affineDst2src matrix p.1 p.2).xp (affineDst2src matrix p.1 p.2).yp c := by
  subst shape
  have wsized : info.wbox.Sized := ⟨sized.width, sized.height⟩
  have covers := sub_covers wsized found here c
  have rim := (clean p (sbox_pixels member here)).2 c
  -- The part covers the rounded source box, and no tap is in the rim between this and the whole.
  refine boundCheck_congr (sub_sound wsized found) (whole_sound sized) (covers.trans ?_)
  have width := Int.emod_nonneg info.box.w (b := 2) (by decide)
  have height := Int.emod_nonneg info.box.h (b := 2) (by decide)
  simp only [BsBox.Covers, wholeSrc, BoxAffineInfo.wbox, Int.zero_add]
  constructor
  · rintro ⟨⟨left, right⟩, top, bottom⟩
    obtain ⟨column, row⟩ := rim left right top bottom
    exact ⟨⟨left, column⟩, top, row⟩
  · rintro ⟨⟨left, right⟩, top, bottom⟩
    exact ⟨⟨left, by omega⟩, top, by omega⟩

/-- A part stores a pixel of four bytes where one run stores it. -/
theorem part_rgbStores (wanted : dst.format.isRgba) (box sub : BoxInfo) (p : Point)
    (alpha : UInt8) (byte : Nat → UInt8) :
    rgbStores (sboxCfg matrix nv2bgrAlpha info src dst coef offset box sub).dst isAbgrOrder alpha
        p.1 p.2 byte =
      rgbStores (wholeDst dst) isAbgrOrder alpha p.1 p.2 byte := by
  have target := DataFormat.isRgba_odd wanted
  have address : ∀ k, rgbAddress (sboxCfg matrix nv2bgrAlpha info src dst coef offset box sub).dst
      p.1 p.2 k = rgbAddress (wholeDst dst) p.1 p.2 k := by
    intro k
    simp only [rgbAddress, sboxCfg, BscHwOnceCfg.dst, wholeDst, if_neg target.1,
      if_pos target.2.1]
    ring
  unfold rgbStores
  simp only [address]

/-- A part makes the stores that one run makes for its pixels. -/
theorem part_stores (mem : Memory) (clean : SplitClean matrix info dst) (sized : info.box.Sized)
    (given : src.format.isRgba) (wanted : dst.format.isRgba)
    (member : box ∈ dstSboxes dst) (found : affineCacSubBox matrix box info.wbox = some sub)
    {p : Point} (here : p ∈ box.pixels) (cfg : BscHwOnceCfg)
    (shape : cfg = sboxCfg matrix nv2bgrAlpha info src dst coef offset box sub) :
    affineStores mem cfg.src cfg.dst cfg.matrix cfg.zeroPoint (abgrOrder cfg.dstFormat.nv2bgrOrder)
        cfg.nv2bgrAlpha p =
      affineStores mem (wholeSrc src info.box) (wholeDst dst) matrix info.zeroPoint
        (abgrOrder dst.format.nv2bgrOrder) nv2bgrAlpha p := by
  have bounds := part_bounds clean sized member found here cfg shape
  subst shape
  have source := (DataFormat.isRgba_odd given).1
  -- A part has the same taps, at the same addresses.
  have byte : rgbByte mem (sboxCfg matrix nv2bgrAlpha info src dst coef offset box sub).src
      info.zeroPoint (affineDst2src matrix p.1 p.2) =
      rgbByte mem (wholeSrc src info.box) info.zeroPoint (affineDst2src matrix p.1 p.2) := by
    refine rgbByte_congr rfl (funext bounds) ?_
    simp only [sboxCfg, BscHwOnceCfg.src, wholeSrc, srcWboxBase, if_neg source]
    ring
  rw [affineStores, part_rgbStores wanted, affineStores, ← byte]
  rfl

/-- A part paints what one run paints in its pixels. -/
theorem part_paints (clean : SplitClean matrix info dst) (sized : info.box.Sized)
    (whole : dst.Sized) (given : src.format.isRgba) (wanted : dst.format.isRgba)
    (member : box ∈ dstSboxes dst) (found : affineCacSubBox matrix box info.wbox = some sub)
    (cfg : BscHwOnceCfg)
    (shape : cfg = sboxCfg matrix nv2bgrAlpha info src dst coef offset box sub) (image : Memory) :
    bsAffineBoxRgb mem cfg.src cfg.dst cfg.matrix cfg.zeroPoint
        (abgrOrder cfg.dstFormat.nv2bgrOrder) cfg.nv2bgrAlpha image =
      Paint.paint image (box.pixels.flatMap (affineStores mem (wholeSrc src info.box) (wholeDst dst)
        matrix info.zeroPoint (abgrOrder dst.format.nv2bgrOrder) nv2bgrAlpha)) := by
  have stores : ∀ p ∈ box.pixels, _ := fun p here =>
    part_stores mem clean sized given wanted member found here cfg shape
  obtain ⟨left, top, wide, tall, right, bottom⟩ := sbox_within member
  have width := whole.width
  have height := whole.height
  have places : cfg.dst.sboxX = box.x ∧ cfg.dst.sboxY = box.y ∧ cfg.dst.sboxW = box.w ∧
      cfg.dst.sboxH = box.h := by
    subst shape
    exact ⟨rfl, rfl, rfl, rfl⟩
  -- The part is a run of its own, over the pixels of its destination box.
  rw [bsAffineBoxRgb_paints (by omega) (by omega) (by omega) (by omega) (by omega) (by omega)]
  have pixels : cfg.dst.pixels = box.pixels := by
    rw [BsBox.pixels, BoxInfo.pixels, places.1, places.2.1, places.2.2.1, places.2.2.2]
  rw [pixels]
  exact congrArg (Paint.paint image) (List.flatMap_congr stores)

/-- The parts that a split hands out, one for each destination box. -/
theorem affineBoxSplit_parts
    (split : affineBoxSplit matrix nv2bgrAlpha info src dst coef offset = some cfgs) :
    List.Forall₂ (fun box cfg => ∃ sub, affineCacSubBox matrix box info.wbox = some sub ∧
      cfg = sboxCfg matrix nv2bgrAlpha info src dst coef offset box sub) (dstSboxes dst) cfgs := by
  unfold affineBoxSplit at split
  simp only at split
  split at split
  · apply (Matching.forall₂_mapM split).imp
    intro box cfg mapped
    obtain ⟨sub, found, rfl⟩ := Option.map_eq_some_iff.mp mapped
    exact ⟨sub, found, rfl⟩
  · cases split

/-- A part of the source is there when the corners of its destination box stay below the limit. -/
theorem affineCacSubBox_exists (wbox : BoxInfo)
    (below : ∀ p ∈ box.pixels, fixWhole (source matrix p).1 < s32Max ∧
      fixWhole (source matrix p).2 < s32Max) (wide : 1 ≤ box.w) (tall : 1 ≤ box.h) :
    ∃ sub, affineCacSubBox matrix box wbox = some sub := by
  have corner : ∀ x y : Int, box.x ≤ x → x < box.x + box.w → box.y ≤ y → y < box.y + box.h →
      fixWhole (source matrix (x, y)).1 < s32Max ∧ fixWhole (source matrix (x, y)).2 < s32Max := by
    intro x y left right top bottom
    apply below (x, y)
    rw [BoxInfo.pixels, Raster.mem_columns]
    exact ⟨⟨left, by simp only; omega⟩, top, by simp only; omega⟩
  -- The four corners are pixels of the box.
  have c0 := corner box.x box.y (by omega) (by omega) (by omega) (by omega)
  have c1 := corner (box.x + box.w - 1) box.y (by omega) (by omega) (by omega) (by omega)
  have c2 := corner box.x (box.y + box.h - 1) (by omega) (by omega) (by omega) (by omega)
  have c3 := corner (box.x + box.w - 1) (box.y + box.h - 1) (by omega) (by omega) (by omega)
    (by omega)
  obtain ⟨⟨x, w⟩, horizontal⟩ := (subSide_isSome wbox.w).mpr ⟨c0.1, c1.1, c2.1, c3.1⟩
  obtain ⟨⟨y, h⟩, vertical⟩ := (subSide_isSome wbox.h).mpr ⟨c0.2, c1.2, c2.2, c3.2⟩
  exact ⟨⟨x, y, w, h⟩, affineCacSubBox_sides.mpr ⟨horizontal, vertical⟩⟩

/-- A split under clean taps goes through where its assertions hold. -/
theorem SplitClean.split_exists (nv2bgrAlpha : UInt8) (coef : Fin 9 → UInt32)
    (offset : Fin 2 → UInt32) (clean : SplitClean matrix info dst)
    (asserts : affineBoxAsserts info src dst) :
    ∃ cfgs, affineBoxSplit matrix nv2bgrAlpha info src dst coef offset = some cfgs := by
  unfold affineBoxSplit
  simp only
  rw [if_pos asserts]
  apply Matching.mapM_exists
  intro box member
  -- No pixel of a destination box reaches the limit, so its part of the source is there.
  obtain ⟨_, _, wide, tall, _⟩ := sbox_within member
  obtain ⟨sub, found⟩ := affineCacSubBox_exists info.wbox
    (fun p here => (clean p (sbox_pixels member here)).1) wide.1 tall.1
  exact ⟨_, Option.map_eq_some_iff.mpr ⟨sub, found, rfl⟩⟩

/-- Where a part of the source is there, no pixel of its destination box reaches the limit. -/
theorem affineCacSubBox_below {wbox : BoxInfo}
    (found : affineCacSubBox matrix box wbox = some sub) {p : Point} (here : p ∈ box.pixels) :
    fixWhole (source matrix p).1 < s32Max ∧ fixWhole (source matrix p).2 < s32Max := by
  -- A pixel is not above all corners, and a corner at the limit would have overflowed.
  have below : ∀ {s0 s1 s2 s3 u size : Int}, (∃ part, subSide s0 s1 s2 s3 size = some part) →
      Between s0 s1 s2 s3 u → fixWhole u < s32Max := by
    intro s0 s1 s2 s3 u size part between
    obtain ⟨first, second, third, fourth⟩ := (subSide_isSome size).mp part
    rcases between.whole.below with le | le | le | le
    · exact lt_of_le_of_lt le first
    · exact lt_of_le_of_lt le second
    · exact lt_of_le_of_lt le third
    · exact lt_of_le_of_lt le fourth
  obtain ⟨horizontal, vertical⟩ := affineCacSubBox_sides.mp found
  exact ⟨below ⟨_, horizontal⟩ (between_corners _ _ _ here),
    below ⟨_, vertical⟩ (between_corners _ _ _ here)⟩

/-- A split under clean taps paints what one run paints. -/
theorem affineSplitRgb_paints (clean : SplitClean matrix info dst) (sized : info.box.Sized)
    (whole : dst.Sized) (given : src.format.isRgba) (wanted : dst.format.isRgba)
    (split : affineBoxSplit matrix nv2bgrAlpha info src dst coef offset = some cfgs) :
    affineSplitRgb mem cfgs image = Paint.paint image ((dstSboxes dst).flatMap fun box =>
      box.pixels.flatMap (affineStores mem (wholeSrc src info.box) (wholeDst dst) matrix
        info.zeroPoint (abgrOrder dst.format.nv2bgrOrder) nv2bgrAlpha)) := by
  apply Paint.foldl_parts
  have parts := affineBoxSplit_parts split
  rw [List.forall₂_iff_get] at parts ⊢
  refine ⟨parts.1, fun i first second image => ?_⟩
  obtain ⟨sub, found, shape⟩ := parts.2 i first second
  exact part_paints clean sized whole given wanted (List.get_mem _ _) found _ shape image

/-- One run paints the image pixel by pixel. -/
theorem affineWholeRgb_paints (whole : dst.Sized) :
    affineWholeRgb mem matrix nv2bgrAlpha info src dst image =
      Paint.paint image (dst.pixels.flatMap (affineStores mem (wholeSrc src info.box) (wholeDst dst)
        matrix info.zeroPoint (abgrOrder dst.format.nv2bgrOrder) nv2bgrAlpha)) := by
  have width := whole.width
  have height := whole.height
  exact bsAffineBoxRgb_paints (show 0 ≤ (wholeDst dst).sboxX from le_refl _) (le_refl _)
    (by simp only [wholeDst]; omega) (by simp only [wholeDst]; omega)
    (by simp only [wholeDst]; omega) (by simp only [wholeDst]; omega)

/-- A split under clean taps gives the image of one run. -/
theorem affineSplitRgb_whole (clean : SplitClean matrix info dst) (sized : info.box.Sized)
    (whole : dst.Sized) (given : src.format.isRgba) (wanted : dst.format.isRgba)
    (stride : 4 * dst.width ≤ dst.lineStride)
    (split : affineBoxSplit matrix nv2bgrAlpha info src dst coef offset = some cfgs) :
    affineSplitRgb mem cfgs image = affineWholeRgb mem matrix nv2bgrAlpha info src dst image := by
  -- The parts have the pixels of the image, and no two pixels share a byte.
  have apart : (wholeDst dst).pixels.Pairwise fun p q => ¬ Paint.Clash (affineStores mem
      (wholeSrc src info.box) (wholeDst dst) matrix info.zeroPoint
      (abgrOrder dst.format.nv2bgrOrder) nv2bgrAlpha) p q := rgbStores_apart stride
  rw [affineSplitRgb_paints clean sized whole given wanted split, affineWholeRgb_paints whole,
    ← List.flatMap_assoc]
  exact (Paint.paint_perm dstSboxes_tile.symm apart).symm

/-- The golden model converts a pixel as the parts do. -/
theorem affineWholePoint_eq (dx dy : Int) :
    affineWholePoint matrix dx dy = affineDst2src matrix dx dy := by
  -- The whole part has 16 bits after the clip, and so has the fraction.
  have fraction : ∀ value : Int, u16 (fixFraction value) = fixFraction value := fun value =>
    Int.emod_emod_of_dvd value (dvd_refl _)
  simp only [affineWholePoint, affineDst2src, s16_fixWhole_clip, fraction]

/-- The stores of a pixel in the golden model. -/
def goldenStores (mem : Memory) (src dst : DataInfo) (info : BoxAffineInfo) (matrix : Matrix)
    (p : Point) : List (Int × UInt8) :=
  (List.range 4).map fun k : Nat => (rgbAddress (wholeDst dst) p.1 p.2 k,
    rgbByte mem (goldenSrc src info) info.zeroPoint (affineDst2src matrix p.1 p.2) k)

/-- The golden model paints an image that its counters can go through. -/
theorem affineWholeInt_paints (whole : dst.Sized) : affineWholeInt mem src dst info matrix image =
    some (Paint.paint image (dst.pixels.flatMap (goldenStores mem src dst info matrix))) := by
  have width := whole.width
  have height := whole.height
  have side : ∀ {size : Int}, 1 ≤ size ∧ size ≤ 65535 →
      intCounter 0 size = some (Raster.span 0 size.toNat) := by
    intro size bounds
    have counted := intCounter_side (le_refl 0) (show 0 ≤ size by omega) (by omega)
    rwa [Int.add_zero] at counted
  unfold affineWholeInt DataInfo.pixels Raster.columns
  simp only [side width, side height, affineWholePoint_eq, Option.bind_eq_bind, Option.bind_some]
  rw [List.flatMap_assoc]
  simp only [List.flatMap_map]
  refine Paint.foldlM_paint fun dx _ image => congrArg some ?_
  simp only [goldenStores, rgbAddress, wholeDst, Int.sub_zero]
  exact Paint.foldl_paint _

/-- The golden model ends only where its counters reach the end of both sides. -/
theorem affineWholeInt_ends {golden : Memory} (width : 1 ≤ dst.width)
    (ended : affineWholeInt mem src dst info matrix image = some golden) :
    dst.width ≤ 65535 ∧ dst.height ≤ 65535 := by
  unfold affineWholeInt at ended
  by_cases across : dst.width ≤ 65535
  · refine ⟨across, ?_⟩
    by_contra endless
    -- There is a first column, and the loop over its rows does not end.
    have none : intCounter 0 dst.height = none := if_neg endless
    have first : intCounter 0 dst.width =
        some (0 :: (Raster.span 0 dst.width.toNat).tail) := by
      have counted := intCounter_side (le_refl 0) (show 0 ≤ dst.width by omega) (by omega)
      rw [Int.add_zero] at counted
      obtain ⟨n, size⟩ : ∃ n, dst.width.toNat = n + 1 := ⟨dst.width.toNat - 1, by omega⟩
      rw [counted, size, Raster.span, List.range_succ_eq_map]
      rfl
    simp [first, none] at ended
  · have none : intCounter 0 dst.width = none := if_neg across
    simp [none] at ended

/-- One run and the golden model show the same at every place that holds no alpha byte. -/
theorem affineWholeRgb_golden (whole : dst.Sized) (given : src.format.isRgba)
    (left : info.box.x = 0) (top : info.box.y = 0) {address : Int}
    (colour : ∀ p ∈ dst.pixels,
      address ≠ rgbAddress (wholeDst dst) p.1 p.2 (alphaByte dst.format)) :
    affineWholeRgb mem matrix nv2bgrAlpha info src dst image address =
      Paint.paint image (dst.pixels.flatMap (goldenStores mem src dst info matrix)) address := by
  -- The box starts at the first pixel of the image, where the golden model takes it.
  have source := (DataFormat.isRgba_odd given).1
  have byte : ∀ point, rgbByte mem (wholeSrc src info.box) info.zeroPoint point =
      rgbByte mem (goldenSrc src info) info.zeroPoint point := by
    intro point
    refine rgbByte_congr rfl rfl ?_
    simp only [goldenSrc, wholeSrc, srcWboxBase, if_neg source, left, top]
    ring
  rw [affineWholeRgb_paints whole]
  refine Paint.paint_at_congr fun p member => Paint.filter_map_congr fun k _ => ?_
  -- Only the alpha byte differs, and that is somewhere else.
  by_cases alpha : k = alphaByte dst.format
  · subst alpha
    exact Or.inr ⟨(colour p member).symm, (colour p member).symm⟩
  · refine Or.inl (Prod.ext rfl ?_)
    simp only [byte]
    unfold alphaByte at alpha
    unfold alphaOr
    by_cases order : abgrOrder dst.format.nv2bgrOrder = 0
    · rw [if_pos order] at alpha
      rw [if_neg (fun both => alpha both.2), if_neg (fun both => by omega)]
    · rw [if_neg order] at alpha
      rw [if_neg (fun both => order both.1), if_neg (fun both => alpha both.2)]

/-- The assertions of a split between two images of four-byte pixels. -/
theorem affineBoxAsserts_rgba (given : src.format.isRgba) (wanted : dst.format.isRgba) :
    affineBoxAsserts info src dst := by
  refine ⟨(DataFormat.isRgba_odd given).2.2, ?_⟩
  rintro (source | target)
  · exact absurd source (DataFormat.isRgba_odd given).1
  · exact absurd target (DataFormat.isRgba_odd wanted).1

/-- A box of even width and height has no rim, and up to 32767 pixels a side nothing overflows. -/
theorem splitClean_even (wide : info.box.w % 2 = 0) (tall : info.box.h % 2 = 0)
    (width : dst.width ≤ 32767) (height : dst.height ≤ 32767) : SplitClean matrix info dst := by
  intro p member
  rw [DataInfo.pixels, Raster.mem_columns] at member
  -- A product of 32 and 15 bits, twice, and an offset stay below the limit.
  have below : ∀ scale skew trans : Int32, fixWhole (source64 scale skew trans p.1 p.2) < s32Max := by
    intro scale skew trans
    have first : scale.toInt * p.1 ≤ 2147483647 * 32766 :=
      le_trans (mul_le_mul_of_nonneg_right (by have := scale.toInt_lt; omega) (by omega))
        (mul_le_mul_of_nonneg_left (by omega) (by decide))
    have second : skew.toInt * p.2 ≤ 2147483647 * 32766 :=
      le_trans (mul_le_mul_of_nonneg_right (by have := skew.toInt_lt; omega) (by omega))
        (mul_le_mul_of_nonneg_left (by omega) (by decide))
    have third := trans.toInt_lt
    unfold fixWhole source64 s32Max
    omega
  refine ⟨⟨below _ _ _, below _ _ _⟩, fun c _ right _ bottom => ⟨by omega, by omega⟩⟩

/-- Where the parts look like one run, no pixel has a tap in the rim of the rounded box. -/
theorem SplitInvisible.clean (sized : info.box.Sized)
    (invisible : SplitInvisible matrix nv2bgrAlpha info src dst coef offset) :
    SplitClean matrix info dst := by
  have wsized : info.wbox.Sized := ⟨sized.width, sized.height⟩
  obtain ⟨cfgs, split, _, _, inside⟩ := invisible
  intro p member
  obtain ⟨owned, here⟩ := dstSboxes_reach member
  obtain ⟨cfg, listed, sub, found, rfl⟩ :=
    Matching.forall₂_left (affineBoxSplit_parts split) owned
  refine ⟨affineCacSubBox_below found here, fun c left right top bottom => ?_⟩
  -- A tap in the rounded box is let through by the part, so it must be in the whole box.
  have covered := (sub_covers wsized found here c).mpr ⟨⟨left, right⟩, top, bottom⟩
  have within := inside _ listed p here c
    ((boundCheck_iff (sub_sound wsized found)).mpr covered)
  simp only [BsBox.Covers, wholeSrc, Int.zero_add] at within
  exact ⟨within.1.2, within.2.2⟩

/-- Without taps in the rim of the rounded box, the parts look like one run. -/
theorem SplitClean.invisible (clean : SplitClean matrix info dst) (sized : info.box.Sized)
    (whole : dst.Sized) (given : src.format.isRgba) (wanted : dst.format.isRgba)
    (stride : 4 * dst.width ≤ dst.lineStride) :
    SplitInvisible matrix nv2bgrAlpha info src dst coef offset := by
  obtain ⟨cfgs, split⟩ := clean.split_exists nv2bgrAlpha coef offset
    (affineBoxAsserts_rgba given wanted)
  have equal : ∀ mem image, affineSplitRgb mem cfgs image =
      affineWholeRgb mem matrix nv2bgrAlpha info src dst image := fun mem image =>
    affineSplitRgb_whole clean sized whole given wanted stride split
  refine ⟨cfgs, split, equal, fun mem image => ⟨_, affineWholeInt_paints whole, ?_⟩, ?_⟩
  · intro left top address colour
    rw [equal]
    exact affineWholeRgb_golden whole given left top colour
  · -- Each tap that a part lets through is in the whole box.
    intro cfg listed p here c through
    obtain ⟨box, owned, sub, found, shape⟩ :=
      Matching.forall₂_right (affineBoxSplit_parts split) listed
    have place : p ∈ box.pixels := by
      subst shape
      exact here
    rw [part_bounds clean sized owned found place cfg shape] at through
    exact (boundCheck_iff (whole_sound sized)).mp through

/--
The parts look like one run exactly where no pixel has a tap in the rim of the rounded box.

The counters of the loops reach the end of the image up to 65535 pixels a side.
-/
theorem splitInvisible_iff (matrix : Matrix) (nv2bgrAlpha : UInt8) (info : BoxAffineInfo)
    (src dst : DataInfo) (coef : Fin 9 → UInt32) (offset : Fin 2 → UInt32)
    (sized : info.box.Sized) (width : 1 ≤ dst.width) (height : 1 ≤ dst.height)
    (given : src.format.isRgba) (wanted : dst.format.isRgba)
    (stride : 4 * dst.width ≤ dst.lineStride) :
    SplitInvisible matrix nv2bgrAlpha info src dst coef offset ↔
      SplitClean matrix info dst ∧ dst.width ≤ 65535 ∧ dst.height ≤ 65535 := by
  constructor
  · intro invisible
    obtain ⟨golden, ended, _⟩ := invisible.choose_spec.2.2.1 (fun _ => 0) (fun _ => 0)
    obtain ⟨right, bottom⟩ := affineWholeInt_ends width ended
    exact ⟨invisible.clean sized, right, bottom⟩
  · rintro ⟨clean, right, bottom⟩
    exact clean.invisible sized ⟨⟨width, right⟩, height, bottom⟩ given wanted stride

/-- A box of two by two pixels is cut and put together without a trace. -/
theorem splitInvisible_even : SplitInvisible ![65536, 0, 32768, 0, 65536, 0, 0, 0, 65536] 9
    ⟨⟨0, 0, 2, 2⟩, 0⟩ ⟨64, 0, .bgra, 2, 2, 8⟩ ⟨128, 0, .argb, 70, 2, 280⟩ (fun _ => 0)
    (fun _ => 0) :=
  (splitInvisible_iff _ _ _ _ _ _ _ ⟨by decide, by decide⟩ (by decide) (by decide) (by decide)
    (by decide) (by decide)).mpr ⟨splitClean_even (by decide) (by decide) (by decide) (by decide),
      by decide, by decide⟩

/-- Half a pixel to the right of a box of one pixel, the part reads the pixel behind the box. -/
theorem splitInvisible_odd : ¬ SplitInvisible ![0, 0, 32768, 0, 0, 0, 0, 0, 65536] 0
    ⟨⟨0, 0, 1, 1⟩, 0⟩ ⟨0, 0, .bgra, 1, 1, 8⟩ ⟨0, 0, .bgra, 1, 1, 4⟩ (fun _ => 0) (fun _ => 0) := by
  rintro ⟨cfgs, split, equal, _⟩
  have parts : (some cfgs).map (fun cfgs => affineSplitRgb
      (fun address => if address < 4 then 0 else 255) cfgs (fun _ => 0) 0) = some 128 := by
    rw [← split]
    decide +kernel
  have whole := congrFun (equal (fun address => if address < 4 then 0 else 255) fun _ => 0) 0
  rw [Option.map_some, Option.some.injEq] at parts
  rw [parts] at whole
  revert whole
  decide +kernel

end Aip.Bscaler
