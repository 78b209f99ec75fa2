import Aip.Bscaler.Blend
import Aip.Bscaler.PerspectiveSplit

/-! When a perspective box of four-byte pixels looks the same in one run and cut into parts. -/

namespace Aip.Bscaler

open Raster (Point)

/-- A byte of a pixel from the bytes of its four taps, the zero point standing for those outside. -/
def tapsByte (box : BoxInfo) (zeroPoint : UInt8) (point : SrcPoint) (taps : Fin 4 → UInt8) :
    UInt8 :=
  let shown := fun c => if bilinearBoundCheck box.x box.y box.w box.h point.xp point.yp c then
    zeroPoint else taps c
  bilinearU8 (shown 0) (shown 1) (shown 2) (shown 3) point.xw point.yw

/-- The value of a pixel depends on a tap. -/
def Matters (box : BoxInfo) (zeroPoint : UInt8) (point : SrcPoint) (c : Fin 4) : Prop :=
  ∃ taps value, tapsByte box zeroPoint point (Function.update taps c value) ≠
    tapsByte box zeroPoint point taps

/--
The parts write every pixel, there is at least one of them, and they give the image of one run.
-/
def PerspectiveInvisible (matrix : Matrix) (guides : BoxInfo → Guides) (nv2bgrAlpha : UInt8)
    (info : BoxAffineInfo) (src dst : DataInfo) (coef : Fin 9 → UInt32) (offset : Fin 2 → UInt32) :
    Prop :=
  ∃ cfgs, perspectiveBoxSplit matrix guides nv2bgrAlpha info src dst coef offset = some cfgs ∧
    cfgs ≠ [] ∧ (∀ p ∈ dst.pixels, ∃ cfg ∈ cfgs, p ∈ cfg.dst.pixels) ∧
    ∀ mem image, ∃ final, perspectiveSplitRgb mem cfgs image = some final ∧
      perspectiveWholeRgb mem matrix nv2bgrAlpha info src dst image = some final

/-- The image is narrower than the table, and every destination box has a footprint with what matters. -/
def PerspectiveClean (matrix : Matrix) (info : BoxAffineInfo) (dst : DataInfo) : Prop :=
  dst.width < dstMaxWidth ∧ ∀ box ∈ dstSboxes dst,
    let sub := perspectiveCacSubBox matrix box info.wbox
    (sub.w ≠ 0 ∧ sub.h ≠ 0) ∧ ∀ p ∈ box.pixels, ∀ c,
      Matters info.wbox info.zeroPoint (perspectivePoint matrix p) c →
        bilinearBoundCheck sub.x sub.y sub.w sub.h (perspectivePoint matrix p).xp
          (perspectivePoint matrix p).yp c = false

/-- A source box of even sides that 16 bits hold. -/
structure BoxInfo.EvenSides (box : BoxInfo) : Prop where
  width : 1 ≤ box.w ∧ box.w ≤ 65536 ∧ box.w % 2 = 0
  height : 1 ≤ box.h ∧ box.h ≤ 65536 ∧ box.h % 2 = 0

variable {mem image : Memory} {matrix : Matrix} {guides : BoxInfo → Guides} {nv2bgrAlpha : UInt8}
  {info : BoxAffineInfo} {src dst : DataInfo} {coef : Fin 9 → UInt32} {offset : Fin 2 → UInt32}
  {box sub : BoxInfo} {cfgs : List PerspectiveCfg} {zeroPoint : UInt8} {isAbgrOrder : Nat}
  {point : SrcPoint} {taps : Fin 4 → UInt8} {c : Fin 4}

/-- A side that is not empty lies in a box of even length. -/
theorem footprintSide_within {s0 s1 s2 s3 size : Int} (positive : 1 ≤ size) (even : size % 2 = 0)
    (some : (footprintSide s0 s1 s2 s3 size).2 ≠ 0) :
    0 ≤ (footprintSide s0 s1 s2 s3 size).1 ∧ 1 ≤ (footprintSide s0 s1 s2 s3 size).2 ∧
      (footprintSide s0 s1 s2 s3 size).1 + (footprintSide s0 s1 s2 s3 size).2 ≤ size := by
  obtain ⟨low, high, order, start, spans⟩ := footprintSide_range s0 s1 s2 s3 size
  obtain ⟨_, stop⟩ := spans some
  -- The clipped ends keep their order within the side.
  have ends : 0 ≤ clip low 0 (size - 1) ∧ clip low 0 (size - 1) ≤ clip (high + 1) 0 (size - 1) ∧
      clip (high + 1) 0 (size - 1) ≤ size - 1 := by
    unfold clip
    refine ⟨?_, ?_, ?_⟩ <;> split_ifs <;> omega
  omega

/-- A footprint lies in the whole box. -/
theorem perspectiveCacSubBox_within (even : info.wbox.EvenSides)
    (wide : (perspectiveCacSubBox matrix box info.wbox).w ≠ 0)
    (tall : (perspectiveCacSubBox matrix box info.wbox).h ≠ 0)
    (shape : sub = perspectiveCacSubBox matrix box info.wbox) :
    (0 ≤ sub.x ∧ 1 ≤ sub.w ∧ sub.x + sub.w ≤ info.wbox.w) ∧
      0 ≤ sub.y ∧ 1 ≤ sub.h ∧ sub.y + sub.h ≤ info.wbox.h := by
  subst shape
  exact ⟨footprintSide_within even.width.1 even.width.2.2 wide,
    footprintSide_within even.height.1 even.height.2.2 tall⟩

/-- What a part lets through is in the whole box. -/
theorem part_within (even : info.wbox.EvenSides)
    (wide : (perspectiveCacSubBox matrix box info.wbox).w ≠ 0)
    (tall : (perspectiveCacSubBox matrix box info.wbox).h ≠ 0)
    (shape : sub = perspectiveCacSubBox matrix box info.wbox)
    (through : bilinearBoundCheck sub.x sub.y sub.w sub.h point.xp point.yp c = false) :
    bilinearBoundCheck info.wbox.x info.wbox.y info.wbox.w info.wbox.h point.xp point.yp c =
      false := by
  obtain ⟨⟨left, width, right⟩, top, height, bottom⟩ :=
    perspectiveCacSubBox_within even wide tall shape
  have fits := even.width
  have fits' := even.height
  let part : BsBox := ⟨0, 0, 0, 0, sub.x, sub.y, sub.w, sub.h, 0⟩
  let whole : BsBox := ⟨0, 0, 0, 0, 0, 0, info.wbox.w, info.wbox.h, 0⟩
  -- Both boxes are within 16 bits, so the check is about places.
  have sound : part.Sound :=
    ⟨left, top, width, height, by simp only [part]; omega, by simp only [part]; omega⟩
  have sound' : whole.Sound := ⟨le_refl _, le_refl _, fits.1, fits'.1,
    by simp only [whole]; omega, by simp only [whole]; omega⟩
  have covers := (boundCheck_iff sound).mp through
  apply (boundCheck_iff sound').mpr
  simp only [BsBox.Covers, part, whole] at covers ⊢
  omega

/-- A part gives the bytes of the whole box exactly where it lets through what matters. -/
theorem tapsByte_iff {whole : BoxInfo}
    (within : ∀ c, bilinearBoundCheck sub.x sub.y sub.w sub.h point.xp point.yp c = false →
      bilinearBoundCheck whole.x whole.y whole.w whole.h point.xp point.yp c = false) :
    (∀ taps, tapsByte sub zeroPoint point taps = tapsByte whole zeroPoint point taps) ↔
      ∀ c, Matters whole zeroPoint point c →
        bilinearBoundCheck sub.x sub.y sub.w sub.h point.xp point.yp c = false :=
  blendByte_iff within

/-- The address of a tap's byte in the source. -/
def tapAddress (src : DataInfo) (info : BoxAffineInfo) (point : SrcPoint) (k : Nat) (c : Fin 4) :
    Int :=
  (srcWboxBase src info.box).1 + (point.yp * src.lineStride + point.xp * 4 +
    ![0, 4, src.lineStride, src.lineStride + 4] c + k)

/-- A byte reads the taps where the whole box has them, if the box starts at its own place. -/
theorem rgbByte_taps {one : BsBox} (stride : one.stride0 = src.lineStride)
    (base : one.base0 = (srcWboxBase src info.box).1 + one.sboxY * src.lineStride + one.sboxX * 4)
    (k : Nat) :
    rgbByte mem one zeroPoint point k =
      tapsByte ⟨one.sboxX, one.sboxY, one.sboxW, one.sboxH⟩ zeroPoint point
        fun c => load mem (tapAddress src info point k c) := by
  rw [rgbByte_chn, chnByte_blend (base.trans (by rw [stride]; rfl)), stride]
  rfl

/-- The bytes of the taps are any four values, since no two taps have the same address. -/
theorem taps_any (src : DataInfo) (info : BoxAffineInfo)
    (stride : 8 ≤ src.lineStride ∧ src.lineStride < 2 ^ 31) (point : SrcPoint) (k : Nat)
    (taps : Fin 4 → UInt8) :
    ∃ mem : Memory, (fun c => load mem (tapAddress src info point k c)) = taps := by
  -- The four offsets differ by less than the address space.
  have apart : ∀ c d, tapAddress src info point k c % 4294967296 =
      tapAddress src info point k d % 4294967296 → c = d := by
    intro c d same
    simp only [tapAddress] at same
    generalize (srcWboxBase src info.box).1 = base at same
    generalize point.yp * src.lineStride + point.xp * 4 = offset at same
    match c, d with
    | 0, 0 | 1, 1 | 2, 2 | 3, 3 => rfl
    | 0, 1 | 0, 2 | 0, 3 | 1, 0 | 1, 2 | 1, 3 | 2, 0 | 2, 1 | 2, 3 | 3, 0 | 3, 1 | 3, 2 =>
      simp only [Matrix.cons_val] at same
      omega
  refine ⟨fun address => if address = tapAddress src info point k 0 % 4294967296 then taps 0
    else if address = tapAddress src info point k 1 % 4294967296 then taps 1
    else if address = tapAddress src info point k 2 % 4294967296 then taps 2
    else taps 3, ?_⟩
  have differ : ∀ c d, c ≠ d → tapAddress src info point k c % 4294967296 ≠
      tapAddress src info point k d % 4294967296 := fun c d differ same => differ (apart c d same)
  funext c
  match c with
  | 0 => simp [load]
  | 1 => simp [load, differ 1 0]
  | 2 => simp [load, differ 2 0, differ 2 1]
  | 3 => simp [load, differ 3 0, differ 3 1, differ 3 2]

/-- The configuration of a destination box that has a footprint. -/
def partCfg (matrix : Matrix) (guides : BoxInfo → Guides) (nv2bgrAlpha : UInt8)
    (info : BoxAffineInfo) (src dst : DataInfo) (coef : Fin 9 → UInt32) (offset : Fin 2 → UInt32)
    (box : BoxInfo) : PerspectiveCfg :=
  { sboxCfg matrix nv2bgrAlpha info src dst coef offset box
      (perspectiveCacSubBox matrix box info.wbox) with guides := guides box }

/-- The stores of the image's pixels, with the given bytes. -/
def imageStores (dst : DataInfo) (nv2bgrAlpha : UInt8) (bytes : Point → Nat → UInt8) (p : Point) :
    List (Int × UInt8) :=
  rgbStores (wholeDst dst) (abgrOrder dst.format.nv2bgrOrder) nv2bgrAlpha p.1 p.2 (bytes p)

/-- The byte of a pixel from the part it belongs to. -/
def partByte (mem : Memory) (matrix : Matrix) (info : BoxAffineInfo) (src dst : DataInfo)
    (p : Point) (k : Nat) : UInt8 :=
  tapsByte (perspectiveCacSubBox matrix (ownerSbox dst p) info.wbox) info.zeroPoint
    (perspectivePoint matrix p) fun c => load mem (tapAddress src info (perspectivePoint matrix p) k c)

/-- The byte of a pixel from the whole box. -/
def wholeByte (mem : Memory) (matrix : Matrix) (info : BoxAffineInfo) (src : DataInfo) (p : Point)
    (k : Nat) : UInt8 :=
  tapsByte info.wbox info.zeroPoint (perspectivePoint matrix p)
    fun c => load mem (tapAddress src info (perspectivePoint matrix p) k c)

/-- The plain box paints its pixels in any order. -/
theorem bsPerspectiveBoxRgbSimple_columns {one target : BsBox} (left : 0 ≤ target.sboxX)
    (top : 0 ≤ target.sboxY) (width : 0 ≤ target.sboxW) (height : 0 ≤ target.sboxH)
    (right : target.sboxX + target.sboxW ≤ 65535) (bottom : target.sboxY + target.sboxH ≤ 65535)
    (stride : 4 * target.sboxW ≤ target.stride0) :
    bsPerspectiveBoxRgbSimple mem one target matrix zeroPoint isAbgrOrder nv2bgrAlpha image =
      some (Paint.paint image (target.pixels.flatMap
        (perspectiveStores mem one target matrix zeroPoint isAbgrOrder nv2bgrAlpha))) := by
  rw [bsPerspectiveBoxRgbSimple_paints mem image one matrix zeroPoint isAbgrOrder nv2bgrAlpha left
    top width height right bottom]
  have rows : (Raster.rows target.sboxX target.sboxW.toNat target.sboxY target.sboxH.toNat).Perm
      target.pixels := Raster.rows_perm_columns
  -- Different pixels have stores that do not touch, so their order does not matter.
  have apart : target.pixels.Pairwise fun p q => ¬ Paint.Clash (perspectiveStores mem one target
    matrix zeroPoint isAbgrOrder nv2bgrAlpha) p q := rgbStores_apart stride
  exact congrArg some (Paint.paint_perm rows.symm apart).symm

/-- One run over the whole box. -/
theorem perspectiveWholeRgb_paints (whole : dst.Sized) (given : src.format.isRgba)
    (stride : 4 * dst.width ≤ dst.lineStride) :
    perspectiveWholeRgb mem matrix nv2bgrAlpha info src dst image =
      some (Paint.paint image (dst.pixels.flatMap
        (imageStores dst nv2bgrAlpha (wholeByte mem matrix info src)))) := by
  have width := whole.width
  have height := whole.height
  have source := (DataFormat.isRgba_odd given).1
  have byte : ∀ p k, rgbByte mem (wholeSrc src info.box) info.zeroPoint (perspectivePoint matrix p) k =
      wholeByte mem matrix info src p k := fun p k =>
    rgbByte_taps rfl (by simp [wholeSrc]) k
  rw [perspectiveWholeRgb, bsPerspectiveBoxRgbSimple_columns (le_refl _) (le_refl _)
    (by simp only [wholeDst]; omega) (by simp only [wholeDst]; omega)
    (by simp only [wholeDst]; omega) (by simp only [wholeDst]; omega) stride]
  refine congrArg (fun stores => some (Paint.paint image stores)) (List.flatMap_congr fun p _ => ?_)
  simp only [perspectiveStores, imageStores]
  exact congrArg _ (funext (byte p))

/-- The run over one part. -/
theorem perspectivePart_paints (whole : dst.Sized) (given : src.format.isRgba)
    (wanted : dst.format.isRgba) (stride : 4 * dst.width ≤ dst.lineStride)
    (member : box ∈ dstSboxes dst) (cfg : PerspectiveCfg)
    (shape : cfg = partCfg matrix guides nv2bgrAlpha info src dst coef offset box) (image : Memory) :
    bsPerspectiveBoxRgbSimple mem cfg.src cfg.dst cfg.matrix cfg.zeroPoint
        (abgrOrder cfg.dstFormat.nv2bgrOrder) cfg.nv2bgrAlpha image =
      some (Paint.paint image (box.pixels.flatMap
        (imageStores dst nv2bgrAlpha (partByte mem matrix info src dst)))) := by
  subst shape
  obtain ⟨left, top, wide, tall, right, bottom⟩ := sbox_within member
  have width := whole.width
  have height := whole.height
  have source := (DataFormat.isRgba_odd given).1
  rw [bsPerspectiveBoxRgbSimple_columns left top (show 0 ≤ box.w by omega) (show 0 ≤ box.h by omega)
    (show box.x + box.w ≤ 65535 by omega) (show box.y + box.h ≤ 65535 by omega)
    (show 4 * box.w ≤ dst.lineStride by omega)]
  refine congrArg (fun stores => some (Paint.paint image stores)) (List.flatMap_congr fun p here => ?_)
  have owner := sbox_owner member here
  -- The bounds are those of the part that owns the pixel.
  have byte : ∀ k, rgbByte mem (sboxCfg matrix nv2bgrAlpha info src dst coef offset box
      (perspectiveCacSubBox matrix box info.wbox)).src info.zeroPoint (perspectivePoint matrix p) k =
      partByte mem matrix info src dst p k := by
    intro k
    rw [partByte, owner]
    exact rgbByte_taps rfl (by simp only [sboxCfg, BscHwOnceCfg.src, if_neg source]) k
  simp only [perspectiveStores, imageStores]
  exact (part_rgbStores wanted _ _ p _ _).trans (congrArg _ (funext byte))

/-- The runs over all parts. -/
theorem perspectiveSplitRgb_paints (whole : dst.Sized) (given : src.format.isRgba)
    (wanted : dst.format.isRgba) (stride : 4 * dst.width ≤ dst.lineStride) :
    perspectiveSplitRgb mem ((dstSboxes dst).map (partCfg matrix guides nv2bgrAlpha info src dst coef
        offset)) image =
      some (Paint.paint image (dst.pixels.flatMap
        (imageStores dst nv2bgrAlpha (partByte mem matrix info src dst)))) := by
  have each : List.Forall₂ (fun (box : BoxInfo) (cfg : PerspectiveCfg) => ∀ image,
      bsPerspectiveBoxRgbSimple mem cfg.src cfg.dst cfg.matrix cfg.zeroPoint
        (abgrOrder cfg.dstFormat.nv2bgrOrder) cfg.nv2bgrAlpha image =
      some (Paint.paint image (box.pixels.flatMap
        (imageStores dst nv2bgrAlpha (partByte mem matrix info src dst)))))
      (dstSboxes dst) ((dstSboxes dst).map (partCfg matrix guides nv2bgrAlpha info src dst coef
        offset)) := by
    rw [List.forall₂_map_right_iff, List.forall₂_same]
    exact fun box member => perspectivePart_paints whole given wanted stride member _ rfl
  rw [perspectiveSplitRgb, Paint.foldlM_parts each, ← List.flatMap_assoc]
  -- The parts have the pixels of the image, and no two pixels share a byte.
  have apart : (wholeDst dst).pixels.Pairwise fun p q => ¬ Paint.Clash (imageStores dst nv2bgrAlpha
    (partByte mem matrix info src dst)) p q := rgbStores_apart stride
  exact congrArg some (Paint.paint_perm dstSboxes_tile.symm apart).symm

/-- A byte of a pixel that is not alpha is shown in the image. -/
theorem image_shows {bytes : Point → Nat → UInt8} (stride : 4 * dst.width ≤ dst.lineStride)
    {p : Point} (member : p ∈ dst.pixels) :
    Paint.paint image (dst.pixels.flatMap (imageStores dst nv2bgrAlpha bytes))
      (rgbAddress (wholeDst dst) p.1 p.2 1) = bytes p 1 := by
  have colour : ∀ order alpha value, alphaOr order alpha 1 value = value := by
    intro order alpha value
    simp [alphaOr]
  refine Paint.paint_uniform ?_ ?_
  · refine ⟨(rgbAddress (wholeDst dst) p.1 p.2 1, bytes p 1),
      List.mem_flatMap.mpr ⟨p, member, ?_⟩, rfl⟩
    rw [imageStores, rgbStores, List.mem_map]
    exact ⟨1, by decide, by rw [colour]⟩
  · intro store listed same
    obtain ⟨q, there, among⟩ := List.mem_flatMap.mp listed
    rw [imageStores, rgbStores, List.mem_map] at among
    obtain ⟨k, small, rfl⟩ := among
    rw [List.mem_range] at small
    -- The address says the row, the column and the byte.
    simp only [DataInfo.pixels, Raster.mem_columns] at member there
    have offset : (q.2 - 0) * dst.lineStride + ((q.1 - 0) * 4 + k) =
        (p.2 - 0) * dst.lineStride + ((p.1 - 0) * 4 + 1) := by
      simp only [rgbAddress, wholeDst] at same
      omega
    have rows := Raster.offset_unique (by omega) (by omega) offset
    have first : k = 1 := by omega
    have equal : q = p := Prod.ext (by omega) (by omega)
    subst first equal
    exact colour _ _ _

/-- Where every destination box has a footprint, there is a configuration for each. -/
theorem perspectiveBoxSplit_full (guides : BoxInfo → Guides) (nv2bgrAlpha : UInt8)
    (coef : Fin 9 → UInt32) (offset : Fin 2 → UInt32) (asserts : affineBoxAsserts info src dst)
    (narrow : dst.width < dstMaxWidth) (some : ∀ box ∈ dstSboxes dst,
      (perspectiveCacSubBox matrix box info.wbox).w ≠ 0 ∧
        (perspectiveCacSubBox matrix box info.wbox).h ≠ 0) :
    perspectiveBoxSplit matrix guides nv2bgrAlpha info src dst coef offset =
      .some ((dstSboxes dst).map (partCfg matrix guides nv2bgrAlpha info src dst coef offset)) := by
  unfold perspectiveBoxSplit
  rw [if_pos ⟨asserts, narrow⟩, ← List.filterMap_eq_map]
  exact congrArg _ (List.filterMap_congr fun box member => if_pos (some box member))

/-- A configuration is one of a destination box with a footprint. -/
theorem perspectiveBoxSplit_mem
    (split : perspectiveBoxSplit matrix guides nv2bgrAlpha info src dst coef offset = some cfgs) :
    (affineBoxAsserts info src dst ∧ dst.width < dstMaxWidth) ∧ ∀ cfg ∈ cfgs, ∃ box ∈ dstSboxes dst,
      ((perspectiveCacSubBox matrix box info.wbox).w ≠ 0 ∧
        (perspectiveCacSubBox matrix box info.wbox).h ≠ 0) ∧
      cfg = partCfg matrix guides nv2bgrAlpha info src dst coef offset box := by
  unfold perspectiveBoxSplit at split
  simp only [Option.ite_none_right_eq_some, Option.some.injEq] at split
  obtain ⟨asserted, rfl⟩ := split
  refine ⟨asserted, fun cfg listed => ?_⟩
  obtain ⟨box, member, built⟩ := List.mem_filterMap.mp listed
  simp only [Option.ite_none_right_eq_some, Option.some.injEq] at built
  exact ⟨box, member, built.1, built.2.symm⟩

/-- Where every pixel is written, every destination box has a footprint. -/
theorem footprints_of_written
    (split : perspectiveBoxSplit matrix guides nv2bgrAlpha info src dst coef offset = some cfgs)
    (written : ∀ p ∈ dst.pixels, ∃ cfg ∈ cfgs, p ∈ cfg.dst.pixels) : ∀ box ∈ dstSboxes dst,
      (perspectiveCacSubBox matrix box info.wbox).w ≠ 0 ∧
        (perspectiveCacSubBox matrix box info.wbox).h ≠ 0 := by
  intro box member
  obtain ⟨_, _, wide, tall, _⟩ := sbox_within member
  have corner : ((box.x, box.y) : Point) ∈ box.pixels := by
    rw [BoxInfo.pixels, Raster.mem_columns]
    simp only
    omega
  obtain ⟨cfg, listed, here⟩ := written _ (sbox_pixels member corner)
  obtain ⟨other, among, footprint, rfl⟩ := (perspectiveBoxSplit_mem split).2 cfg listed
  -- The box that writes the corner is the one that the corner belongs to.
  have same : other = box := (sbox_owner among here).symm.trans (sbox_owner member corner)
  exact same ▸ footprint

/-- Where the parts look like one run, no part leaves out what matters. -/
theorem PerspectiveInvisible.clean (even : info.wbox.EvenSides) (whole : dst.Sized)
    (given : src.format.isRgba) (wanted : dst.format.isRgba)
    (stride : 4 * dst.width ≤ dst.lineStride)
    (rows : 8 ≤ src.lineStride ∧ src.lineStride < 2 ^ 31)
    (invisible : PerspectiveInvisible matrix guides nv2bgrAlpha info src dst coef offset) :
    PerspectiveClean matrix info dst := by
  obtain ⟨cfgs, split, _, written, equal⟩ := invisible
  obtain ⟨asserts, narrow⟩ := (perspectiveBoxSplit_mem split).1
  have footprints := footprints_of_written split written
  rw [perspectiveBoxSplit_full _ _ _ _ asserts narrow footprints, Option.some.injEq] at split
  subst split
  refine ⟨narrow, fun box member => ⟨footprints box member, fun p here => ?_⟩⟩
  have footprint := footprints box member
  refine (tapsByte_iff fun c => part_within even footprint.1 footprint.2 rfl).mp fun taps => ?_
  -- A memory that holds these taps is shown alike by the parts and by one run.
  obtain ⟨mem, is⟩ := taps_any src info rows (perspectivePoint matrix p) 1 taps
  obtain ⟨final, parts, one⟩ := equal mem fun _ => 0
  rw [perspectiveSplitRgb_paints whole given wanted stride, Option.some.injEq] at parts
  rw [perspectiveWholeRgb_paints whole given stride, ← parts, Option.some.injEq] at one
  have inside := sbox_pixels member here
  have shown := congrFun one (rgbAddress (wholeDst dst) p.1 p.2 1)
  rw [image_shows stride inside, image_shows stride inside] at shown
  simp only [partByte, wholeByte, is, sbox_owner member here] at shown
  exact shown.symm

/-- Where no part leaves out what matters, the parts look like one run. -/
theorem PerspectiveClean.invisible (clean : PerspectiveClean matrix info dst)
    (even : info.wbox.EvenSides) (whole : dst.Sized) (given : src.format.isRgba)
    (wanted : dst.format.isRgba) (stride : 4 * dst.width ≤ dst.lineStride) :
    PerspectiveInvisible matrix guides nv2bgrAlpha info src dst coef offset := by
  obtain ⟨narrow, boxes⟩ := clean
  have full := perspectiveBoxSplit_full guides nv2bgrAlpha coef offset
    (affineBoxAsserts_rgba given wanted) narrow fun box member => (boxes box member).1
  have written : ∀ p ∈ dst.pixels, ∃ cfg ∈ (dstSboxes dst).map
      (partCfg matrix guides nv2bgrAlpha info src dst coef offset), p ∈ cfg.dst.pixels := by
    intro p member
    obtain ⟨owned, here⟩ := dstSboxes_reach member
    exact ⟨_, List.mem_map_of_mem owned, here⟩
  refine ⟨_, full, ?_, written, fun mem image => ?_⟩
  · -- There is a first pixel, and a configuration writes it.
    have width := whole.width
    have height := whole.height
    have first : ((0, 0) : Point) ∈ dst.pixels := by
      rw [DataInfo.pixels, Raster.mem_columns]
      simp only
      omega
    obtain ⟨cfg, listed, _⟩ := written _ first
    exact List.ne_nil_of_mem listed
  · refine ⟨_, perspectiveSplitRgb_paints whole given wanted stride, ?_⟩
    rw [perspectiveWholeRgb_paints whole given stride]
    refine congrArg (fun stores => some (Paint.paint image stores))
      (List.flatMap_congr fun p member => ?_)
    obtain ⟨owned, here⟩ := dstSboxes_reach member
    obtain ⟨footprint, through⟩ := boxes _ owned
    have same := (tapsByte_iff fun c => part_within even footprint.1 footprint.2 rfl).mpr
      (through p here)
    have bytes : wholeByte mem matrix info src p = partByte mem matrix info src dst p :=
      funext fun k => (same _).symm
    simp only [imageStores, bytes]

end Aip.Bscaler
