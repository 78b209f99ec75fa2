import Aip.Bscaler.Nv12Laws
import Aip.Bscaler.SplitRgb

/-! An affine box from NV12 looks the same in one run and cut into parts. -/

namespace Aip.Bscaler

open Raster (Point)

/-- `bs_affine_box` on each configuration in turn, each with what its buffer happens to hold. -/
def affineSplit (mem : Memory) (leftover : BscHwOnceCfg → Memory) (cfgs : List BscHwOnceCfg)
    (image : Memory) : Option Memory :=
  cfgs.foldlM (fun image cfg => bsAffineBox mem cfg.src cfg.dst cfg.matrix cfg.coef cfg.offset
    cfg.nv2bgrAlpha cfg.dstFormat.nv2bgrOrder cfg.zeroPoint (leftover cfg) image) image

/-- One run over the whole box: the conversion of the source, and the plain loops over the image. -/
def affineWhole (mem : Memory) (matrix : Matrix) (nv2bgrAlpha : UInt8) (info : BoxAffineInfo)
    (src dst : DataInfo) (coef : Fin 9 → UInt32) (offset : Fin 2 → UInt32)
    (leftover image : Memory) : Option Memory :=
  let whole := wholeSrc src info.box
  let offset := fun i => (offset i).toUInt8
  if dst.format = .nv12 then
    bsAffineBoxNv12ToNv12 mem whole (wholeDst dst) matrix offset leftover image
  else
    (nv12ToRgb mem whole (rgbBox whole) dst.format.nv2bgrOrder coef offset nv2bgrAlpha
      leftover).map fun buffer => bsAffineBoxRgb buffer (rgbBox whole) (wholeDst dst) matrix
        info.zeroPoint (abgrOrder dst.format.nv2bgrOrder) nv2bgrAlpha image

/-- The parts give the image of one run, whatever the buffers of the conversions hold before. -/
def AffineInvisible (matrix : Matrix) (nv2bgrAlpha : UInt8) (info : BoxAffineInfo)
    (src dst : DataInfo) (coef : Fin 9 → UInt32) (offset : Fin 2 → UInt32) : Prop :=
  ∃ cfgs, affineBoxSplit matrix nv2bgrAlpha info src dst coef offset = some cfgs ∧
    ∀ mem image leftover before, ∃ final,
      affineSplit mem leftover cfgs image = some final ∧
        affineWhole mem matrix nv2bgrAlpha info src dst coef offset before image = some final

/-- An NV12 box of even sides, with pixels, that starts at an even place. -/
structure BoxInfo.Even (box : BoxInfo) : Prop where
  left : box.x % 2 = 0
  top : box.y % 2 = 0
  width : box.w % 2 = 0 ∧ 2 ≤ box.w ∧ box.w ≤ 32766
  height : box.h % 2 = 0 ∧ 2 ≤ box.h ∧ box.h ≤ 32766

/-- An image of at most 32767 pixels a side whose rows, with all their chroma bytes, fit its stride. -/
structure DataInfo.Fits (dst : DataInfo) : Prop where
  width : 1 ≤ dst.width ∧ dst.width ≤ 32767
  height : 1 ≤ dst.height ∧ dst.height ≤ 32767
  stride : (if dst.format = .nv12 then dst.width + dst.width % 2 else 4 * dst.width) ≤ dst.lineStride

variable {mem image leftover before : Memory} {matrix : Matrix} {nv2bgrAlpha zero : UInt8}
  {info : BoxAffineInfo} {src dst : DataInfo} {coef : Fin 9 → UInt32} {offset : Fin 2 → UInt32}
  {box sub : BoxInfo} {cfgs : List BscHwOnceCfg} {p q : Point}

theorem BoxInfo.Even.sized (even : box.Even) : box.Sized := by
  have width := even.width
  have height := even.height
  exact ⟨by omega, by omega⟩

theorem DataInfo.Fits.sized (fits : dst.Fits) : dst.Sized := by
  have width := fits.width
  have height := fits.height
  exact ⟨by omega, by omega⟩

/-- An even box has no taps in a rounded rim. -/
theorem BoxInfo.Even.clean (even : info.box.Even) (fits : dst.Fits) :
    SplitClean matrix info dst :=
  splitClean_even even.width.1 even.height.1 fits.width.2 fits.height.2

/-- A box within 32767 by 32767 pixels has a buffer that can be addressed. -/
theorem addressed_of_le {src : BsBox} (width : 0 ≤ src.sboxW ∧ src.sboxW ≤ 32766)
    (height : 0 ≤ src.sboxH ∧ src.sboxH ≤ 32766) : src.Addressed where
  width := width.1
  height := height.1
  room := by
    have area := mul_le_mul width.2 height.2 height.1 (by decide)
    omega

/-- A part of an even box is an even box within it. -/
theorem part_even (even : info.box.Even) (found : affineCacSubBox matrix box info.wbox = some sub) :
    (0 ≤ sub.x ∧ 1 ≤ sub.w ∧ sub.x % 2 = 0 ∧ sub.w % 2 = 0 ∧ sub.x + sub.w ≤ info.box.w) ∧
      0 ≤ sub.y ∧ 1 ≤ sub.h ∧ sub.y % 2 = 0 ∧ sub.h % 2 = 0 ∧ sub.y + sub.h ≤ info.box.h := by
  have sized : info.wbox.Sized := ⟨even.sized.width, even.sized.height⟩
  have within := sub_within sized found
  have width := even.width.1
  have height := even.height.1
  simp only [BoxAffineInfo.wbox] at within
  omega

/-- A pixel has one luma byte, whether its place is counted from a part or from the whole box. -/
theorem nv12Luma_part (given : src.format = .nv12) (x y : Int) :
    nv12Luma mem (sboxCfg matrix nv2bgrAlpha info src dst coef offset box sub).src (x - sub.x)
        (y - sub.y) =
      nv12Luma mem (wholeSrc src info.box) x y := by
  unfold nv12Luma
  apply congrArg (load mem)
  simp only [sboxCfg, BscHwOnceCfg.src, wholeSrc, if_pos given]
  ring

/-- A part starts at an even place, so its pixels have the chroma bytes that they have in the whole. -/
theorem nv12Chroma_part (even : info.box.Even) (given : src.format = .nv12)
    (found : affineCacSubBox matrix box info.wbox = some sub) (b x y : Int) :
    nv12Chroma mem (sboxCfg matrix nv2bgrAlpha info src dst coef offset box sub).src b (x - sub.x)
        (y - sub.y) =
      nv12Chroma mem (wholeSrc src info.box) b x y := by
  obtain ⟨⟨_, _, column, _⟩, _, _, row, _⟩ := part_even even found
  -- Halving commutes with the difference, since the part starts at an even place.
  have halfX : (x - sub.x) / 2 = x / 2 - sub.x / 2 := by omega
  have halfY : (y - sub.y) / 2 = y / 2 - sub.y / 2 := by omega
  have whole : sub.x = 2 * (sub.x / 2) := by omega
  unfold nv12Chroma
  apply congrArg (load mem)
  simp only [sboxCfg, BscHwOnceCfg.src, wholeSrc, if_pos given, halfX, halfY]
  linear_combination whole

/-- A pixel of a part lies between the same source pixels as in one run. -/
theorem sampled_part (even : info.box.Even) (fits : dst.Fits) (member : box ∈ dstSboxes dst)
    (found : affineCacSubBox matrix box info.wbox = some sub) (here : p ∈ box.pixels)
    {part whole : Int → Int → UInt8} (same : ∀ x y, part (x - sub.x) (y - sub.y) = whole x y) :
    sampled (sboxCfg matrix nv2bgrAlpha info src dst coef offset box sub).src matrix zero part p =
      sampled (wholeSrc src info.box) matrix zero whole p := by
  -- The part lets the same taps through, and a tap has the same value in both.
  have bounds := part_bounds (even.clean fits) even.sized member found here
    (sboxCfg matrix nv2bgrAlpha info src dst coef offset box sub) rfl
  have values : (fun q : Point =>
      part (q.1 - (sboxCfg matrix nv2bgrAlpha info src dst coef offset box sub).src.sboxX)
        (q.2 - (sboxCfg matrix nv2bgrAlpha info src dst coef offset box sub).src.sboxY)) =
      fun q : Point => whole (q.1 - (wholeSrc src info.box).sboxX)
        (q.2 - (wholeSrc src info.box).sboxY) := by
    funext q
    simp only [sboxCfg, BscHwOnceCfg.src, wholeSrc, Int.sub_zero]
    exact same q.1 q.2
  unfold sampled
  simp only
  rw [values, funext bounds]

/-- A destination box starts at an even place. -/
theorem sbox_even (member : box ∈ dstSboxes dst) : box.x % 2 = 0 ∧ box.y % 2 = 0 := by
  obtain ⟨i, _, j, _, rfl⟩ := mem_dstSboxes.mp member
  simp only [bsAffineSize]
  omega

/-- A part stores the bytes of an NV12 pixel where one run stores them. -/
theorem part_nv12Stores (target : dst.format = .nv12) (lone : dst.base1 = 0)
    (member : box ∈ dstSboxes dst) (p : Point) (yVal uVal vVal : UInt8) :
    nv12Stores (sboxCfg matrix nv2bgrAlpha info src dst coef offset box sub).dst p.1 p.2 yVal uVal
        vVal =
      nv12Stores (wholeDst dst) p.1 p.2 yVal uVal vVal := by
  -- The box starts at an even place, which halves without a rest.
  obtain ⟨column, row⟩ := sbox_even member
  have halfX : (p.1 - box.x) / 2 = p.1 / 2 - box.x / 2 := by omega
  have halfY : (p.2 - box.y) / 2 = p.2 / 2 - box.y / 2 := by omega
  have whole : box.x = 2 * (box.x / 2) := by omega
  have luma : dst.base + box.y * dst.lineStride + box.x +
      ((p.2 - box.y) * dst.lineStride + (p.1 - box.x)) =
      dst.base + (p.2 * dst.lineStride + p.1) := by
    ring
  have chroma : ∀ b : Int, dst.base + dst.height * dst.lineStride + box.y / 2 * dst.lineStride +
      box.x + ((p.2 / 2 - box.y / 2) * dst.lineStride + (p.1 / 2 - box.x / 2) * 2 + b) =
      dst.base + dst.height * dst.lineStride + (p.2 / 2 * dst.lineStride + p.1 / 2 * 2 + b) := by
    intro b
    linear_combination whole
  have first := chroma 0
  simp only [Int.add_zero] at first
  unfold nv12Stores
  simp only [sboxCfg, BscHwOnceCfg.dst, wholeDst, target, lone, if_true, Int.sub_zero, halfX,
    halfY, luma, first, chroma 1]

/-- The matrix of an affine box. -/
structure Affine (matrix : Matrix) : Prop where
  column : matrix mpersp0 = 0
  row : matrix mpersp1 = 0
  unit : matrix mpersp2 = 65536

theorem Affine.plain (affine : Affine matrix) : isPerspective matrix = false := by
  simp [isPerspective, affine.column, affine.row, affine.unit]

/-- The source of a part is a box of 16-bit places whose buffer can be addressed. -/
theorem part_source (nv2bgrAlpha : UInt8) (src dst : DataInfo) (coef : Fin 9 → UInt32)
    (offset : Fin 2 → UInt32) (even : info.box.Even)
    (found : affineCacSubBox matrix box info.wbox = some sub) :
    (sboxCfg matrix nv2bgrAlpha info src dst coef offset box sub).src.Sound ∧
      (sboxCfg matrix nv2bgrAlpha info src dst coef offset box sub).src.Origin ∧
      (sboxCfg matrix nv2bgrAlpha info src dst coef offset box sub).src.Addressed := by
  obtain ⟨column, row⟩ := part_even even found
  have width := even.width
  have height := even.height
  have sized : info.wbox.Sized := ⟨even.sized.width, even.sized.height⟩
  exact ⟨sub_sound sized found,
    ⟨⟨column.1, by simp only [sboxCfg, BscHwOnceCfg.src]; omega⟩,
      row.1, by simp only [sboxCfg, BscHwOnceCfg.src]; omega⟩,
    addressed_of_le (by simp only [sboxCfg, BscHwOnceCfg.src]; omega)
      (by simp only [sboxCfg, BscHwOnceCfg.src]; omega)⟩

/-- A part from NV12 to NV12 paints what one run paints in its pixels. -/
theorem part_nv12 (affine : Affine matrix) (even : info.box.Even) (fits : dst.Fits)
    (given : src.format = .nv12) (target : dst.format = .nv12) (lone : dst.base1 = 0)
    (member : box ∈ dstSboxes dst) (found : affineCacSubBox matrix box info.wbox = some sub)
    (cfg : BscHwOnceCfg)
    (shape : cfg = sboxCfg matrix nv2bgrAlpha info src dst coef offset box sub)
    (leftover image : Memory) :
    bsAffineBox mem cfg.src cfg.dst cfg.matrix cfg.coef cfg.offset cfg.nv2bgrAlpha
        cfg.dstFormat.nv2bgrOrder cfg.zeroPoint leftover image =
      some (Paint.paint image ((Raster.rows box.x box.w.toNat box.y box.h.toNat).flatMap
        (nv12Sampled mem (wholeSrc src info.box) (wholeDst dst) matrix
          fun i => (offset i).toUInt8))) := by
  subst shape
  obtain ⟨sound, origin, addressed⟩ := part_source nv2bgrAlpha src dst coef offset even found
  obtain ⟨left, top, wide, tall, right, bottom⟩ := sbox_within member
  have width := fits.width
  have height := fits.height
  have formats : (sboxCfg matrix nv2bgrAlpha info src dst coef offset box sub).src.format = 0 ∧
      (sboxCfg matrix nv2bgrAlpha info src dst coef offset box sub).dst.format = 0 := by
    simp only [sboxCfg, BscHwOnceCfg.src, BscHwOnceCfg.dst, given, target]
    decide
  -- The part is a run of its own, so its law gives the stores; the samples are those of the whole.
  have painted := bsAffineBoxNv12ToNv12_paints mem leftover image
    (sboxCfg matrix nv2bgrAlpha info src dst coef offset box sub).dst
    (fun i => (offset i).toUInt8) affine.plain sound addressed left top
    (by simp only [sboxCfg, BscHwOnceCfg.dst]; omega)
    (by simp only [sboxCfg, BscHwOnceCfg.dst]; omega)
    (by simp only [sboxCfg, BscHwOnceCfg.dst]; omega)
    (by simp only [sboxCfg, BscHwOnceCfg.dst]; omega)
  rw [bsAffineBox, if_pos formats]
  refine painted.trans (congrArg (fun stores => some (Paint.paint image stores))
    (List.flatMap_congr fun p here => ?_))
  have inside : p ∈ box.pixels := Raster.rows_perm_columns.subset here
  rw [nv12Sampled, part_nv12Stores target lone member,
    sampled_part even fits member found inside (nv12Luma_part given),
    sampled_part even fits member found inside (nv12Chroma_part even given found 0),
    sampled_part even fits member found inside (nv12Chroma_part even given found 1)]
  rfl

/-- A part from NV12 to four bytes paints what one run paints in its pixels. -/
theorem part_rgba (affine : Affine matrix) (even : info.box.Even) (fits : dst.Fits)
    (given : src.format = .nv12) (wanted : dst.format.isRgba)
    (member : box ∈ dstSboxes dst) (found : affineCacSubBox matrix box info.wbox = some sub)
    (cfg : BscHwOnceCfg)
    (shape : cfg = sboxCfg matrix nv2bgrAlpha info src dst coef offset box sub)
    (leftover image : Memory) :
    bsAffineBox mem cfg.src cfg.dst cfg.matrix cfg.coef cfg.offset cfg.nv2bgrAlpha
        cfg.dstFormat.nv2bgrOrder cfg.zeroPoint leftover image =
      some (Paint.paint image (box.pixels.flatMap (rgbaSampled mem (wholeSrc src info.box)
        (wholeDst dst) matrix coef (fun i => (offset i).toUInt8) nv2bgrAlpha dst.format.nv2bgrOrder
        info.zeroPoint))) := by
  subst shape
  obtain ⟨sound, origin, addressed⟩ := part_source nv2bgrAlpha src dst coef offset even found
  obtain ⟨left, top, wide, tall, right, bottom⟩ := sbox_within member
  have width := fits.width
  have height := fits.height
  have stride := fits.stride
  have target := DataFormat.isRgba_odd wanted
  rw [if_neg target.1] at stride
  have formats : (sboxCfg matrix nv2bgrAlpha info src dst coef offset box sub).src.format = 0 ∧
      (sboxCfg matrix nv2bgrAlpha info src dst coef offset box sub).dst.format = 1 := by
    simp only [sboxCfg, BscHwOnceCfg.src, BscHwOnceCfg.dst, given, target.2.1]
    decide
  have within := part_even even found
  have narrow : (sboxCfg matrix nv2bgrAlpha info src dst coef offset box sub).dst.Fits :=
    ⟨left, top, by simp only [sboxCfg, BscHwOnceCfg.dst]; omega,
      by simp only [sboxCfg, BscHwOnceCfg.dst]; omega,
      by simp only [sboxCfg, BscHwOnceCfg.dst]; omega,
      by simp only [sboxCfg, BscHwOnceCfg.dst]; omega,
      by simp only [sboxCfg, BscHwOnceCfg.dst]; omega⟩
  -- As above, with one store of four bytes for each pixel.
  have painted := bsAffineBoxNv12ToRgb_paints mem leftover image coef (fun i => (offset i).toUInt8)
    nv2bgrAlpha info.zeroPoint dst.format affine.plain sound addressed rfl within.1.2.2.2.1
    within.2.2.2.2.1 narrow origin
  rw [bsAffineBox, if_neg (fun both => by rw [formats.2] at both; omega), if_pos formats]
  refine painted.trans (congrArg (fun stores => some (Paint.paint image stores))
    (List.flatMap_congr fun p here => ?_))
  rw [rgbaSampled, part_rgbStores wanted]
  refine congrArg (rgbStores (wholeDst dst) _ nv2bgrAlpha p.1 p.2) (funext fun k => ?_)
  apply sampled_part even fits member found here
  intro x y
  simp only [nv12Rgba, nv12Luma_part given, nv12Chroma_part even given found]

/-- A split paints its parts, one destination box after the other. -/
theorem affineSplit_paints {leftover : BscHwOnceCfg → Memory}
    {stores : BoxInfo → List (Int × UInt8)}
    (split : affineBoxSplit matrix nv2bgrAlpha info src dst coef offset = some cfgs)
    (each : ∀ box ∈ dstSboxes dst, ∀ sub, affineCacSubBox matrix box info.wbox = some sub →
      ∀ cfg, cfg = sboxCfg matrix nv2bgrAlpha info src dst coef offset box sub →
      ∀ leftover image, bsAffineBox mem cfg.src cfg.dst cfg.matrix cfg.coef cfg.offset
        cfg.nv2bgrAlpha cfg.dstFormat.nv2bgrOrder cfg.zeroPoint leftover image =
          some (Paint.paint image (stores box))) :
    affineSplit mem leftover cfgs image =
      some (Paint.paint image ((dstSboxes dst).flatMap stores)) := by
  apply Paint.foldlM_parts
  have parts := affineBoxSplit_parts split
  -- The configurations and the destination boxes go together one by one.
  rw [List.forall₂_iff_get] at parts ⊢
  refine ⟨parts.1, fun i first second image => ?_⟩
  obtain ⟨sub, found, shape⟩ := parts.2 i first second
  exact each _ (List.get_mem _ _) sub found _ shape _ image

/-- The source of one run is a box of 16-bit places whose buffer can be addressed. -/
theorem whole_source (src : DataInfo) (even : info.box.Even) :
    (wholeSrc src info.box).Sound ∧ (wholeSrc src info.box).Addressed := by
  have width := even.width
  have height := even.height
  exact ⟨whole_sound even.sized, addressed_of_le (by simp only [wholeSrc]; omega)
    (by simp only [wholeSrc]; omega)⟩

/-- One run from NV12 to NV12 paints the image row after row. -/
theorem affineWhole_nv12 (affine : Affine matrix) (even : info.box.Even) (fits : dst.Fits)
    (target : dst.format = .nv12) :
    affineWhole mem matrix nv2bgrAlpha info src dst coef offset before image =
      some (Paint.paint image ((Raster.rows 0 dst.width.toNat 0 dst.height.toNat).flatMap
        (nv12Sampled mem (wholeSrc src info.box) (wholeDst dst) matrix
          fun i => (offset i).toUInt8))) := by
  obtain ⟨sound, addressed⟩ := whole_source src even
  have width := fits.width
  have height := fits.height
  rw [affineWhole, if_pos target]
  exact bsAffineBoxNv12ToNv12_paints _ _ _ (wholeDst dst) _ affine.plain sound addressed
    (le_refl _) (le_refl _) (by simp only [wholeDst]; omega) (by simp only [wholeDst]; omega)
    (by simp only [wholeDst]; omega) (by simp only [wholeDst]; omega)

/-- One run from NV12 to four bytes paints the image. -/
theorem affineWhole_rgba (even : info.box.Even) (fits : dst.Fits) (wanted : dst.format.isRgba) :
    affineWhole mem matrix nv2bgrAlpha info src dst coef offset before image =
      some (Paint.paint image (dst.pixels.flatMap (rgbaSampled mem (wholeSrc src info.box)
        (wholeDst dst) matrix coef (fun i => (offset i).toUInt8) nv2bgrAlpha dst.format.nv2bgrOrder
        info.zeroPoint))) := by
  obtain ⟨sound, addressed⟩ := whole_source src even
  have width := fits.width
  have height := fits.height
  obtain ⟨buffer, converted, holds⟩ := nv12ToRgb_holds mem coef (fun i => (offset i).toUInt8)
    nv2bgrAlpha dst.format before addressed rfl even.width.1 even.height.1
  -- The source is converted whole, and the buffer then holds its pixels.
  rw [affineWhole, if_neg (DataFormat.isRgba_odd wanted).1]
  simp only [converted, Option.map_some]
  rw [bsAffineBoxRgb_paints (show 0 ≤ (wholeDst dst).sboxX from le_refl _) (le_refl _)
    (by simp only [wholeDst]; omega) (by simp only [wholeDst]; omega)
    (by simp only [wholeDst]; omega) (by simp only [wholeDst]; omega),
    funext (affineStores_sampled sound holds)]
  rfl

/-- Two NV12 pixels that share a byte share their chroma bytes. -/
theorem nv12Sampled_clash (fits : dst.Fits) (target : dst.format = .nv12) (lone : dst.base1 = 0)
    {offset : Fin 2 → UInt8} {src : BsBox} (here : p ∈ dst.pixels) (there : q ∈ dst.pixels)
    (clash : Paint.Clash (nv12Sampled mem src (wholeDst dst) matrix offset) p q) :
    p.1 / 2 = q.1 / 2 ∧ p.2 / 2 = q.2 / 2 := by
  have stride := fits.stride
  rw [if_pos target] at stride
  rw [DataInfo.pixels, Raster.mem_columns] at here there
  -- The bytes of a pixel: one of the luma rows, or one of a pair behind them.
  have places : ∀ r : Point, ∀ address, address ∈ (nv12Sampled mem src (wholeDst dst) matrix offset
      r).map Prod.fst → address = dst.base + (r.2 * dst.lineStride + r.1) ∨ ∃ b, 0 ≤ b ∧ b < 2 ∧
        address = dst.base + dst.height * dst.lineStride +
          (r.2 / 2 * dst.lineStride + (r.1 / 2 * 2 + b)) := by
    intro r address member
    simp only [nv12Sampled, nv12Stores, wholeDst, target, lone, if_true, Int.sub_zero,
      List.map_cons, List.map_nil, List.mem_cons, List.not_mem_nil, or_false] at member
    rcases member with rfl | rfl | rfl
    · exact Or.inl rfl
    · exact Or.inr ⟨0, by omega, by omega, by omega⟩
    · exact Or.inr ⟨1, by omega, by omega, by omega⟩
  have luma : ∀ r : Point, (0 ≤ r.1 ∧ r.1 < 0 + (dst.width.toNat : Int)) ∧ 0 ≤ r.2 ∧
      r.2 < 0 + (dst.height.toNat : Int) →
      r.2 * dst.lineStride + r.1 < dst.lineStride * dst.height := by
    intro r inside
    exact (Raster.offset_within (by omega) (by omega)).2
  have chroma : ∀ r : Point, (0 ≤ r.1 ∧ r.1 < 0 + (dst.width.toNat : Int)) ∧ 0 ≤ r.2 ∧
      r.2 < 0 + (dst.height.toNat : Int) → ∀ b, 0 ≤ b → b < 2 →
      0 ≤ r.2 / 2 * dst.lineStride + (r.1 / 2 * 2 + b) := by
    intro r inside b lower upper
    have inRow : 0 ≤ r.1 / 2 * 2 + b ∧ r.1 / 2 * 2 + b < dst.lineStride := by omega
    have inColumn : 0 ≤ r.2 / 2 ∧ r.2 / 2 < dst.height := by omega
    exact (Raster.offset_within inRow inColumn).1
  have area : dst.height * dst.lineStride = dst.lineStride * dst.height := mul_comm _ _
  obtain ⟨address, first, second⟩ := clash
  rcases places p address first with one | ⟨b, lower, upper, one⟩ <;>
    rcases places q address second with two | ⟨b', lower', upper', two⟩
  · have offset : p.2 * dst.lineStride + p.1 = q.2 * dst.lineStride + q.1 := by omega
    obtain ⟨row, column⟩ := Raster.offset_unique (by omega) (by omega) offset
    rw [row, column]
    exact ⟨rfl, rfl⟩
  · have before := luma p here
    have behind := chroma q there b' lower' upper'
    omega
  · have before := luma q there
    have behind := chroma p here b lower upper
    omega
  · have offset : p.2 / 2 * dst.lineStride + (p.1 / 2 * 2 + b) =
        q.2 / 2 * dst.lineStride + (q.1 / 2 * 2 + b') := by omega
    obtain ⟨row, column⟩ := Raster.offset_unique (by omega) (by omega) offset
    omega

/-- The parts paint the pixels of an NV12 image as one run does, though chroma bytes are shared. -/
theorem nv12Sampled_reorder (fits : dst.Fits) (target : dst.format = .nv12) (lone : dst.base1 = 0)
    {offset : Fin 2 → UInt8} {src : BsBox} :
    Paint.paint image ((dstSboxes dst).flatMap fun box =>
        (Raster.rows box.x box.w.toNat box.y box.h.toNat).flatMap
          (nv12Sampled mem src (wholeDst dst) matrix offset)) =
      Paint.paint image ((Raster.rows 0 dst.width.toNat 0 dst.height.toNat).flatMap
        (nv12Sampled mem src (wholeDst dst) matrix offset)) := by
  have perm : ((dstSboxes dst).flatMap fun box =>
      Raster.rows box.x box.w.toNat box.y box.h.toNat).Perm
      (Raster.rows 0 dst.width.toNat 0 dst.height.toNat) :=
    ((List.Perm.flatMap_left (g := BoxInfo.pixels) _ fun _ _ => Raster.rows_perm_columns).trans
      dstSboxes_tile).trans Raster.rows_perm_columns.symm
  rw [← List.flatMap_assoc]
  refine Paint.paint_reorder (fun p q => p.2 < q.2 ∨ p.2 = q.2 ∧ p.1 ≤ q.1)
    (fun p q one two => Prod.ext (by omega) (by omega)) perm ?_
    (Raster.rows_increasing.imp fun less _ => less.imp id fun ⟨row, column⟩ => ⟨row, column.le⟩)
  refine List.pairwise_flatMap.mpr ⟨fun box _ => Raster.rows_increasing.imp fun less _ =>
    less.imp id fun ⟨row, column⟩ => ⟨row, column.le⟩, ?_⟩
  -- Pixels that share a byte have the same owner, so no two boxes clash.
  refine nodup_dstSboxes.imp_of_mem fun {box other} member member' differ p here q there clash => ?_
  have one : p ∈ box.pixels := Raster.rows_perm_columns.subset here
  have two : q ∈ other.pixels := Raster.rows_perm_columns.subset there
  obtain ⟨column, row⟩ := nv12Sampled_clash fits target lone (sbox_pixels member one)
    (sbox_pixels member' two) clash
  have owners : ownerSbox dst p = ownerSbox dst q := by
    unfold ownerSbox bsAffineSize
    rw [show p.1 / 64 = q.1 / 64 by omega, show p.2 / 64 = q.2 / 64 by omega]
  rw [sbox_owner member one, sbox_owner member' two] at owners
  exact absurd owners differ

/-- An affine box from an even NV12 source looks the same in one run and cut into parts. -/
theorem affineInvisible_nv12 (matrix : Matrix) (nv2bgrAlpha : UInt8) (info : BoxAffineInfo)
    (src dst : DataInfo) (coef : Fin 9 → UInt32) (offset : Fin 2 → UInt32)
    (affine : Affine matrix) (even : info.box.Even) (given : src.format = .nv12)
    (wanted : dst.format = .nv12 ∨ dst.format.isRgba) (lone : dst.base1 = 0) (fits : dst.Fits) :
    AffineInvisible matrix nv2bgrAlpha info src dst coef offset := by
  have asserts : affineBoxAsserts info src dst := by
    refine ⟨?_, fun _ => ⟨even.left, even.top, even.width.1, even.height.1⟩⟩
    rw [given]
    decide
  obtain ⟨cfgs, split⟩ := (even.clean fits).split_exists nv2bgrAlpha coef offset asserts
  refine ⟨cfgs, split, fun mem image leftover before => ?_⟩
  -- NV12 stores repeat the chroma of neighbours, and four-byte stores are all apart.
  rcases wanted with target | rgba
  · refine ⟨_, ?_, affineWhole_nv12 affine even fits target⟩
    rw [affineSplit_paints split fun box member sub found cfg shape leftover image =>
      part_nv12 affine even fits given target lone member found cfg shape leftover image]
    exact congrArg some (nv12Sampled_reorder fits target lone)
  · refine ⟨_, ?_, affineWhole_rgba even fits rgba⟩
    rw [affineSplit_paints split fun box member sub found cfg shape leftover image =>
      part_rgba affine even fits given rgba member found cfg shape leftover image,
      ← List.flatMap_assoc]
    have stride := fits.stride
    rw [if_neg (DataFormat.isRgba_odd rgba).1] at stride
    have apart : (wholeDst dst).pixels.Pairwise fun p q => ¬ Paint.Clash (rgbaSampled mem
        (wholeSrc src info.box) (wholeDst dst) matrix coef (fun i => (offset i).toUInt8) nv2bgrAlpha
        dst.format.nv2bgrOrder info.zeroPoint) p q := rgbStores_apart stride
    exact congrArg some (Paint.paint_perm dstSboxes_tile.symm apart).symm

/-- A rotated NV12 box that is shown in an image of two parts. -/
theorem affineInvisible_nv12_turned : AffineInvisible
    ![0, -65536, 131072, 65536, 0, -65536, 0, 0, 65536] 9 ⟨⟨2, 2, 4, 4⟩, 0⟩
    ⟨64, 0, .nv12, 8, 8, 8⟩ ⟨64, 0, .nv12, 65, 3, 66⟩ (fun _ => 0) (fun _ => 128) :=
  affineInvisible_nv12 _ _ _ _ _ _ _ ⟨by decide, by decide, by decide⟩
    ⟨by decide, by decide, by decide, by decide⟩ rfl (Or.inl rfl) rfl
    ⟨by decide, by decide, by decide⟩

/-- A split is seen where a byte of the parts differs from the byte of one run. -/
theorem not_affineInvisible (mem image leftover before : Memory) (address : Int)
    (differ : ((affineBoxSplit matrix nv2bgrAlpha info src dst coef offset).bind fun cfgs =>
        (affineSplit mem (fun _ => leftover) cfgs image).map fun final => final address) ≠
      (affineWhole mem matrix nv2bgrAlpha info src dst coef offset before image).map
        fun final => final address) :
    ¬ AffineInvisible matrix nv2bgrAlpha info src dst coef offset := by
  rintro ⟨cfgs, split, same⟩
  obtain ⟨final, parts, whole⟩ := same mem image (fun _ => leftover) before
  rw [split, Option.bind_some, parts, whole] at differ
  exact differ rfl

/--
A split is seen where the rows do not fit their stride, or the source box has no pixels.

The last chroma byte of an odd row lies at the first one of the next row, the last pixel of a row at
the first one of the next row, and one run over an empty box reads what its buffer held before.
-/
theorem affineInvisible_narrow :
    ¬ AffineInvisible ![0, 0, 0, 0, 0, 0, 0, 0, 65536] 0 ⟨⟨0, 0, 2, 2⟩, 0⟩
        ⟨64, 0, .nv12, 2, 2, 2⟩ ⟨64, 0, .nv12, 65, 3, 65⟩ (fun _ => 0) (fun _ => 0) ∧
      ¬ AffineInvisible ![65536, 0, 0, 0, 65536, 0, 0, 0, 65536] 0 ⟨⟨0, 0, 2, 2⟩, 0⟩
        ⟨64, 0, .nv12, 2, 2, 2⟩ ⟨64, 0, .bgra, 2, 2, 4⟩ ![1048576, 0, 0, 1048576, 0, 0, 1048576, 0, 0]
        (fun _ => 0) ∧
      ¬ AffineInvisible ![65536, 0, 0, 0, 65536, 0, 0, 0, 65536] 0 ⟨⟨0, 0, 0, 2⟩, 0⟩
        ⟨64, 0, .nv12, 2, 2, 2⟩ ⟨64, 0, .nv12, 1, 1, 2⟩ (fun _ => 0) (fun _ => 0) :=
  ⟨not_affineInvisible (fun address => if address % 2 = 0 then 10 else 200) (fun _ => 0)
      (fun _ => 0) (fun _ => 0) (64 + 65 * 3 + 65) (by decide +kernel),
    not_affineInvisible (fun address => UInt8.ofNat address.toNat) (fun _ => 0) (fun _ => 0)
      (fun _ => 0) (64 + 4) (by decide +kernel),
    not_affineInvisible (fun _ => 0) (fun _ => 0) (fun _ => 255) (fun _ => 255) 64
      (by decide +kernel)⟩

end Aip.Bscaler
