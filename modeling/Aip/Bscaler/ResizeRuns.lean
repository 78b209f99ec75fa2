import Aip.Bscaler.ResizeTaps
import Aip.Bscaler.SplitNv12

/-! The pieces of a resize box in memory: one run for each of them, and one run for all. -/

namespace Aip.Bscaler

open Raster (Point)

/-- The stores of a pixel in `bs_resize_chn_base`, with the alpha byte where a pixel has four. -/
def chnStores (dst : BsBox) (bpp isAbgrOrder : Nat) (nv2bgrAlpha : UInt8) (dx dy : Int)
    (byte : Nat → UInt8) : List (Int × UInt8) :=
  let dstIdx := (dy - dst.sboxY) * dst.stride0 + (dx - dst.sboxX) * bpp
  (List.range bpp).map fun k : Nat => (dst.base0 + (dstIdx + k),
    if bpp = 4 then alphaOr isAbgrOrder nv2bgrAlpha k (byte k) else byte k)

/-- `bs_resize_chn_base`, with `none` where a 16-bit counter would never reach its end. -/
def bsResizeChnBase (mem : Memory) (src dst : BsBox) (bpp : Nat) (matrix : Matrix)
    (zeroPoint : UInt8) (isAbgrOrder : Nat) (nv2bgrAlpha : UInt8) (image : Memory) :
    Option Memory := do
  let ys ← intCounter dst.sboxY (dst.sboxH + dst.sboxY)
  ys.foldlM (fun image dy => do
    let xs ← intCounter dst.sboxX (dst.sboxW + dst.sboxX)
    some (xs.foldl (fun image dx => Paint.paint image (chnStores dst bpp isAbgrOrder nv2bgrAlpha
      dx dy (chnByte mem src bpp zeroPoint (resizeDst2src matrix dx dy)))) image)) image

/-- The source box that `bsc_mdl` makes of a configuration. -/
def ResizeCfg.src (cfg : ResizeCfg) : BsBox :=
  { base0 := cfg.srcBase0, base1 := cfg.srcBase1
    stride0 := cfg.srcLineStride, stride1 := cfg.srcLineStride
    sboxX := cfg.srcBox.x, sboxY := cfg.srcBox.y, sboxW := cfg.srcBox.w, sboxH := cfg.srcBox.h
    format := ((cfg.srcFormat.code &&& 1 : Nat) : Int) }

/-- The destination box that `bsc_mdl` makes of a configuration. -/
def ResizeCfg.dst (cfg : ResizeCfg) : BsBox :=
  { base0 := cfg.dstBase0, base1 := cfg.dstBase1.getD 0
    stride0 := cfg.dstLineStride, stride1 := cfg.dstLineStride
    sboxX := cfg.dstBox.x, sboxY := cfg.dstBox.y, sboxW := cfg.dstBox.w, sboxH := cfg.dstBox.h
    format := ((cfg.dstFormat.code &&& 1 : Nat) : Int) }

/-- The matrix of a configuration, with zero for what is left unset and never read. -/
def ResizeCfg.entries (cfg : ResizeCfg) : Matrix := fun i => (cfg.matrix i).getD 0

/-- What `bsc_mdl` runs on a configuration in box mode whose rows are not amplified. -/
def resizeRun (mem : Memory) (nv2bgrAlpha : UInt8) (leftover : Memory) (cfg : ResizeCfg)
    (image : Memory) : Option Memory :=
  if cfg.affine then
    bsAffineBox mem cfg.src cfg.dst cfg.entries cfg.coef cfg.offset nv2bgrAlpha
      cfg.dstFormat.nv2bgrOrder cfg.zeroPoint leftover image
  else
    bsResizeChnBase mem cfg.src cfg.dst cfg.srcFormat.bpp cfg.entries cfg.zeroPoint
      (abgrOrder cfg.dstFormat.nv2bgrOrder) nv2bgrAlpha image

/-- The configuration of a piece, with the part of the source and the matrix in exact numbers. -/
def exactSboxCfg (info : BoxResizeInfo) (src dst : ImageInfo) (coef : Fin 9 → UInt32)
    (offset : Fin 2 → UInt32) (dstSbox : BoxInfo) : ResizeCfg :=
  let part := partBox info dst dstSbox
  let base := resizeWboxBase src info.box
  { resizeSboxCfg info src dst coef offset 0 dstSbox with
    srcBase0 := base.1 + part.y * src.lineStride + part.x * columnBytes src.format
    srcBase1 := if src.format = .nv12 then base.2 + part.y / 2 * src.lineStride + part.x else 0
    srcBox := part
    matrix := fun i => some (exactMatrix (exactScales info.box dst) i) }

/-- The configuration of the whole box, with the matrix in exact numbers. -/
def exactCfg (info : BoxResizeInfo) (src dst : ImageInfo) (coef : Fin 9 → UInt32)
    (offset : Fin 2 → UInt32) : ResizeCfg :=
  { resizeCfg info src dst coef offset 0 with
    matrix := fun i => if i < 6 ∨ affineMode src then
      some (exactMatrix (exactScales info.box dst) i) else none }

variable {mem image leftover : Memory} {nv2bgrAlpha zeroPoint : UInt8} {info : BoxResizeInfo}
  {src dst : ImageInfo} {coef : Fin 9 → UInt32} {offset : Fin 2 → UInt32} {box : BoxInfo}
  {p : Point} {bpp isAbgrOrder : Nat} {cfg : ResizeCfg}

/-- The affine unit stores four-byte pixels in the same places. -/
theorem rgbStores_chn (one : BsBox) (dx dy : Int) (byte : Nat → UInt8) :
    rgbStores one isAbgrOrder nv2bgrAlpha dx dy byte =
      chnStores one 4 isAbgrOrder nv2bgrAlpha dx dy byte := rfl

/-- Two pixels of a box whose rows fit its stride have no byte in common. -/
theorem chnStores_apart {one : BsBox} (stride : one.sboxW * bpp ≤ one.stride0)
    {byte : Point → Nat → UInt8} : one.pixels.Pairwise fun p q =>
      ¬ Paint.Clash (fun p => chnStores one bpp isAbgrOrder nv2bgrAlpha p.1 p.2 (byte p)) p q := by
  apply stores_apart stride
  intro p address stored
  simp only [chnStores, List.map_map, List.mem_map, List.mem_range, Function.comp] at stored
  -- A byte of a pixel is at its number behind the start of the pixel.
  obtain ⟨k, small, rfl⟩ := stored
  exact ⟨k, small, rfl⟩

/-- The stores of a pixel in a run. -/
def runStores (mem : Memory) (nv2bgrAlpha : UInt8) (cfg : ResizeCfg) (p : Point) :
    List (Int × UInt8) :=
  chnStores cfg.dst cfg.srcFormat.bpp (abgrOrder cfg.dstFormat.nv2bgrOrder) nv2bgrAlpha p.1 p.2
    (chnByte mem cfg.src cfg.srcFormat.bpp cfg.zeroPoint (resizePoint cfg.affine cfg.entries p))

/-- A configuration between pixels of the same bytes, whose destination fits 16-bit counters. -/
structure ResizeCfg.Plain (cfg : ResizeCfg) : Prop where
  left : 0 ≤ cfg.dstBox.x
  top : 0 ≤ cfg.dstBox.y
  width : 0 ≤ cfg.dstBox.w
  height : 0 ≤ cfg.dstBox.h
  right : cfg.dstBox.x + cfg.dstBox.w ≤ 65535
  bottom : cfg.dstBox.y + cfg.dstBox.h ≤ 65535
  rows : cfg.dstBox.w * cfg.srcFormat.bpp ≤ cfg.dstLineStride
  units : cfg.affine → cfg.srcFormat.isRgba ∧ cfg.dstFormat.isRgba ∧
    isPerspective cfg.entries = false

/-- The box resizer makes the stores of its pixels row after row. -/
theorem bsResizeChnBase_paints {one target : BsBox} {matrix : Matrix} (left : 0 ≤ target.sboxX)
    (top : 0 ≤ target.sboxY) (width : 0 ≤ target.sboxW) (height : 0 ≤ target.sboxH)
    (right : target.sboxX + target.sboxW ≤ 65535) (bottom : target.sboxY + target.sboxH ≤ 65535) :
    bsResizeChnBase mem one target bpp matrix zeroPoint isAbgrOrder nv2bgrAlpha image =
      some (Paint.paint image ((Raster.rows target.sboxX target.sboxW.toNat target.sboxY
        target.sboxH.toNat).flatMap fun p => chnStores target bpp isAbgrOrder nv2bgrAlpha p.1 p.2
          (chnByte mem one bpp zeroPoint (resizeDst2src matrix p.1 p.2)))) := by
  unfold bsResizeChnBase Raster.rows
  rw [intCounter_side top height bottom, Option.bind_eq_bind, Option.bind_some]
  rw [List.flatMap_assoc]
  -- Each row paints the stores of its pixels.
  apply Paint.foldlM_paint
  intro y _ image
  rw [intCounter_side left width right, Option.bind_some, Paint.foldl_paint, List.flatMap_map]

/-- A format of four-byte pixels has four bytes and an odd code. -/
theorem DataFormat.isRgba_bpp {format : DataFormat} (rgba : format.isRgba) :
    format.bpp = 4 ∧ columnBytes format = 4 := by
  cases format <;> revert rgba <;> decide

/-- A run paints its pixels in any order. -/
theorem ResizeCfg.Plain.paints (plain : cfg.Plain) (mem leftover image : Memory)
    (nv2bgrAlpha : UInt8) :
    resizeRun mem nv2bgrAlpha leftover cfg image =
      some (Paint.paint image (cfg.dst.pixels.flatMap (runStores mem nv2bgrAlpha cfg))) := by
  unfold resizeRun
  split
  case isTrue affine =>
    -- The affine unit goes through the columns.
    obtain ⟨given, wanted, parallel⟩ := plain.units affine
    have source : cfg.src.format = 1 := by
      simp only [ResizeCfg.src, (DataFormat.isRgba_odd given).2.1, Nat.cast_one]
    have target : cfg.dst.format = 1 := by
      simp only [ResizeCfg.dst, (DataFormat.isRgba_odd wanted).2.1, Nat.cast_one]
    have stores : runStores mem nv2bgrAlpha cfg = affineStores mem cfg.src cfg.dst cfg.entries
        cfg.zeroPoint (abgrOrder cfg.dstFormat.nv2bgrOrder) nv2bgrAlpha := by
      funext p
      rw [runStores, (DataFormat.isRgba_bpp given).1, affineStores, resizePoint, if_pos affine,
        rgbStores_chn, rgbByte_chn]
    rw [bsAffineBox, if_neg (by simp [source]), if_neg (by simp [source]),
      if_pos ⟨source, target⟩, bsAffineBoxRgbToRgb, parallel, if_neg (by decide), stores]
    exact congrArg some (bsAffineBoxRgb_paints plain.left plain.top plain.width plain.height
      plain.right plain.bottom)
  case isFalse resized =>
    -- The box resizer goes through the rows, whose pixels do not touch each other.
    have stores : runStores mem nv2bgrAlpha cfg = fun p => chnStores cfg.dst cfg.srcFormat.bpp
        (abgrOrder cfg.dstFormat.nv2bgrOrder) nv2bgrAlpha p.1 p.2 (chnByte mem cfg.src
          cfg.srcFormat.bpp cfg.zeroPoint (resizeDst2src cfg.entries p.1 p.2)) := by
      funext p
      rw [runStores, resizePoint, if_neg resized]
    rw [bsResizeChnBase_paints plain.left plain.top plain.width plain.height plain.right
      plain.bottom, stores]
    have rows : (Raster.rows cfg.dst.sboxX cfg.dst.sboxW.toNat cfg.dst.sboxY
        cfg.dst.sboxH.toNat).Perm cfg.dst.pixels := Raster.rows_perm_columns
    exact congrArg some (Paint.paint_perm rows.symm (chnStores_apart plain.rows)).symm

/-- The pieces blend the bytes that the whole box blends. -/
theorem SplitKeeps.blends (keeps : SplitKeeps info src dst zeroPoint) (sized : Sized info dst)
    (given : affineMode src ∨ src.format.isFmu) (member : box ∈ resizeSboxes src dst)
    (here : p ∈ box.pixels) (taps : Fin 4 → UInt8) :
    blendByte (chnBilinear src.format.bpp) (partBox info dst box) zeroPoint
        (exactPoint info src dst p) taps =
      blendByte (chnBilinear src.format.bpp) info.wbox zeroPoint (exactPoint info src dst p)
        taps := by
  -- Some source has these values at the taps of the pixel.
  obtain ⟨source, shows⟩ := sized.source_any src (piece_pixels given member here) taps
  have same := keeps.result source box member p here
  simpa only [runByte, shows] using same

/-- The bytes between pixels are the same in both images. -/
def SamePixels (src dst : ImageInfo) : Prop :=
  src.format.isRgba ∧ dst.format.isRgba ∨ src.format.isFmu ∧ dst.format = src.format

/-- Such a source is an image or a feature map. -/
theorem SamePixels.given (same : SamePixels src dst) : affineMode src ∨ src.format.isFmu := by
  rcases same with ⟨rgba, _⟩ | ⟨fmu, _⟩
  · left
    revert rgba
    unfold affineMode
    cases src.format <;> decide
  · exact Or.inr fmu

/-- A column of the source and one of the destination have the bytes of a pixel. -/
theorem SamePixels.columns (same : SamePixels src dst) :
    src.format ≠ .nv12 ∧ columnBytes src.format = src.format.bpp ∧
      columnBytes dst.format = src.format.bpp ∧ dst.format ≠ .vrgb := by
  rcases same with ⟨given, wanted⟩ | ⟨fmu, equal⟩
  · -- Both formats have four bytes.
    revert given wanted
    cases src.format <;> cases dst.format <;> decide
  · -- The formats are the same, of 8, 16 or 32 bytes.
    rw [equal]
    revert fmu
    cases src.format <;> decide

/-- Both configurations map a pixel to its source point. -/
theorem exactSboxCfg_point (box : BoxInfo) (p : Point) :
    resizePoint (exactSboxCfg info src dst coef offset box).affine
        (exactSboxCfg info src dst coef offset box).entries p = exactPoint info src dst p := rfl

/-- So does that of the whole box. -/
theorem exactCfg_point (p : Point) :
    resizePoint (exactCfg info src dst coef offset).affine
        (exactCfg info src dst coef offset).entries p = exactPoint info src dst p := by
  -- What is left unset is in the last row, which no map of these reads.
  have set : ∀ i : Fin 9, i < 6 →
      (exactCfg info src dst coef offset).entries i = exactMatrix (exactScales info.box dst) i := by
    intro i row
    simp only [ResizeCfg.entries, exactCfg, if_pos (Or.inl row : _ ∨ affineMode src),
      Option.getD_some]
  have affine : (exactCfg info src dst coef offset).affine = affineMode src := rfl
  rw [affine, exactPoint]
  unfold resizePoint affineDst2src resizeDst2src
  rw [set mscalex (by decide), set mskewx (by decide), set mtransx (by decide),
    set mskewy (by decide), set mscaley (by decide), set mtransy (by decide)]

/-- The bytes of a pixel from its piece are those from the whole box. -/
theorem SplitKeeps.bytes (keeps : SplitKeeps info src dst info.zeroPoint.toUInt8)
    (sized : Sized info dst) (same : SamePixels src dst) (member : box ∈ resizeSboxes src dst)
    (here : p ∈ box.pixels) (mem : Memory) (coef : Fin 9 → UInt32) (offset : Fin 2 → UInt32)
    (k : Nat) :
    chnByte mem (exactSboxCfg info src dst coef offset box).src src.format.bpp
        info.zeroPoint.toUInt8 (exactPoint info src dst p) k =
      chnByte mem (exactCfg info src dst coef offset).src src.format.bpp
        info.zeroPoint.toUInt8 (exactPoint info src dst p) k := by
  -- Both source boxes start where the whole image has their corner.
  have part : (exactSboxCfg info src dst coef offset box).src.base0 =
      (resizeWboxBase src info.box).1 +
        (exactSboxCfg info src dst coef offset box).src.sboxY * src.lineStride +
        (exactSboxCfg info src dst coef offset box).src.sboxX * src.format.bpp := by
    simp only [exactSboxCfg, ResizeCfg.src, same.columns.2.1]
  have whole : (exactCfg info src dst coef offset).src.base0 = (resizeWboxBase src info.box).1 +
      (exactCfg info src dst coef offset).src.sboxY * src.lineStride +
        (exactCfg info src dst coef offset).src.sboxX * src.format.bpp := by
    simp [exactCfg, ResizeCfg.src, resizeCfg]
  rw [chnByte_blend part, chnByte_blend whole]
  exact keeps.blends sized same.given member here _

/-- A piece makes the stores that the whole box makes for its pixels. -/
theorem SplitKeeps.stores (keeps : SplitKeeps info src dst info.zeroPoint.toUInt8)
    (sized : Sized info dst) (same : SamePixels src dst) (member : box ∈ resizeSboxes src dst)
    (here : p ∈ box.pixels) :
    runStores mem nv2bgrAlpha (exactSboxCfg info src dst coef offset box) p =
      runStores mem nv2bgrAlpha (exactCfg info src dst coef offset) p := by
  have columns := same.columns
  have bytes := keeps.bytes sized same member here mem coef offset
  -- The place of the piece cancels out in the addresses of the destination.
  have place : ∀ k : Nat, (exactSboxCfg info src dst coef offset box).dst.base0 +
      ((p.2 - box.y) * dst.lineStride + (p.1 - box.x) * src.format.bpp + k) =
        dst.base + ((p.2 - 0) * dst.lineStride + (p.1 - 0) * src.format.bpp + k) := by
    intro k
    simp only [exactSboxCfg, ResizeCfg.dst, resizeSboxCfg, if_neg columns.2.2.2, columns.2.2.1]
    ring
  rw [runStores, runStores, exactSboxCfg_point, exactCfg_point]
  unfold chnStores
  refine List.map_congr_left fun k _ => Prod.ext ?_ ?_
  · exact place k
  · have byte := bytes k
    simp only
    exact congrArg (fun value => if src.format.bpp = 4 then
      alphaOr (abgrOrder dst.format.nv2bgrOrder) nv2bgrAlpha k value else value) byte

/-- The matrix of a resize box is that of an affine box. -/
theorem exactMatrix_affine (scales : ExactScales) : Affine (exactMatrix scales) :=
  ⟨rfl, rfl, show (2 : Int32) ^ 16 = 65536 by decide⟩

/-- The affine unit runs between four-byte pixels only. -/
theorem SamePixels.units (same : SamePixels src dst) (affine : affineMode src) :
    src.format.isRgba ∧ dst.format.isRgba := by
  rcases same with rgba | ⟨fmu, _⟩
  · exact rgba
  · -- Feature maps are not for the affine unit.
    exfalso
    revert fmu affine
    unfold affineMode
    cases src.format <;> decide

/-- A piece is a run of its own. -/
theorem Sized.piece_plain (sized : Sized info dst) (same : SamePixels src dst)
    (member : box ∈ resizeSboxes src dst) (stride : dst.width * src.format.bpp ≤ dst.lineStride)
    (coef : Fin 9 → UInt32) (offset : Fin 2 → UInt32) :
    (exactSboxCfg info src dst coef offset box).Plain := by
  have width := sized.across.length
  have height := sized.down.length
  rw [resizeSboxes_eq same.given] at member
  obtain ⟨left, top, wide, tall, right, bottom⟩ := sbox_within member
  -- The rows of a piece are no longer than those of the image.
  have rows : box.w * src.format.bpp ≤ dst.width * src.format.bpp :=
    mul_le_mul_of_nonneg_right (by omega) (by omega)
  refine ⟨left, top, ?_, ?_, ?_, ?_, rows.trans stride, ?_⟩
  · exact le_trans (by decide) wide.1
  · exact le_trans (by decide) tall.1
  · exact right.trans (width.2.trans (by decide))
  · exact bottom.trans (height.2.trans (by decide))
  · intro affine
    exact ⟨(same.units affine).1, (same.units affine).2, (exactMatrix_affine _).plain⟩

/-- So is the whole box. -/
theorem Sized.whole_plain (sized : Sized info dst) (same : SamePixels src dst)
    (stride : dst.width * src.format.bpp ≤ dst.lineStride) (coef : Fin 9 → UInt32)
    (offset : Fin 2 → UInt32) : (exactCfg info src dst coef offset).Plain := by
  have width := sized.across.length
  have height := sized.down.length
  refine ⟨le_refl _, le_refl _, ?_, ?_, ?_, ?_, stride, ?_⟩
  · exact le_trans (by decide) width.1
  · exact le_trans (by decide) height.1
  · simp only [exactCfg, resizeCfg]
    omega
  · simp only [exactCfg, resizeCfg]
    omega
  · intro affine
    -- For the affine unit all entries of the matrix are set.
    have set : (exactCfg info src dst coef offset).entries =
        exactMatrix (exactScales info.box dst) := by
      funext i
      simp only [ResizeCfg.entries, exactCfg, if_pos (Or.inr affine : i < 6 ∨ affineMode src),
        Option.getD_some]
    rw [set]
    exact ⟨(same.units affine).1, (same.units affine).2, (exactMatrix_affine _).plain⟩

/-- Pieces that keep the taps give the image of one run, between pixels of the same bytes. -/
theorem SplitKeeps.runs (keeps : SplitKeeps info src dst info.zeroPoint.toUInt8)
    (sized : Sized info dst) (same : SamePixels src dst)
    (stride : dst.width * src.format.bpp ≤ dst.lineStride) (coef : Fin 9 → UInt32)
    (offset : Fin 2 → UInt32) (mem leftover before image : Memory) (nv2bgrAlpha : UInt8) :
    (resizeSboxes src dst).foldlM (fun image box => resizeRun mem nv2bgrAlpha leftover
        (exactSboxCfg info src dst coef offset box) image) image =
      resizeRun mem nv2bgrAlpha before (exactCfg info src dst coef offset) image := by
  let stores := runStores mem nv2bgrAlpha (exactCfg info src dst coef offset)
  -- Each piece paints its own pixels as the whole box does.
  have each : ∀ box ∈ resizeSboxes src dst, ∀ image,
      resizeRun mem nv2bgrAlpha leftover (exactSboxCfg info src dst coef offset box) image =
        some (Paint.paint image (box.pixels.flatMap stores)) := by
    intro box member image
    rw [(sized.piece_plain same member stride coef offset).paints]
    exact congrArg (fun writes => some (Paint.paint image writes))
      (List.flatMap_congr fun p here => keeps.stores sized same member here)
  have plain := sized.whole_plain same stride coef offset
  rw [Paint.foldlM_paint each, ← List.flatMap_assoc, plain.paints, resizeSboxes_eq same.given]
  -- The pieces have the pixels of the image, and no two pixels share a byte.
  have apart : (exactCfg info src dst coef offset).dst.pixels.Pairwise fun p q =>
      ¬ Paint.Clash stores p q := chnStores_apart plain.rows
  exact congrArg some (Paint.paint_perm dstSboxes_tile.symm apart).symm

end Aip.Bscaler
