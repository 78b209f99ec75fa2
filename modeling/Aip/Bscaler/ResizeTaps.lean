import Aip.Bscaler.ResizeExact
import Aip.Bscaler.SplitRgb

/-! When the pieces of a resize box keep the taps of the whole box, and give its result. -/

namespace Aip.Bscaler

open Raster (Point)

/-- The formats of feature maps. -/
def DataFormat.isFmu : DataFormat → Bool
  | fmu2 | fmu4 | fmu8 => true
  | _ => false

/-- The bytes of a pixel, `bpp` in `bsc_mdl`. -/
def DataFormat.bpp (format : DataFormat) : Nat := 1 <<< ((format.code >>> 5 &&& 3) + 2)

/-- A box of the source without the memory it is in. -/
def BoxInfo.placed (box : BoxInfo) : BsBox :=
  { base0 := 0, base1 := 0, stride0 := 0, stride1 := 0
    sboxX := box.x, sboxY := box.y, sboxW := box.w, sboxH := box.h, format := 0 }

/-- The source box, counted from its own corner. -/
def BoxResizeInfo.wbox (info : BoxResizeInfo) : BoxInfo :=
  { x := 0, y := 0, w := info.box.w, h := info.box.h }

/-- The source box with its sides rounded up to even. -/
def BoxResizeInfo.evenBox (info : BoxResizeInfo) : BoxInfo :=
  { x := 0, y := 0, w := info.box.w + info.box.w % 2, h := info.box.h + info.box.h % 2 }

/-- The part of the source that a piece reads. -/
def partBox (info : BoxResizeInfo) (dst : ImageInfo) (box : BoxInfo) : BoxInfo :=
  exactSubBox box info.wbox (exactScales info.box dst)

/-- The source point of a pixel, for the pieces and for the whole box alike. -/
def exactPoint (info : BoxResizeInfo) (src dst : ImageInfo) (p : Point) : SrcPoint :=
  resizePoint (affineMode src) (exactMatrix (exactScales info.box dst)) p

/-- The byte of a pixel from the values around its source point, as far as a box reaches. -/
def runByte (src : ImageInfo) (box : BoxInfo) (zeroPoint : UInt8) (point : SrcPoint)
    (source : Point → UInt8) : UInt8 :=
  blendByte (chnBilinear src.format.bpp) box zeroPoint point fun c => source (tap point c)

/--
The pieces of a resize box read what the whole box reads, and give its result.

The rows are not amplified. A weighted tap of a pixel that is in the whole box is also in the part
of the piece, and the bytes are those of the whole box for every source.
-/
structure SplitKeeps (info : BoxResizeInfo) (src dst : ImageInfo) (zeroPoint : UInt8) : Prop where
  plain : exactGain src (exactScales info.box dst).scaleY = some 0
  taps : ∀ box ∈ resizeSboxes src dst, ∀ p ∈ box.pixels, ∀ c,
    tapWeight (exactPoint info src dst p) c ≠ 0 →
      info.wbox.placed.Covers (tap (exactPoint info src dst p) c) →
        (partBox info dst box).placed.Covers (tap (exactPoint info src dst p) c)
  result : ∀ source, ∀ box ∈ resizeSboxes src dst, ∀ p ∈ box.pixels,
    runByte src (partBox info dst box) zeroPoint (exactPoint info src dst p) source =
      runByte src info.wbox zeroPoint (exactPoint info src dst p) source

/-- No pixel shows a tap in the column or the row that rounding the sides up to even adds. -/
def RimClear (info : BoxResizeInfo) (src dst : ImageInfo) (zeroPoint : UInt8) : Prop :=
  ∀ p ∈ dst.pixels, ∀ c,
    Visible (chnBilinear src.format.bpp) info.evenBox zeroPoint (exactPoint info src dst p) c →
      info.wbox.placed.Covers (tap (exactPoint info src dst p) c)

/-- A source point from its fixed-point coordinates. -/
def pointAt (x y : Int) : SrcPoint :=
  { xp := fixWhole x, yp := fixWhole y, xw := fixFraction x, yw := fixFraction y }

/-- A coordinate that is no more than one place in front of the source, and ends before 32767. -/
def Near (value : Int) : Prop := -65536 ≤ value ∧ value < 65536 * 32766

variable {info : BoxResizeInfo} {src dst : ImageInfo} {zeroPoint : UInt8} {box : BoxInfo}
  {p : Point} {x y n m : Int} {c : Fin 4} {i j : Nat}

/-- No format shows a tap without weight. -/
theorem chnBilinear_weighs (format : DataFormat) : (chnBilinear format.bpp).Weighs := by
  cases format with
  | fmu2 => exact bilinearPacked_weighs _ _
  | fmu4 => exact bilinearPacked_weighs _ _
  | nv12 | bgra | gbra | rbga | brga | grba | rgba | abgr | agbr | arbg | abrg | agrb | argb | fmu8
    | vbgr | vrgb => exact bilinearU8_weighs

/-- The taps around a point near the source are its two columns and its two rows. -/
theorem tap_pointAt (column : Near x) (row : Near y) : tap (pointAt x y) =
    ![(x / 65536, y / 65536), (x / 65536 + 1, y / 65536), (x / 65536, y / 65536 + 1),
      (x / 65536 + 1, y / 65536 + 1)] := by
  have small : ∀ v : Int, -1 ≤ v → v ≤ 32766 → s16 v = v := fun v lower upper =>
    Int.bmod_eq_of_le (by omega) (by omega)
  -- None of the four places leaves 16 bits.
  unfold Near at column row
  simp only [tap, pointAt, fixWhole]
  rw [small (x / 65536) (by omega) (by omega), small (x / 65536 + 1) (by omega) (by omega),
    small (y / 65536) (by omega) (by omega), small (y / 65536 + 1) (by omega) (by omega)]

/-- A tap has a weight exactly where its column and its row are reached. -/
theorem tapWeight_pointAt (column : Near x) (row : Near y) (c : Fin 4) :
    tapWeight (pointAt x y) c ≠ 0 ↔
      Reaches x (tap (pointAt x y) c).1 ∧ Reaches y (tap (pointAt x y) c).2 := by
  -- The left place is reached unless the fraction is all ones, the right one unless it is zero.
  have left : ∀ v : Int, ¬ matOne - fixFraction v = 0 ↔ Reaches v (v / 65536) := by
    intro v
    unfold matOne matAcc fixFraction Reaches
    omega
  have right : ∀ v : Int, ¬ fixFraction v = 0 ↔ Reaches v (v / 65536 + 1) := by
    intro v
    unfold fixFraction Reaches
    omega
  rw [tap_pointAt column row]
  match c with
  | 0 | 1 | 2 | 3 =>
    simp only [tapWeight, pointAt, Matrix.cons_val, ne_eq, mul_eq_zero, not_or, left, right]

/-- A reached column and a reached row meet in a tap. -/
theorem exists_tap (column : Near x) (row : Near y) (across : Reaches x n) (down : Reaches y m) :
    ∃ c, tap (pointAt x y) c = (n, m) := by
  -- A place with a weight is the whole part of the coordinate or the next one.
  have sides : ∀ v k : Int, Reaches v k → k = v / 65536 ∨ k = v / 65536 + 1 := by
    intro v k reaches
    unfold Reaches at reaches
    omega
  rw [tap_pointAt column row]
  rcases sides x n across with rfl | rfl
  · rcases sides y m down with rfl | rfl
    · exact ⟨0, rfl⟩
    · exact ⟨2, rfl⟩
  · rcases sides y m down with rfl | rfl
    · exact ⟨1, rfl⟩
    · exact ⟨3, rfl⟩

/-- The values at the four taps can be any. -/
theorem source_pointAt (column : Near x) (row : Near y) (taps : Fin 4 → UInt8) :
    ∃ source : Point → UInt8, (fun c => source (tap (pointAt x y) c)) = taps := by
  -- The taps differ in their column or in their row, which names the value.
  refine ⟨fun q => if q.1 = x / 65536 then if q.2 = y / 65536 then taps 0 else taps 2
    else if q.2 = y / 65536 then taps 1 else taps 3, ?_⟩
  funext c
  rw [tap_pointAt column row]
  match c with
  | 0 | 1 | 2 | 3 => simp

/-- The sides of a resize box and its destination. -/
structure Sized (info : BoxResizeInfo) (dst : ImageInfo) : Prop where
  across : Sides info.box.w dst.width
  down : Sides info.box.h dst.height

/-- The destination has pixels that 16-bit counters can go through. -/
theorem Sized.whole (sized : Sized info dst) : dst.toDataInfo.Sized := by
  have width := sized.across.length
  have height := sized.down.length
  exact ⟨by omega, by omega⟩

/-- The coordinate of a pixel stays near the source. -/
theorem Sides.fixedPlace_within {size length z : Int} (sides : Sides size length) (lower : 0 ≤ z)
    (upper : z < length) : Near (fixedPlace size length z) := by
  obtain ⟨near, far⟩ := sides.fixedPlace_near lower upper
  have above := sides.exactPlace_gt lower
  have below := sides.exactPlace_lt upper
  have most : (size : ℚ) ≤ 4096 := by exact_mod_cast sides.size.2
  -- The error of 2048 is a part of the half place that is left on either side.
  constructor
  · have line : ((-65536 : Int) : ℚ) ≤ fixedPlace size length z := by
      push_cast
      linarith
    exact_mod_cast line
  · have line : (fixedPlace size length z : ℚ) < (65536 * 32766 : Int) := by
      push_cast
      linarith
    exact_mod_cast line

/-- The nearest integer of a small number fits 32 bits. -/
theorem exactFixed_toInt {value : ℚ} (small : |value| ≤ 4096) :
    (exactFixed value).toInt = Rounding.nearest (value * 2 ^ matAcc) := by
  have near := Rounding.abs_sub_nearest (value * 2 ^ matAcc)
  have power : (2 : ℚ) ^ matAcc = 65536 := by norm_num [matAcc]
  rw [power] at near
  rw [exactFixed, power, Int32.toInt_ofInt]
  rw [abs_le] at near small
  -- At most 4096 times 65536 is far from the ends of 32 bits.
  have lower : ((-2147483648 : Int) : ℚ) ≤ Rounding.nearest (value * 65536) := by
    push_cast
    linarith
  have upper : (Rounding.nearest (value * 65536) : ℚ) < (2147483648 : Int) := by
    push_cast
    linarith
  exact Int.bmod_eq_of_le (by exact_mod_cast lower) (by exact_mod_cast upper)

/-- Scale and shift stay below 4096. -/
theorem Sides.scale_small {size length : Int} (sides : Sides size length) :
    |exactScale size length| ≤ 4096 ∧ |exactTrans size length| ≤ 4096 := by
  have positive := sides.scale_pos
  have most : (size : ℚ) ≤ 4096 := by exact_mod_cast sides.size.2
  have some : (1 : ℚ) ≤ length := by exact_mod_cast sides.length.1
  have least : (0 : ℚ) ≤ size := by exact_mod_cast (show 0 ≤ size by have := sides.size; omega)
  -- A destination has at least one pixel, so the ratio is no more than the size.
  have small : exactScale size length ≤ 4096 := (div_le_self least some).trans most
  rw [abs_le, abs_le]
  unfold exactTrans
  constructor <;> constructor <;> linarith

/-- Neither the clip nor the types of a source point change coordinates near the source. -/
theorem Near.kept {value : Int} (near : Near value) : clip value s32Min s32Max = value ∧
    value.bmod 4294967296 = value ∧ s16 (fixWhole value) = fixWhole value ∧
      u16 (fixFraction value) = fixFraction value := by
  unfold Near at near
  -- Clip, 32 bits, 16 bits for the place, and 16 bits for the weight.
  refine ⟨?_, Int.bmod_eq_of_le (by omega) (by omega), ?_, ?_⟩
  · unfold clip s32Min s32Max
    split_ifs <;> omega
  · unfold s16 fixWhole
    exact Int.bmod_eq_of_le (by omega) (by omega)
  · unfold u16 fixFraction
    omega

/-- Both units map a pixel to its fixed-point coordinates. -/
theorem Sized.exactPoint_eq (sized : Sized info dst) (src : ImageInfo) (member : p ∈ dst.pixels) :
    exactPoint info src dst p =
      pointAt (fixedPlace info.box.w dst.width p.1) (fixedPlace info.box.h dst.height p.2) := by
  rw [DataInfo.pixels, Raster.mem_columns] at member
  have column := (sized.across.fixedPlace_within (z := p.1) (by omega) (by omega)).kept
  have row := (sized.down.fixedPlace_within (z := p.2) (by omega) (by omega)).kept
  have scaleX := exactFixed_toInt sized.across.scale_small.1
  have transX := exactFixed_toInt sized.across.scale_small.2
  have scaleY := exactFixed_toInt sized.down.scale_small.1
  have transY := exactFixed_toInt sized.down.scale_small.2
  unfold exactPoint resizePoint
  split
  · -- The affine unit adds the skew of zero, and clips.
    have x : (exactFixed (exactScale info.box.w dst.width)).toInt * p.1 + (0 : Int32).toInt * p.2 +
        (exactFixed (exactTrans info.box.w dst.width)).toInt =
          fixedPlace info.box.w dst.width p.1 := by
      rw [scaleX, transX]
      simp [fixedPlace]
    have y : (0 : Int32).toInt * p.1 + (exactFixed (exactScale info.box.h dst.height)).toInt * p.2 +
        (exactFixed (exactTrans info.box.h dst.height)).toInt =
          fixedPlace info.box.h dst.height p.2 := by
      rw [scaleY, transY]
      simp [fixedPlace]
    simp only [affineDst2src, exactMatrix, exactScales, mscalex, mskewx, mtransx, mskewy, mscaley,
      mtransy, Matrix.cons_val, x, y, column, row, pointAt]
  · -- The box resizer has one product for each coordinate, in 32 bits.
    have x : p.1 * (exactFixed (exactScale info.box.w dst.width)).toInt +
        (exactFixed (exactTrans info.box.w dst.width)).toInt =
          fixedPlace info.box.w dst.width p.1 := by
      rw [scaleX, transX, mul_comm]
      rfl
    have y : p.2 * (exactFixed (exactScale info.box.h dst.height)).toInt +
        (exactFixed (exactTrans info.box.h dst.height)).toInt =
          fixedPlace info.box.h dst.height p.2 := by
      rw [scaleY, transY, mul_comm]
      rfl
    simp only [resizeDst2src, exactMatrix, exactScales, mscalex, mtransx, mscaley,
      mtransy, Matrix.cons_val, x, y, column, row, pointAt]

/-- The values around the source point of a pixel can be any. -/
theorem Sized.source_any (sized : Sized info dst) (src : ImageInfo) (member : p ∈ dst.pixels)
    (taps : Fin 4 → UInt8) :
    ∃ source : Point → UInt8, (fun c => source (tap (exactPoint info src dst p) c)) = taps := by
  rw [sized.exactPoint_eq src member]
  rw [DataInfo.pixels, Raster.mem_columns] at member
  exact source_pointAt (sized.across.fixedPlace_within (by omega) (by omega))
    (sized.down.fixedPlace_within (by omega) (by omega)) taps

/-- The rows of an image, or of a feature map that does not grow in height, are not amplified. -/
theorem exactGain_zero
    (given : affineMode src ∨ src.format.isFmu ∧ 1 ≤ (exactScales info.box dst).scaleY) :
    exactGain src (exactScales info.box dst).scaleY = some 0 := by
  unfold exactGain
  split
  · rfl
  · -- The scale of a feature map is at least one, so it has no gain.
    obtain affine | ⟨_, scale⟩ := given
    · contradiction
    · exact if_neg (not_lt.mpr (scale.trans (le_abs_self _)))

/-- The pieces of an image or of a feature map are squares of 64 by 64. -/
theorem resizeSboxes_eq (given : affineMode src ∨ src.format.isFmu) :
    resizeSboxes src dst = dstSboxes dst.toDataInfo := by
  -- NV12 and all formats with an odd code have the row limit of the affine unit.
  have limit : sboxHMax src = bsAffineSize := by
    unfold sboxHMax
    unfold affineMode at given
    revert given
    cases src.format <;> decide
  unfold resizeSboxes
  rw [limit]
  rfl

/-- The part of a piece, side by side. -/
theorem mem_pieces (given : affineMode src ∨ src.format.isFmu) : box ∈ resizeSboxes src dst ↔
    ∃ i < sboxNum dst.width, ∃ j < sboxNum dst.height,
      box = { x := pieceFirst i, y := pieceFirst j
              w := sboxSide dst.width i, h := sboxSide dst.height j } := by
  rw [resizeSboxes_eq given]
  exact mem_dstSboxes

/-- The pixels of a piece are those of the image between its first and its last places. -/
theorem mem_piece_pixels (within : i < sboxNum dst.width) (below : j < sboxNum dst.height) :
    p ∈ BoxInfo.pixels { x := pieceFirst i, y := pieceFirst j
                         w := sboxSide dst.width i, h := sboxSide dst.height j } ↔
      (pieceFirst i ≤ p.1 ∧ p.1 ≤ pieceLast dst.width i) ∧
        pieceFirst j ≤ p.2 ∧ p.2 ≤ pieceLast dst.height j := by
  have width := sboxSide_within within
  have height := sboxSide_within below
  simp only [BoxInfo.pixels, Raster.mem_columns, pieceLast]
  omega

/-- A part of the source is a box of 16-bit places. -/
theorem Sized.part_sound (sized : Sized info dst) (given : affineMode src ∨ src.format.isFmu)
    (member : box ∈ resizeSboxes src dst) : (partBox info dst box).placed.Sound := by
  obtain ⟨i, within, j, below, rfl⟩ := (mem_pieces given).mp member
  obtain ⟨left, width, right⟩ := sized.across.exactPart_within within
  obtain ⟨top, height, bottom⟩ := sized.down.exactPart_within below
  have across := sized.across.size
  have down := sized.down.size
  -- A part ends at most one place behind a source of 4096.
  refine ⟨left, top, width, height, ?_, ?_⟩
  · show (exactPart info.box.w dst.width i).1 + (exactPart info.box.w dst.width i).2 ≤ 65536
    omega
  · show (exactPart info.box.h dst.height j).1 + (exactPart info.box.h dst.height j).2 ≤ 65536
    omega

/-- The whole box is one of 16-bit places. -/
theorem Sized.wbox_sound (sized : Sized info dst) : info.wbox.placed.Sound := by
  have across := sized.across.size
  have down := sized.down.size
  refine ⟨le_refl _, le_refl _, across.1, down.1, ?_, ?_⟩
  · simp only [BoxInfo.placed, BoxResizeInfo.wbox]
    omega
  · simp only [BoxInfo.placed, BoxResizeInfo.wbox]
    omega

/-- The rounded box is one of 16-bit places. -/
theorem Sized.evenBox_sound (sized : Sized info dst) : info.evenBox.placed.Sound := by
  have across := sized.across.size
  have down := sized.down.size
  refine ⟨le_refl _, le_refl _, ?_, ?_, ?_, ?_⟩
  all_goals
    simp only [BoxInfo.placed, BoxResizeInfo.evenBox]
    omega

/-- The rounded box has what the whole box has. -/
theorem wbox_even {q : Point} (inside : info.wbox.placed.Covers q) :
    info.evenBox.placed.Covers q := by
  simp only [BsBox.Covers, BoxInfo.placed, BoxResizeInfo.wbox, BoxResizeInfo.evenBox] at inside ⊢
  omega

/-- A pixel of a piece is a pixel of the image. -/
theorem piece_pixels (given : affineMode src ∨ src.format.isFmu)
    (member : box ∈ resizeSboxes src dst) (here : p ∈ box.pixels) : p ∈ dst.pixels :=
  sbox_pixels (resizeSboxes_eq given ▸ member) here

/-- With clear edges a part has the weighted taps of its pixels that the rounded box has. -/
theorem Sized.part_covers (sized : Sized info dst) (given : affineMode src ∨ src.format.isFmu)
    (across : EdgesClear info.box.w dst.width) (down : EdgesClear info.box.h dst.height)
    (member : box ∈ resizeSboxes src dst) (here : p ∈ box.pixels)
    (weight : tapWeight (exactPoint info src dst p) c ≠ 0) :
    (partBox info dst box).placed.Covers (tap (exactPoint info src dst p) c) ↔
      info.evenBox.placed.Covers (tap (exactPoint info src dst p) c) := by
  have inside := piece_pixels given member here
  obtain ⟨i, within, j, below, rfl⟩ := (mem_pieces given).mp member
  obtain ⟨column, row⟩ := (mem_piece_pixels within below).mp here
  rw [sized.exactPoint_eq src inside] at weight ⊢
  rw [DataInfo.pixels, Raster.mem_columns] at inside
  obtain ⟨x, y⟩ := (tapWeight_pointAt (sized.across.fixedPlace_within (by omega) (by omega))
    (sized.down.fixedPlace_within (by omega) (by omega)) c).mp weight
  -- Both coordinates of a weighted tap are reached, so each side keeps its own.
  have wide := across.keeps sized.across within column x
  have tall := down.keeps sized.down below row y
  simp only [BsBox.Covers, BoxInfo.placed, BoxResizeInfo.evenBox, Int.zero_add]
  exact and_congr wide tall

/-- Boxes that cover the same weighted taps give the same byte. -/
theorem blendByte_placed {bilinear : Bilinear} {sub whole : BoxInfo} {point : SrcPoint}
    (weighs : bilinear.Weighs) (sound : sub.placed.Sound) (sound' : whole.placed.Sound)
    (same : ∀ c, tapWeight point c ≠ 0 →
      (sub.placed.Covers (tap point c) ↔ whole.placed.Covers (tap point c)))
    (taps : Fin 4 → UInt8) :
    blendByte bilinear sub zeroPoint point taps = blendByte bilinear whole zeroPoint point taps :=
  blendByte_congr weighs fun c weight => boundCheck_congr sound sound' (same c weight)

/-- With clear edges a piece gives what the rounded box gives. -/
theorem Sized.part_runByte (sized : Sized info dst) (given : affineMode src ∨ src.format.isFmu)
    (across : EdgesClear info.box.w dst.width) (down : EdgesClear info.box.h dst.height)
    (member : box ∈ resizeSboxes src dst) (here : p ∈ box.pixels) (taps : Fin 4 → UInt8) :
    blendByte (chnBilinear src.format.bpp) (partBox info dst box) zeroPoint
        (exactPoint info src dst p) taps =
      blendByte (chnBilinear src.format.bpp) info.evenBox zeroPoint (exactPoint info src dst p)
        taps :=
  blendByte_placed (chnBilinear_weighs _) (sized.part_sound given member) sized.evenBox_sound
    (fun _ weight => sized.part_covers given across down member here weight) taps

/-- The whole box gives what the rounded box gives exactly where no tap in the rim is shown. -/
theorem Sized.whole_iff (sized : Sized info dst) (src : ImageInfo) (zeroPoint : UInt8) (p : Point) :
    (∀ taps, blendByte (chnBilinear src.format.bpp) info.wbox zeroPoint (exactPoint info src dst p)
        taps =
      blendByte (chnBilinear src.format.bpp) info.evenBox zeroPoint (exactPoint info src dst p)
        taps) ↔
      ∀ c, Visible (chnBilinear src.format.bpp) info.evenBox zeroPoint
          (exactPoint info src dst p) c →
        info.wbox.placed.Covers (tap (exactPoint info src dst p) c) := by
  rw [blendByte_iff fun c inside => (boundCheck_iff sized.evenBox_sound).mpr
    (wbox_even ((boundCheck_iff sized.wbox_sound).mp inside))]
  exact forall_congr' fun c => imp_congr_right fun _ => boundCheck_iff sized.wbox_sound

/-- The first piece along a side has the first place. -/
theorem first_piece {length : Int} (some : 1 ≤ length) :
    0 < sboxNum length ∧ pieceFirst 0 = 0 ∧ 0 ≤ pieceLast length 0 := by
  have within : 0 < sboxNum length := by
    unfold sboxNum bsAffineSize
    omega
  have side := piece_within within
  refine ⟨within, ?_, ?_⟩
  · simp [pieceFirst]
  · omega

/-- A pixel of a piece has its taps at every place that both its coordinates reach. -/
theorem SplitKeeps.covers (keeps : SplitKeeps info src dst zeroPoint) (sized : Sized info dst)
    (given : affineMode src ∨ src.format.isFmu) (within : i < sboxNum dst.width)
    (below : j < sboxNum dst.height) (column : pieceFirst i ≤ p.1 ∧ p.1 ≤ pieceLast dst.width i)
    (row : pieceFirst j ≤ p.2 ∧ p.2 ≤ pieceLast dst.height j)
    (reachX : Reaches (fixedPlace info.box.w dst.width p.1) n)
    (reachY : Reaches (fixedPlace info.box.h dst.height p.2) m)
    (inX : 0 ≤ n ∧ n < info.box.w) (inY : 0 ≤ m ∧ m < info.box.h) :
    ((exactPart info.box.w dst.width i).1 ≤ n ∧
        n < (exactPart info.box.w dst.width i).1 + (exactPart info.box.w dst.width i).2) ∧
      (exactPart info.box.h dst.height j).1 ≤ m ∧
        m < (exactPart info.box.h dst.height j).1 + (exactPart info.box.h dst.height j).2 := by
  have member := (@mem_pieces src dst _ given).mpr ⟨i, within, j, below, rfl⟩
  have here := (mem_piece_pixels within below).mpr ⟨column, row⟩
  have inside := piece_pixels given member here
  have point := sized.exactPoint_eq src inside
  rw [DataInfo.pixels, Raster.mem_columns] at inside
  have nearX := sized.across.fixedPlace_within (z := p.1) (by omega) (by omega)
  have nearY := sized.down.fixedPlace_within (z := p.2) (by omega) (by omega)
  obtain ⟨c, place⟩ := exists_tap nearX nearY reachX reachY
  have weight := (tapWeight_pointAt nearX nearY c).mpr (by rw [place]; exact ⟨reachX, reachY⟩)
  rw [← point] at weight place
  have kept := keeps.taps _ member p here c weight
  rw [place] at kept
  exact kept (by
    simp only [BsBox.Covers, BoxInfo.placed, BoxResizeInfo.wbox]
    omega)

/-- Pieces that keep the taps have clear edges in both directions, and a clear rim. -/
theorem SplitKeeps.clear (keeps : SplitKeeps info src dst zeroPoint) (sized : Sized info dst)
    (given : affineMode src ∨ src.format.isFmu) :
    EdgesClear info.box.w dst.width ∧ EdgesClear info.box.h dst.height ∧
      RimClear info src dst zeroPoint := by
  have width := sized.across.length.1
  have height := sized.down.length.1
  -- Along one side, the pixels of the first row or column show what the pieces keep.
  have across : EdgesClear info.box.w dst.width := by
    obtain ⟨below, first, last⟩ := first_piece height
    obtain ⟨m, inY, reachY⟩ := sized.down.exists_place (le_refl 0) (by omega)
    apply sized.across.edgesClear
    intro i within z front back n lower upper reachX
    exact (keeps.covers sized given within below (p := (z, 0)) ⟨front, back⟩ ⟨first.le, last⟩ reachX
      reachY ⟨lower, upper⟩ inY).1
  have down : EdgesClear info.box.h dst.height := by
    obtain ⟨within, first, last⟩ := first_piece width
    obtain ⟨n, inX, reachX⟩ := sized.across.exists_place (le_refl 0) (by omega)
    apply sized.down.edgesClear
    intro j below z front back m lower upper reachY
    exact (keeps.covers sized given within below (p := (0, z)) ⟨first.le, last⟩ ⟨front, back⟩ reachX
      reachY inX ⟨lower, upper⟩).2
  refine ⟨across, down, fun p inside => ?_⟩
  -- With clear edges the result of a piece is that of the rounded box.
  obtain ⟨owned, here⟩ := dstSboxes_reach inside
  rw [← resizeSboxes_eq given] at owned
  refine (sized.whole_iff src zeroPoint p).mp fun taps => ?_
  rw [← sized.part_runByte given across down owned here]
  obtain ⟨source, shows⟩ := sized.source_any src inside taps
  have same := keeps.result source _ owned p here
  simp only [runByte, shows] at same
  exact same.symm

/--
The pieces keep the taps and the result exactly where no end of a piece is rounded over the edge of
its part, and no pixel shows the column or the row that rounding to even adds.
-/
theorem splitKeeps_iff (info : BoxResizeInfo) (src dst : ImageInfo) (zeroPoint : UInt8)
    (width : 1 ≤ info.box.w ∧ info.box.w ≤ 4096) (height : 1 ≤ info.box.h ∧ info.box.h ≤ 4096)
    (wide : 1 ≤ dst.width ∧ dst.width ≤ 4096) (tall : 1 ≤ dst.height ∧ dst.height ≤ 4096)
    (given : affineMode src ∨ src.format.isFmu ∧ 1 ≤ (exactScales info.box dst).scaleY) :
    SplitKeeps info src dst zeroPoint ↔
      EdgesClear info.box.w dst.width ∧ EdgesClear info.box.h dst.height ∧
        RimClear info src dst zeroPoint := by
  have sized : Sized info dst := ⟨⟨width, wide⟩, height, tall⟩
  have kind : affineMode src ∨ src.format.isFmu := given.imp_right And.left
  constructor
  · intro keeps
    exact keeps.clear sized kind
  · rintro ⟨across, down, rim⟩
    refine ⟨exactGain_zero given, ?_, ?_⟩
    · intro box member p here c weight inside
      exact (sized.part_covers kind across down member here weight).mpr (wbox_even inside)
    · intro source box member p here
      have inside := piece_pixels kind member here
      exact (sized.part_runByte kind across down member here _).trans
        ((sized.whole_iff src zeroPoint p).mpr (rim p inside) _).symm

/-- A box of even width and height has no rim. -/
theorem rimClear_even (wide : info.box.w % 2 = 0) (tall : info.box.h % 2 = 0)
    (sized : Sized info dst) : RimClear info src dst zeroPoint := by
  have same : info.evenBox = info.wbox := by
    rw [BoxResizeInfo.evenBox, BoxResizeInfo.wbox, wide, tall, add_zero, add_zero]
  rintro p _ c ⟨taps, value, differ⟩
  by_contra out
  rw [same] at differ
  -- A tap outside the box cannot be what makes the difference.
  refine differ (blendByte_outside value ?_)
  rw [← Bool.not_eq_false]
  exact fun through => out ((boundCheck_iff sized.wbox_sound).mp through)

/-- An image is halved in six pieces. -/
theorem splitKeeps_halved : SplitKeeps ⟨⟨6, 8, 256, 130⟩, 0⟩
    ⟨⟨4096, 0, .bgra, 300, 200, 1200⟩, .nmem⟩ ⟨⟨8192, 0, .bgra, 128, 65, 512⟩, .nmem⟩ 0 :=
  (splitKeeps_iff _ _ _ _ (by decide) (by decide) (by decide) (by decide) (Or.inl rfl)).mpr
    ⟨edgesClear_exact (by decide) (by decide), edgesClear_exact (by decide) (by decide),
      rimClear_even rfl rfl ⟨⟨by decide, by decide⟩, by decide, by decide⟩⟩

/-- Place 25 ends a part, but pixel 319 is rounded beyond it and shows what is at place 26. -/
theorem not_splitKeeps_rounded : ¬ SplitKeeps ⟨⟨0, 0, 34, 2⟩, 0⟩
    ⟨⟨4096, 0, .bgra, 34, 2, 136⟩, .nmem⟩ ⟨⟨8192, 0, .bgra, 426, 2, 1704⟩, .nmem⟩ 0 := by
  intro keeps
  -- Column 26 is bright, and the piece puts the zero point in its place.
  have same := keeps.result (fun q => if q.1 = 26 then 255 else 0) ⟨256, 0, 64, 2⟩ (by decide)
    (319, 0) (by decide)
  revert same
  decide +kernel

end Aip.Bscaler
