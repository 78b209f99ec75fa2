import Aip.Bscaler.Split

/-! Resize boxes, and the three pairs of front ends: the chain for the hardware and the model. -/

namespace Aip.Bscaler

/-- `bs_data_locate_e`. -/
inductive DataLocate where
  | nmem
  | oram
  | rmem
  deriving DecidableEq, Repr

/-- `data_info_s` with its memory. -/
structure ImageInfo extends DataInfo where
  locate : DataLocate
  deriving DecidableEq, Repr

/-- `box_resize_info_s`. -/
structure BoxResizeInfo where
  box : BoxInfo
  zeroPoint : UInt32
  deriving DecidableEq, Repr

/--
`bsc_hw_once_cfg_s` for a resize box, with `none` in a member that is left unset.

The model sets `nv2bgr_alpha` on its own, so the member is not here.
-/
structure ResizeCfg where
  srcBase0 : Int
  srcBase1 : Int
  srcFormat : DataFormat
  srcLineStride : Int
  srcBox : BoxInfo
  dstBase0 : Int
  dstBase1 : Option Int
  dstFormat : DataFormat
  dstLineStride : Int
  dstBox : BoxInfo
  affine : Bool
  boxMode : Bool
  yGainExp : Nat
  zeroPoint : UInt8
  coef : Fin 9 → UInt32
  offset : Fin 2 → UInt8
  matrix : Fin 9 → Option Int32
  boxNum : Nat
  boxesInfo : Int
  isum : Nat
  osum : Nat
  boxBus : Nat
  ibufcBus : DataLocate
  obufcBus : DataLocate
  irqMask : Nat

def bsResizeW : Int := 64
def bsResizeH : Int := 256

/-- An `int` as a `float`. -/
def toFloat (value : Int) : Float32 := (Int32.ofInt value).toFloat32

/-- `get_exp`, with `none` where the shift leaves the positive numbers of an `int`. -/
def getExp (scaleY : Float32) : Option Nat :=
  (List.range' 1 30).find? fun n => ¬ scaleY * toFloat (2 ^ n) < 1

/-- How the source is scaled and shifted, from the sizes of the source box and the destination. -/
structure Resampling where
  scaleX : Float32
  scaleY : Float32
  transX : Float32
  transY : Float32

/-- The scales of a box, before the vertical gain. -/
def resampling (box : BoxInfo) (dst : ImageInfo) : Resampling :=
  let scaleX := toFloat box.w / toFloat dst.width
  let scaleY := toFloat box.h / toFloat dst.height
  { scaleX := scaleX
    scaleY := scaleY
    transX := 0.5 * scaleX - 0.5
    transY := 0.5 * scaleY - 0.5 }

/-- A `float` with 16 bits behind the point. -/
def toFixed (value : Float32) : Int32 := (value * toFloat (2 ^ matAcc)).round.toInt32

/-- Sources from `BS_DATA_NV12` to `BS_DATA_ARGB` are resized by the affine unit. -/
def affineMode (src : ImageInfo) : Bool :=
  src.format.code ≤ DataFormat.argb.code ∧ DataFormat.nv12.code ≤ src.format.code

/-- `y_gain_exp`. -/
def yGain (src : ImageInfo) (scaleY : Float32) : Option Nat :=
  -- The affine unit needs no gain, and neither does a box that shrinks.
  if affineMode src then some 0
  else if scaleY.abs < 1 then getExp scaleY.abs
  else some 0

/-- The rows that a destination may have without being cut. -/
def sboxHMax (src : ImageInfo) : Int :=
  if src.format.code &&& 1 = 1 ∨ src.format = .nv12 then bsAffineSize else bsResizeH

/-- The bytes from a column to the next one. -/
def columnBytes : DataFormat → Int
  | .nv12 => 1
  | .fmu2 => 8
  | .fmu4 => 16
  | .fmu8 => 32
  | _ => 4

/-- The assertions on a box that is read from or written to a plane of NV12. -/
def EvenBox (box : BoxInfo) : Prop := box.x % 2 = 0 ∧ box.y % 2 = 0 ∧ box.w % 2 = 0 ∧ box.h % 2 = 0

instance (box : BoxInfo) : Decidable (EvenBox box) := inferInstanceAs (Decidable (_ ∧ _))

/-- The assertions on the source of a resize box. -/
def SourceAsserts (info : BoxResizeInfo) (src : ImageInfo) : Prop :=
  src.format ≠ .vrgb ∧ (src.format = .nv12 → EvenBox info.box)

instance (info : BoxResizeInfo) (src : ImageInfo) : Decidable (SourceAsserts info src) :=
  inferInstanceAs (Decidable (_ ∧ _))

/-- Where the planes of the source box start. -/
def resizeWboxBase (src : ImageInfo) (box : BoxInfo) : Int × Int :=
  (src.base + box.y * src.lineStride + box.x * columnBytes src.format,
    if src.format ≠ .nv12 then 0
    else if src.base1 = 0 then
      src.base + src.height * src.lineStride + box.y / 2 * src.lineStride + box.x
    else src.base1)

/-- Where the second plane of an NV12 destination starts. -/
def dstWboxBase1 (dst : ImageInfo) : Int :=
  if dst.base1 = 0 then dst.base + dst.height * dst.lineStride else dst.base1

/-- The matrix of a box; the last row is left unset unless `last` is. -/
def resizeMatrix (scales : Resampling) (gain : Nat) (last : Bool) : Fin 9 → Option Int32 :=
  ![some (toFixed scales.scaleX), some 0, some (toFixed scales.transX),
    some 0, some (toFixed (scales.scaleY * toFloat (2 ^ gain))),
    some (toFixed (scales.transY * toFloat (2 ^ gain))),
    if last then some 0 else none, if last then some 0 else none,
    if last then some (2 ^ 16) else none]

/-- The configuration of a box in one piece. -/
def resizeCfg (info : BoxResizeInfo) (src dst : ImageInfo) (coef : Fin 9 → UInt32)
    (offset : Fin 2 → UInt32) (gain : Nat) : ResizeCfg :=
  let box := info.box
  { srcBase0 := (resizeWboxBase src box).1
    srcBase1 := (resizeWboxBase src box).2
    srcFormat := src.format
    srcLineStride := src.lineStride
    srcBox := { x := 0, y := 0, w := box.w, h := box.h }
    dstBase0 := dst.base
    dstBase1 := if dst.format = .nv12 then some (dstWboxBase1 dst) else none
    dstFormat := dst.format
    dstLineStride := dst.lineStride
    dstBox := { x := 0, y := 0, w := dst.width, h := dst.height }
    affine := affineMode src
    boxMode := true
    yGainExp := gain
    zeroPoint := info.zeroPoint.toUInt8
    coef := coef
    offset := fun i => (offset i).toUInt8
    matrix := resizeMatrix (resampling box dst) gain (affineMode src)
    boxNum := 1
    boxesInfo := 0
    isum := 0
    osum := 0
    boxBus := 0
    ibufcBus := src.locate
    obufcBus := dst.locate
    irqMask := 1 }

/-- `bs_resize_cfg_stuff`. -/
def bsResizeCfgStuff (bsCfgs : List ResizeCfg) (info : BoxResizeInfo) (src dst : ImageInfo)
    (coef : Fin 9 → UInt32) (offset : Fin 2 → UInt32) : Option (List ResizeCfg) :=
  if SourceAsserts info src then
    (yGain src (resampling info.box dst).scaleY).map fun gain =>
      bsCfgs ++ [resizeCfg info src dst coef offset gain]
  else none

/-- The float that `CLIP` keeps between zero and the last place of a side. -/
def clipFloat (value : Float32) (last : Int) : Float32 :=
  if value < 0 then 0 else if toFloat last < value then toFloat last else value

/-- One side of `resize_cac_sub_box`. -/
def resizeSubSide (scale trans : Float32) (start length size : Int) : Int × Int :=
  let low := scale * toFloat start + trans
  let high := scale * toFloat (start + length - 1) + trans
  let least := clipFloat (if low < high then low else high) (size - 1)
  let most := clipFloat (if high < low then low else high) (size - 1)
  -- Start and length are made even, for NV12.
  let first := least.toInt32.toInt
  let start := if first % 2 ≠ 0 then first - 1 else first
  let length := most.ceil.toInt32.toInt - start + 1
  (start, if length % 2 ≠ 0 then length + 1 else length)

/-- `resize_cac_sub_box`. -/
def resizeCacSubBox (dst wbox : BoxInfo) (scales : Resampling) : BoxInfo :=
  let side := resizeSubSide scales.scaleX scales.transX dst.x dst.w wbox.w
  let height := resizeSubSide scales.scaleY scales.transY dst.y dst.h wbox.h
  { x := side.1, y := height.1, w := side.2, h := height.2 }

/-- The number of pieces along one side. -/
def pieces (size limit : Int) : Nat := ((size + limit - 1) / limit).toNat

/-- The length of a piece, which is shorter at the end. -/
def pieceSide (size limit : Int) (i : Nat) : Int :=
  if i = pieces size limit - 1 then (size - 1) % limit + 1 else limit

/-- The destination boxes of a resize box, row after row. -/
def resizeSboxes (src dst : ImageInfo) : List BoxInfo :=
  (List.range (pieces dst.height (sboxHMax src))).flatMap fun j : Nat =>
    (List.range (pieces dst.width bsResizeW)).map fun i : Nat =>
      { x := (i : Int) * bsResizeW, y := (j : Int) * sboxHMax src
        w := pieceSide dst.width bsResizeW i, h := pieceSide dst.height (sboxHMax src) j }

/-- The configuration of one piece. -/
def resizeSboxCfg (info : BoxResizeInfo) (src dst : ImageInfo) (coef : Fin 9 → UInt32)
    (offset : Fin 2 → UInt32) (gain : Nat) (dstSbox : BoxInfo) : ResizeCfg :=
  let wbox : BoxInfo := { x := 0, y := 0, w := info.box.w, h := info.box.h }
  let scales := resampling info.box dst
  let srcSbox := resizeCacSubBox dstSbox wbox scales
  let base := resizeWboxBase src info.box
  { srcBase0 := base.1 + srcSbox.y * src.lineStride + srcSbox.x * columnBytes src.format
    srcBase1 := if src.format = .nv12 then base.2 + srcSbox.y / 2 * src.lineStride + srcSbox.x
      else 0
    srcFormat := src.format
    srcLineStride := src.lineStride
    srcBox := srcSbox
    -- Each piece has its own place in the destination.
    dstBase0 := if dst.format = .vrgb then 0
      else dst.base + dstSbox.y * dst.lineStride + dstSbox.x * columnBytes dst.format
    dstBase1 := some (if dst.format = .nv12 then
      dstWboxBase1 dst + dstSbox.y / 2 * dst.lineStride + dstSbox.x else 0)
    dstFormat := dst.format
    dstLineStride := dst.lineStride
    dstBox := dstSbox
    affine := affineMode src
    boxMode := true
    yGainExp := gain
    zeroPoint := info.zeroPoint.toUInt8
    coef := coef
    offset := fun i => (offset i).toUInt8
    matrix := resizeMatrix scales gain true
    boxNum := 1
    boxesInfo := 0
    isum := 0
    osum := 0
    boxBus := 0
    ibufcBus := src.locate
    obufcBus := dst.locate
    irqMask := 1 }

/-- `resize_box_split`: a box in pieces. -/
def resizeBoxSplit (bsCfgs : List ResizeCfg) (info : BoxResizeInfo) (src dst : ImageInfo)
    (coef : Fin 9 → UInt32) (offset : Fin 2 → UInt32) : Option (List ResizeCfg) :=
  if SourceAsserts info src then
    (yGain src (resampling info.box dst).scaleY).bind fun gain =>
      ((resizeSboxes src dst).mapM fun dstSbox =>
        -- The box of an NV12 destination is checked for each piece.
        if dst.format = .nv12 → EvenBox info.box then
          some (resizeSboxCfg info src dst coef offset gain dstSbox)
        else none).map (bsCfgs ++ ·)
  else none

/-- A box with its destination. -/
abbrev ResizeBox := BoxResizeInfo × ImageInfo

/-- `resize_split` of `bs_resize_start`. -/
def startSplits (src : ImageInfo) (box : ResizeBox) : Bool :=
  bsResizeW < box.2.width ∨ sboxHMax src < box.2.height

/-- `resize_split` of `bs_resize_mdl`, which looks at the first destination for every box. -/
def mdlSplits (boxes : List ResizeBox) : Bool :=
  match boxes with
  | [] => false
  -- The row limit is that of the line unit, for all formats.
  | first :: _ => bsResizeW < first.2.width ∨ bsResizeH < first.2.height

/-- The loop that cuts the large boxes and puts the others aside. -/
def pickResize (splits : ResizeBox → Bool) (src : ImageInfo) (coef : Fin 9 → UInt32)
    (offset : Fin 2 → UInt32) (boxes : List ResizeBox) :
    Option (List ResizeCfg × List ResizeBox) :=
  boxes.foldlM (fun (bsCfgs, resResizeBoxes) box =>
    if splits box then
      (resizeBoxSplit bsCfgs box.1 src box.2 coef offset).map (·, resResizeBoxes)
    else some (bsCfgs, resResizeBoxes ++ [box])) ([], [])

/-- `bs_resize_line_cfg_stuff`. -/
def bsResizeLineCfgStuff (bsCfgs : List ResizeCfg) (resResizeBoxes : List ResizeBox)
    (src : ImageInfo) (coef : Fin 9 → UInt32) (offset : Fin 2 → UInt32) :
    Option (List ResizeCfg) :=
  resResizeBoxes.foldlM (fun bsCfgs box => bsResizeCfgStuff bsCfgs box.1 src box.2 coef offset)
    bsCfgs

/-- `bs_resize_start` up to the chain. -/
def bsResizeStart (src : ImageInfo) (boxes : List ResizeBox) (coef : Fin 9 → UInt32)
    (offset : Fin 2 → UInt32) : Option (List ResizeCfg) :=
  (pickResize (startSplits src) src coef offset boxes).bind fun (bsCfgs, resResizeBoxes) =>
    bsResizeLineCfgStuff bsCfgs resResizeBoxes src coef offset

/-- `bs_resize_mdl` up to the model of the hardware. -/
def bsResizeMdl (src : ImageInfo) (boxes : List ResizeBox) (coef : Fin 9 → UInt32)
    (offset : Fin 2 → UInt32) : Option (List ResizeCfg) :=
  (pickResize (fun _ => mdlSplits boxes) src coef offset boxes).bind
    fun (bsCfgs, resResizeBoxes) => bsResizeLineCfgStuff bsCfgs resResizeBoxes src coef offset

section Affine

variable {Box Cfg Coefs : Type*}

/--
The functions that add the configurations of one box, whole or in pieces.

Both front ends of a pair call the same ones, so they stand for whatever these functions do.
-/
structure Stuffing (Box Cfg Coefs : Type*) where
  affineBoxSplit : List Cfg → Box → ImageInfo → ImageInfo → Coefs → Option (List Cfg)
  bsAffineCfgStuff : List Cfg → Box → ImageInfo → ImageInfo → Coefs → Option (List Cfg)
  perspectiveBoxSplit : List Cfg → Box → ImageInfo → ImageInfo → Coefs → Option (List Cfg)
  bsPerspectiveCfgStuff : List Cfg → Box → ImageInfo → ImageInfo → Coefs → Option (List Cfg)
  affineResizeBoxSplit : List Cfg → Box → ImageInfo → ImageInfo → Coefs → Option (List Cfg)
  bsAffineResizeCfgStuff : List Cfg → Box → ImageInfo → ImageInfo → Coefs → Option (List Cfg)

/-- What the boxes are sorted into; the sorting is under `#if 0`. -/
structure Classes (Box : Type*) where
  perspectiveBoxes : List (Box × ImageInfo)
  affineBoxes : List (Box × ImageInfo)
  resizeBoxes : List (Box × ImageInfo)

/-- A loop over the boxes of a class, each cut or not by its own or by the first destination. -/
def classLoop (splits : Box × ImageInfo → Bool)
    (boxSplit cfgStuff : List Cfg → Box → ImageInfo → ImageInfo → Coefs → Option (List Cfg))
    (src : ImageInfo) (coefs : Coefs) (bsCfgs : List Cfg) (boxes : List (Box × ImageInfo)) :
    Option (List Cfg) :=
  boxes.foldlM (fun bsCfgs box =>
    if splits box then boxSplit bsCfgs box.1 src box.2 coefs
    else cfgStuff bsCfgs box.1 src box.2 coefs) bsCfgs

/-- `affine_split` and `perspective_split`. -/
def splitsAbove64 (box : Box × ImageInfo) : Bool := 64 < box.2.width ∨ 64 < box.2.height

/-- `resize_split` by the first destination. -/
def firstSplits (boxes : List (Box × ImageInfo)) : Bool :=
  match boxes with
  | [] => false
  | first :: _ => bsResizeW < first.2.width ∨ bsResizeH < first.2.height

/-- `bs_affine_start` up to the chain. -/
def bsAffineStart (s : Stuffing Box Cfg Coefs) (src : ImageInfo) (boxes : List (Box × ImageInfo))
    (coefs : Coefs) : Option (List Cfg) := do
  let classes : Classes Box := { perspectiveBoxes := [], affineBoxes := boxes, resizeBoxes := [] }
  let bsCfgs ← classLoop splitsAbove64 s.affineBoxSplit s.bsAffineCfgStuff src coefs []
    classes.affineBoxes
  classLoop (fun _ => firstSplits boxes) s.affineResizeBoxSplit s.bsAffineResizeCfgStuff src coefs
    bsCfgs classes.resizeBoxes

/-- `bs_affine_mdl` up to the model of the hardware. -/
def bsAffineMdl (s : Stuffing Box Cfg Coefs) (src : ImageInfo) (boxes : List (Box × ImageInfo))
    (coefs : Coefs) : Option (List Cfg) := do
  let classes : Classes Box := { perspectiveBoxes := [], affineBoxes := boxes, resizeBoxes := [] }
  let bsCfgs ← classLoop splitsAbove64 s.affineBoxSplit s.bsAffineCfgStuff src coefs []
    classes.affineBoxes
  classLoop (fun _ => firstSplits boxes) s.affineResizeBoxSplit s.bsAffineResizeCfgStuff src coefs
    bsCfgs classes.resizeBoxes

/-- `bs_perspective_start` up to the chain. -/
def bsPerspectiveStart (s : Stuffing Box Cfg Coefs) (src : ImageInfo)
    (boxes : List (Box × ImageInfo)) (coefs : Coefs) : Option (List Cfg) := do
  let classes : Classes Box := { perspectiveBoxes := boxes, affineBoxes := [], resizeBoxes := [] }
  let bsCfgs ← classLoop splitsAbove64 s.perspectiveBoxSplit s.bsPerspectiveCfgStuff src coefs []
    classes.perspectiveBoxes
  let bsCfgs ← classLoop splitsAbove64 s.affineBoxSplit s.bsAffineCfgStuff src coefs bsCfgs
    classes.affineBoxes
  classLoop (fun _ => firstSplits boxes) s.affineResizeBoxSplit s.bsAffineResizeCfgStuff src coefs
    bsCfgs classes.resizeBoxes

/-- `bs_perspective_mdl` up to the model of the hardware. -/
def bsPerspectiveMdl (s : Stuffing Box Cfg Coefs) (src : ImageInfo)
    (boxes : List (Box × ImageInfo)) (coefs : Coefs) : Option (List Cfg) := do
  let classes : Classes Box := { perspectiveBoxes := boxes, affineBoxes := [], resizeBoxes := [] }
  let bsCfgs ← classLoop splitsAbove64 s.perspectiveBoxSplit s.bsPerspectiveCfgStuff src coefs []
    classes.perspectiveBoxes
  let bsCfgs ← classLoop splitsAbove64 s.affineBoxSplit s.bsAffineCfgStuff src coefs bsCfgs
    classes.affineBoxes
  classLoop (fun _ => firstSplits boxes) s.affineResizeBoxSplit s.bsAffineResizeCfgStuff src coefs
    bsCfgs classes.resizeBoxes

end Affine

end Aip.Bscaler
