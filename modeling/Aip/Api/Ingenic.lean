import Aip.Api.Coefficients
import Aip.Lib.Loop
import Mathlib.Data.BitVec

/-! The nodes that `ingenic_aip.c` builds for a list of boxes, on T41 and on A1. -/

namespace Aip.Ingenic

/-- `bs_data_format_e`. -/
inductive BsDataFormat where
  | y | bgra | gbra | rbga | brga | grba | rgba | abgr | agbr | arbg | abrg | agrb | argb
  | fmu2 | fmu4 | fmu8 | fmu8H | vbgr | vrgb | nv12 | uv
  deriving DecidableEq, Repr

/-- The numbers of the formats, which the code compares. -/
def BsDataFormat.value : BsDataFormat → Nat
  | .y => 0
  | .bgra => 1
  | .gbra => 3
  | .rbga => 5
  | .brga => 7
  | .grba => 9
  | .rgba => 11
  | .abgr => 17
  | .agbr => 19
  | .arbg => 21
  | .abrg => 23
  | .agrb => 25
  | .argb => 27
  | .fmu2 => 33
  | .fmu4 => 65
  | .fmu8 => 97
  | .fmu8H => 98
  | .vbgr => 101
  | .vrgb => 102
  | .nv12 => 111
  | .uv => 112

/-- The test for a format of four bytes a pixel. -/
def BsDataFormat.isRgb (format : BsDataFormat) : Bool :=
  BsDataFormat.bgra.value ≤ format.value ∧ format.value ≤ BsDataFormat.argb.value

/-- `bs_data_locate_e`. -/
inductive BsDataLocate where
  | nmem | oram | rmem
  deriving DecidableEq, Repr

/-- The cases of `switch (src->locate)`, as a value of `AIP_DDRORORAM`. -/
def BsDataLocate.bus : BsDataLocate → UInt32
  | .nmem | .rmem => 0
  | .oram => 1

/-- `data_info_s`, without `chn`. -/
structure DataInfo where
  base : UInt32
  base1 : UInt32
  format : BsDataFormat
  width : Int32
  height : Int32
  lineStride : Int32
  locate : BsDataLocate
  deriving DecidableEq, Repr

/-- `box_info_s`. -/
structure BoxInfo where
  x : Int32
  y : Int32
  w : Int32
  h : Int32
  deriving DecidableEq, Repr

/-- `box_affine_info_s`, without `wrap`. -/
structure BoxAffineInfo where
  box : BoxInfo
  matrix : Vector Float32 9
  zeroPoint : UInt32

/-- `box_resize_info_s`, without the fields that are not read. -/
structure BoxResizeInfo where
  box : BoxInfo
  deriving DecidableEq, Repr

/-- The cases of `switch (dst[i].format)`, as a value of `AIP_RGB_FORMAT`. -/
def rgbFormat : BsDataFormat → Option UInt32
  | .y | .uv | .nv12 | .bgra => some 0
  | .gbra => some 1
  | .rbga => some 2
  | .brga => some 3
  | .grba => some 4
  | .rgba => some 5
  | .abgr => some 8
  | .agbr => some 9
  | .arbg => some 10
  | .abrg => some 11
  | .agrb => some 12
  | .argb => some 13
  -- The default case leaves the variable alone.
  | .fmu2 | .fmu4 | .fmu8 | .fmu8H | .vbgr | .vrgb => none

/-- The cases of `switch (src->format)` of a resize, as a value of `AIP_F_DATA_FORMAT`. -/
def fDataFormat (format : BsDataFormat) : Option UInt32 :=
  match format with
  | .y => some 0
  | .uv => some 1
  | .fmu2 => some 3
  | .fmu4 => some 4
  | .fmu8 => some 5
  | .fmu8H => some 6
  | .nv12 => some 7
  | .vbgr | .vrgb => none
  | _ => some 2

/-- The assignment of the implied chroma plane to `src->base1`. -/
def DataInfo.cacheBase1 (src : DataInfo) : DataInfo :=
  if src.base1 = 0 then { src with base1 := src.base + (src.width * src.height).toUInt32 } else src

/-- The words of the three rows of a matrix, `coef_parm0` to `coef_parm14`. -/
structure CoefParms where
  x : Coefficients.Words
  y : Coefficients.Words
  z : Coefficients.Words
  deriving DecidableEq, Repr

/-- The words of nine coefficients. -/
def CoefParms.pack (ax bx cx ay by' cy az bz cz : Int64) : CoefParms where
  x := .pack ax.toBitVec bx.toBitVec cx.toBitVec
  y := .pack ay.toBitVec by'.toBitVec cy.toBitVec
  z := .pack az.toBitVec bz.toBitVec cz.toBitVec

/-- The transformation of the matrix in `ingenic_aip_affine_process`. -/
def affineParms (m : Vector Float32 9) : CoefParms :=
  let D : Float := (m[0] * m[4] - m[1] * m[3]).toFloat
  let D := if D != 0 then 1 / D else 0
  let A11 := m[4].toFloat * D
  let A22 := m[0].toFloat * D
  let m0 := A11.toFloat32
  let m1 := (m[1].toFloat * -D).toFloat32
  let m3 := (m[3].toFloat * -D).toFloat32
  let m4 := A22.toFloat32
  let m2 := -m0 * m[2] - m1 * m[5]
  let m5 := -m3 * m[2] - m4 * m[5]
  let fixed (value : Float32) : Int64 := (value * 65536).toFloat.round.toInt64
  .pack (fixed m0) (fixed m1) (fixed m2) (fixed m3) (fixed m4) (fixed m5) (fixed m[6]) (fixed m[7])
    (fixed m[8])

/-- The transformation of the matrix in `ingenic_aip_perspective_process`. -/
def perspectiveParms (m : Vector Float32 9) : CoefParms :=
  let t0 := (m[0] * (m[4] * m[8] - m[5] * m[7])).toFloat
  let t1 := (m[1] * (m[3] * m[8] - m[5] * m[6])).toFloat
  let t2 := (m[2] * (m[3] * m[7] - m[4] * m[6])).toFloat
  let t3 := t0 - t1 + t2
  let scale : Float32 := (1 / t3).toFloat32
  let entry (minor : Float32) : Float := if t3 != 0 then (minor * scale).toFloat else 0
  -- 26bit fixed point.
  let fixed (value : Float) : Int64 := (value * 65536 * 1024).round.toInt64
  .pack (fixed (entry (m[4] * m[8] - m[5] * m[7]))) (fixed (entry (m[2] * m[7] - m[1] * m[8])))
    (fixed (entry (m[1] * m[5] - m[2] * m[4]))) (fixed (entry (m[5] * m[6] - m[3] * m[8])))
    (fixed (entry (m[0] * m[8] - m[2] * m[6]))) (fixed (entry (m[2] * m[3] - m[0] * m[5])))
    (fixed (entry (m[3] * m[7] - m[4] * m[6]))) (fixed (entry (m[1] * m[6] - m[0] * m[7])))
    (fixed (entry (m[0] * m[4] - m[1] * m[3])))

/-- `struct aip_p_chainnode`. -/
structure AipPChainnode where
  mode : UInt32
  srcBaseY : UInt32
  srcBaseUv : UInt32
  srcStride : UInt32
  dstBase : UInt32
  dstStride : UInt32
  dstWidth : UInt16
  dstHeight : UInt16
  srcWidth : UInt16
  srcHeight : UInt16
  dummyVal : UInt32
  coefParm : CoefParms
  offset : UInt32
  pCtrl : UInt32
  deriving DecidableEq, Repr

/-- `struct aip_t_chainnode`. -/
structure AipTChainnode where
  srcBaseY : UInt32
  srcBaseUv : UInt32
  dstBase : UInt32
  srcWidth : UInt16
  srcHeight : UInt16
  srcStride : UInt16
  dstStride : UInt16
  taskLen : UInt32
  taskSkipBase : UInt32
  tCtrl : UInt32
  deriving DecidableEq, Repr

/-- `struct aip_f_chainnode`. -/
structure AipFChainnode where
  scaleX : UInt32
  scaleY : UInt32
  transX : Int32
  transY : Int32
  srcBaseY : UInt32
  srcBaseUv : UInt32
  dstBaseY : UInt32
  dstBaseUv : UInt32
  srcWidth : UInt16
  srcHeight : UInt16
  dstWidth : UInt16
  dstHeight : UInt16
  dstStride : UInt16
  srcStride : UInt16
  fCtrl : UInt32
  deriving DecidableEq, Repr

/-- What the locals without an initialiser hold when a function is entered. -/
structure Stack where
  format : UInt32
  srcLocate : UInt32
  dstLocate : UInt32
  deriving DecidableEq, Repr

/-- The locals of the affine and the perspective loop that live on from box to box. -/
structure PLocals where
  src : DataInfo
  mode : UInt8
  srcBaseUv : UInt32
  offsetY : UInt32
  offsetUv : UInt32
  dstFormat : UInt32
  srcLocate : UInt32
  dstLocate : UInt32
  deriving DecidableEq, Repr

/-- The locals before the first box. -/
def PLocals.start (stack : Stack) (src : DataInfo) : PLocals :=
  { src := src, mode := 0, srcBaseUv := 0, offsetY := 0, offsetUv := 0, dstFormat := stack.format,
    srcLocate := stack.srcLocate, dstLocate := stack.dstLocate }

/-- The addresses and the mode of a box, by the format of the source. -/
def PLocals.place (l : PLocals) (box : BoxInfo) : PLocals :=
  let line := l.src.lineStride * box.y
  if l.src.format.isRgb then { l with offsetY := (line + box.x * 4).toUInt32, mode := 3 }
  else if l.src.format = .nv12 then { l with
    src := l.src.cacheBase1
    srcBaseUv := l.src.cacheBase1.base1
    offsetY := (line + box.x).toUInt32
    offsetUv := (line / 2 + box.x).toUInt32
    mode := 2 }
  else if l.src.format = .uv then { l with offsetY := (line + box.x * 2).toUInt32, mode := 1 }
  else if l.src.format = .y then { l with offsetY := (line + box.x).toUInt32, mode := 0 }
  else l

/-- The three `switch` statements of a box. -/
def PLocals.select (l : PLocals) (dst : DataInfo) : PLocals :=
  { l with
    dstFormat := (rgbFormat dst.format).getD l.dstFormat
    srcLocate := l.src.locate.bus
    dstLocate := dst.locate.bus }

/-- A box with its destination. -/
abbrev PBox := BoxAffineInfo × DataInfo

/--
One turn of the affine and the perspective loop.

The two differ in how they transform the matrix and in whose line stride they take.
-/
def pStep (parms : Vector Float32 9 → CoefParms) (dstStride : DataInfo → Int32)
    (offset : UInt32 × UInt32) (l : PLocals) (item : PBox) : AipPChainnode × PLocals :=
  let box := item.1.box
  let dst := item.2
  let l := (l.place box).select dst
  ({ mode := l.mode.toUInt32
     srcBaseY := l.src.base + l.offsetY
     srcBaseUv := l.srcBaseUv + l.offsetUv
     srcStride := l.src.lineStride.toUInt32
     dstBase := dst.base
     dstStride := (dstStride dst).toUInt32
     dstWidth := dst.width.toUInt32.toUInt16
     dstHeight := dst.height.toUInt32.toUInt16
     srcWidth := box.w.toUInt32.toUInt16
     srcHeight := box.h.toUInt32.toUInt16
     dummyVal := item.1.zeroPoint
     coefParm := parms item.1.matrix
     -- `alpha` is 0.
     offset := l.dstFormat <<< 24 ||| (offset.2 <<< 8 ||| offset.1)
     pCtrl := 0 }, l)

/-- The nodes and the bus configuration that a function hands on, and the source behind the call. -/
structure Built (Node : Type) where
  nodes : List Node
  cfg : UInt32
  src : DataInfo
  deriving DecidableEq, Repr

/-- The loop of the affine and the perspective function, and the configuration behind it. -/
def pProcess (parms : Vector Float32 9 → CoefParms) (dstStride : DataInfo → Int32)
    (offset : UInt32 × UInt32) (stack : Stack) (src : DataInfo) (items : List PBox) :
    Built AipPChainnode :=
  let loop := Loop.run (pStep parms dstStride offset) (.start stack src) items
  { nodes := loop.1
    cfg := loop.2.dstLocate <<< 1 ||| loop.2.srcLocate
    src := loop.2.src }

/-- `ingenic_aip_affine_process`, which T41 and A1 share. -/
def affineProcess (offset : UInt32 × UInt32) (stack : Stack) (src : DataInfo) (items : List PBox) :
    Built AipPChainnode :=
  pProcess affineParms DataInfo.lineStride offset stack src items

/-- `ingenic_aip_perspective_process`, which T41 and A1 share and which reads `dst->line_stride`. -/
def perspectiveProcess (offset : UInt32 × UInt32) (stack : Stack) (src : DataInfo)
    (items : List PBox) : Built AipPChainnode :=
  let stride (dst : DataInfo) : Int32 :=
    match items with
    | [] => dst.lineStride
    | first :: _ => first.2.lineStride
  pProcess perspectiveParms stride offset stack src items

/-- The locals of the resize loop that live on from box to box. -/
structure FLocals where
  src : DataInfo
  scaleX : Float32
  scaleY : Float32
  srcBaseUv : UInt32
  dstBaseUv : UInt32
  offsetY : UInt32
  offsetUv : UInt32
  lineStride : Int32

/-- The locals before the first box; the scales and the line are not read before they are set. -/
def FLocals.start (src : DataInfo) : FLocals :=
  { src := src, scaleX := 0, scaleY := 0, srcBaseUv := 0, dstBaseUv := 0, offsetY := 0,
    offsetUv := 0, lineStride := 0 }

/-- The addresses of a box, by the format of the source. -/
def FLocals.place (l : FLocals) (box : BoxInfo) (dst : DataInfo) : FLocals :=
  let line := l.src.lineStride * box.y
  if l.src.format.isRgb then { l with offsetY := (line + box.x * 4).toUInt32 }
  else if l.src.format = .nv12 then { l with
    src := l.src.cacheBase1
    srcBaseUv := l.src.cacheBase1.base1
    dstBaseUv := dst.base1
    offsetY := (line + box.x).toUInt32
    offsetUv := (line / 2 + box.x).toUInt32 }
  else if l.src.format = .y ∨ l.src.format = .uv then { l with offsetY := (line + box.x).toUInt32 }
  else if l.src.format = .fmu2 then { l with offsetY := (line + 8 * box.x).toUInt32 }
  else if l.src.format = .fmu4 then { l with offsetY := (line + 16 * box.x).toUInt32 }
  else if l.src.format = .fmu8 then { l with offsetY := (line + 32 * box.x).toUInt32 }
  else if l.src.format = .fmu8H then { l with offsetY := (line + 16 * box.x).toUInt32 }
  else l

/-- The scale of one axis. -/
def scaleWord (scale : Float32) : UInt32 := (scale * 65536).toUInt32

/-- The translation of one axis. -/
def transWord (scale : Float32) : Int32 := ((scale.toFloat * 0.5 - 0.5) * 65536).toInt32

/-- A box with its destination. -/
abbrev FBox := BoxResizeInfo × DataInfo

/-- One turn of the resize loop. -/
def fStep (l : FLocals) (item : FBox) : AipFChainnode × FLocals :=
  let box := item.1.box
  let dst := item.2
  let l := { l with
    scaleX := box.w.toFloat32 / dst.width.toFloat32
    scaleY := box.h.toFloat32 / dst.height.toFloat32
    lineStride := dst.lineStride }
  let l := l.place box dst
  ({ scaleX := scaleWord l.scaleX
     scaleY := scaleWord l.scaleY
     transX := transWord l.scaleX
     transY := transWord l.scaleY
     srcBaseY := l.src.base + l.offsetY
     srcBaseUv := l.srcBaseUv + l.offsetUv
     dstBaseY := dst.base
     dstBaseUv := l.dstBaseUv
     srcWidth := box.w.toUInt32.toUInt16
     srcHeight := box.h.toUInt32.toUInt16
     dstWidth := dst.width.toUInt32.toUInt16
     dstHeight := dst.height.toUInt32.toUInt16
     dstStride := dst.lineStride.toUInt32.toUInt16
     srcStride := l.src.lineStride.toUInt32.toUInt16
     fCtrl := 0 }, l)

/-- The bus configuration of a resize, which reads `dst->locate`. -/
def fCfg (stack : Stack) (src : DataInfo) (items : List FBox) : UInt32 :=
  let srcFormat := (fDataFormat src.format).getD stack.format
  let dstLocate := (items.head?.map fun first => first.2.locate.bus).getD stack.dstLocate
  srcFormat <<< 7 ||| (dstLocate <<< 1 ||| src.locate.bus)

/-- `ingenic_aip_resize_process` of T41. -/
def resizeProcess (stack : Stack) (src : DataInfo) (items : List FBox) : Built AipFChainnode :=
  let loop := Loop.run fStep (.start src) items
  { nodes := loop.1, cfg := fCfg stack src items, src := loop.2.src }

/-- The node that A1 adds behind those of the boxes, which writes to memory nobody reads. -/
def FLocals.extra (l : FLocals) (useless : UInt32) : AipFChainnode :=
  { scaleX := scaleWord l.scaleX
    scaleY := scaleWord l.scaleY
    transX := transWord l.scaleX
    transY := transWord l.scaleY
    srcBaseY := l.src.base + l.offsetY
    srcBaseUv := l.srcBaseUv + l.offsetUv
    dstBaseY := useless
    dstBaseUv := useless
    srcWidth := 2
    srcHeight := 2
    dstWidth := 2
    dstHeight := 2
    dstStride := l.lineStride.toUInt32.toUInt16
    srcStride := l.src.lineStride.toUInt32.toUInt16
    fCtrl := 0 }

/-- `ingenic_aip_resize_process` of A1, with the address of `dst_base_useless_paddr`. -/
def resizeProcessA1 (useless : UInt32) (stack : Stack) (src : DataInfo) (items : List FBox) :
    Built AipFChainnode :=
  let loop := Loop.run fStep (.start src) items
  { nodes := loop.1 ++ [loop.2.extra useless], cfg := fCfg stack src items, src := loop.2.src }

/-- The cases of `switch (dst->format)` of a conversion, which has none for planes. -/
def covertFormat (format : BsDataFormat) : Option UInt32 :=
  if format.isRgb then rgbFormat format else none

/-- `bs_covert_cfg`, with the word `ofst` that it hands on beside its node. -/
def bsCovertCfg (offset : UInt32 × UInt32) (stack : Stack) (src dst : DataInfo) :
    Built AipTChainnode × UInt32 :=
  -- The plane is cached whatever the format of the source.
  let src := src.cacheBase1
  let node : AipTChainnode := {
    srcBaseY := src.base
    srcBaseUv := src.base1
    dstBase := dst.base
    srcWidth := src.width.toUInt32.toUInt16
    srcHeight := src.height.toUInt32.toUInt16
    srcStride := src.lineStride.toUInt32.toUInt16
    dstStride := dst.lineStride.toUInt32.toUInt16
    taskLen := 0
    taskSkipBase := 0
    tCtrl := 0 }
  ({ nodes := [node], cfg := dst.locate.bus <<< 1 ||| src.locate.bus, src := src },
    (covertFormat dst.format).getD stack.format <<< 24 ||| (offset.2 <<< 8 ||| offset.1))

end Aip.Ingenic
