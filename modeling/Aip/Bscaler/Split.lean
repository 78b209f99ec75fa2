import Aip.Bscaler.Affine

/-! An affine box cut into destination boxes of 64 by 64, each with its part of the source. -/

namespace Aip.Bscaler

/-- `bs_data_format_e`. -/
inductive DataFormat where
  | nv12 | bgra | gbra | rbga | brga | grba | rgba | abgr | agbr | arbg | abrg | agrb | argb
  | fmu2 | fmu4 | fmu8 | vbgr | vrgb
  deriving DecidableEq, Repr

/-- The value of a format in the enumeration. -/
def DataFormat.code : DataFormat → Nat
  | nv12 => 0 | bgra => 1 | gbra => 3 | rbga => 5 | brga => 7 | grba => 9 | rgba => 11
  | abgr => 17 | agbr => 19 | arbg => 21 | abrg => 23 | agrb => 25 | argb => 27
  | fmu2 => 33 | fmu4 => 65 | fmu8 => 97 | vbgr => 101 | vrgb => 102

/-- `box_info_s`. -/
structure BoxInfo where
  x : Int
  y : Int
  w : Int
  h : Int
  deriving DecidableEq, Repr

/-- `data_info_s`, with `NULL` as address zero. -/
structure DataInfo where
  base : Int
  base1 : Int
  format : DataFormat
  width : Int
  height : Int
  lineStride : Int
  deriving DecidableEq, Repr

/-- `box_affine_info_s`, without the matrix of floating-point numbers. -/
structure BoxAffineInfo where
  box : BoxInfo
  zeroPoint : UInt8

/-- The fields of `bsc_hw_once_cfg_s` that an affine box uses. -/
structure BscHwOnceCfg where
  srcBase0 : Int
  srcBase1 : Int
  srcFormat : DataFormat
  srcLineStride : Int
  srcBoxX : Int
  srcBoxY : Int
  srcBoxW : Int
  srcBoxH : Int
  dstFormat : DataFormat
  dstLineStride : Int
  dstBoxX : Int
  dstBoxY : Int
  dstBoxW : Int
  dstBoxH : Int
  dstBase0 : Int
  dstBase1 : Int
  zeroPoint : UInt8
  nv2bgrAlpha : UInt8
  coef : Fin 9 → UInt32
  offset : Fin 2 → UInt8
  matrix : Matrix

/-- `BS_AFFINE_SIZE`. -/
def bsAffineSize : Int := 64

/--
One side of `affine_cac_sub_box`: the start and the length of the part that the corners need.

The result is `none` where `max + 1` does not fit an `int32_t`.
-/
def subSide (s0 s1 s2 s3 size : Int) : Option (Int × Int) :=
  let src0 := clip (fixWhole s0) 0 s32Max
  let src1 := clip (fixWhole s1) 0 s32Max
  let src2 := clip (fixWhole s2) 0 s32Max
  let src3 := clip (fixWhole s3) 0 s32Max
  let maxSide := max (max src0 src1) (max src2 src3)
  let minSide := min (min src0 src1) (min src2 src3)
  if s32Max < maxSide + 1 then none
  else
    -- The tap to the right of the last point is kept, within the source.
    let wbox := size - 1
    let minSide := clip minSide 0 wbox
    let maxSide := clip (maxSide + 1) 0 wbox
    -- Start and length are made even, for NV12.
    let start := if minSide % 2 ≠ 0 then minSide - 1 else minSide
    let length := maxSide + 1 - start
    some (start, if length % 2 ≠ 0 then length + 1 else length)

/-- A coordinate of the source in 64 bits, for a pixel of the destination. -/
def source64 (scale skew trans : Int32) (x y : Int) : Int :=
  scale.toInt * x + skew.toInt * y + trans.toInt

/-- `affine_cac_sub_box`. -/
def affineCacSubBox (matrix : Matrix) (dst wbox : BoxInfo) : Option BoxInfo :=
  let dstXl := dst.x
  let dstXr := dst.x + dst.w - 1
  let dstYt := dst.y
  let dstYb := dst.y + dst.h - 1
  -- The four corners decide, since the map is affine.
  let srcX := source64 (matrix mscalex) (matrix mskewx) (matrix mtransx)
  let srcY := source64 (matrix mskewy) (matrix mscaley) (matrix mtransy)
  match subSide (srcX dstXl dstYt) (srcX dstXr dstYt) (srcX dstXl dstYb) (srcX dstXr dstYb) wbox.w,
    subSide (srcY dstXl dstYt) (srcY dstXr dstYt) (srcY dstXl dstYb) (srcY dstXr dstYb) wbox.h with
  | some (x, w), some (y, h) => some { x := x, y := y, w := w, h := h }
  | _, _ => none

/-- The destination boxes along one side. -/
def sboxNum (size : Int) : Nat := ((size + bsAffineSize - 1) / bsAffineSize).toNat

/-- The length of a destination box along one side, which is shorter at the end. -/
def sboxSide (size : Int) (i : Nat) : Int :=
  if i = sboxNum size - 1 then (size - 1) % bsAffineSize + 1 else bsAffineSize

/-- The destination boxes, row after row. -/
def dstSboxes (dst : DataInfo) : List BoxInfo :=
  (List.range (sboxNum dst.height)).flatMap fun j : Nat =>
    (List.range (sboxNum dst.width)).map fun i : Nat =>
      { x := (i : Int) * bsAffineSize, y := (j : Int) * bsAffineSize
        w := sboxSide dst.width i, h := sboxSide dst.height j }

/-- Where the planes of the source box start, in bytes of the source. -/
def srcWboxBase (src : DataInfo) (box : BoxInfo) : Int × Int :=
  if src.format = .nv12 then
    -- The chroma plane starts behind the luma plane, unless the caller gives its address.
    (src.base + box.y * src.lineStride + box.x,
      if src.base1 = 0 then
        src.base + src.height * src.lineStride + box.y / 2 * src.lineStride + box.x
      else src.base1)
  else (src.base + box.y * src.lineStride + box.x * 4, 0)

/-- The configuration of one destination box and its part of the source. -/
def sboxCfg (matrix : Matrix) (nv2bgrAlpha : UInt8) (info : BoxAffineInfo) (src dst : DataInfo)
    (coef : Fin 9 → UInt32) (offset : Fin 2 → UInt32) (dstSbox srcSbox : BoxInfo) :
    BscHwOnceCfg :=
  let wbox := srcWboxBase src info.box
  { srcBase0 := wbox.1 + srcSbox.y * src.lineStride +
      (if src.format = .nv12 then srcSbox.x else srcSbox.x * 4)
    srcBase1 := if src.format = .nv12 then wbox.2 + srcSbox.y / 2 * src.lineStride + srcSbox.x
      else 0
    srcFormat := src.format
    srcLineStride := src.lineStride
    srcBoxX := srcSbox.x
    srcBoxY := srcSbox.y
    srcBoxW := srcSbox.w
    srcBoxH := srcSbox.h
    dstFormat := dst.format
    dstLineStride := dst.lineStride
    dstBoxX := dstSbox.x
    dstBoxY := dstSbox.y
    dstBoxW := dstSbox.w
    dstBoxH := dstSbox.h
    dstBase0 :=
      if dst.format = .nv12 then dst.base + dstSbox.y * dst.lineStride + dstSbox.x
      else if dst.format.code &&& 1 = 1 then
        dst.base + dstSbox.y * dst.lineStride + dstSbox.x * 4
      else 0
    -- The chroma plane of the destination is always taken to be behind its luma plane.
    dstBase1 :=
      if dst.format = .nv12 then
        dst.base + dst.height * dst.lineStride + dstSbox.y / 2 * dst.lineStride + dstSbox.x
      else 0
    zeroPoint := info.zeroPoint
    -- The member is never set, so it is the same leftover in every copy.
    nv2bgrAlpha := nv2bgrAlpha
    coef := coef
    offset := fun i => (offset i).toUInt8
    matrix := matrix }

/-- The assertions of `affine_box_split` on the formats and, for NV12, on the source box. -/
def affineBoxAsserts (info : BoxAffineInfo) (src dst : DataInfo) : Prop :=
  src.format ∉ [.vbgr, .vrgb, .fmu2, .fmu4, .fmu8] ∧
    (src.format = .nv12 ∨ dst.format = .nv12 →
      info.box.x % 2 = 0 ∧ info.box.y % 2 = 0 ∧ info.box.w % 2 = 0 ∧ info.box.h % 2 = 0)

instance (info : BoxAffineInfo) (src dst : DataInfo) : Decidable (affineBoxAsserts info src dst) := by
  unfold affineBoxAsserts
  infer_instance

/-- `affine_box_split` from the fixed-point matrix on, with `none` where an assertion fails. -/
def affineBoxSplit (matrix : Matrix) (nv2bgrAlpha : UInt8) (info : BoxAffineInfo)
    (src dst : DataInfo) (coef : Fin 9 → UInt32) (offset : Fin 2 → UInt32) :
    Option (List BscHwOnceCfg) :=
  -- The part of the source is counted from the corner of its box.
  let wbox : BoxInfo := { x := 0, y := 0, w := info.box.w, h := info.box.h }
  if affineBoxAsserts info src dst then
    (dstSboxes dst).mapM fun dstSbox =>
      (affineCacSubBox matrix dstSbox wbox).map
        (sboxCfg matrix nv2bgrAlpha info src dst coef offset dstSbox)
  else none

/-- The source box that `bsc_mdl` makes of a configuration. -/
def BscHwOnceCfg.src (cfg : BscHwOnceCfg) : BsBox :=
  { base0 := cfg.srcBase0, base1 := cfg.srcBase1
    stride0 := cfg.srcLineStride, stride1 := cfg.srcLineStride
    sboxX := cfg.srcBoxX, sboxY := cfg.srcBoxY, sboxW := cfg.srcBoxW, sboxH := cfg.srcBoxH
    format := ((cfg.srcFormat.code &&& 1 : Nat) : Int) }

/-- The destination box that `bsc_mdl` makes of a configuration. -/
def BscHwOnceCfg.dst (cfg : BscHwOnceCfg) : BsBox :=
  { base0 := cfg.dstBase0, base1 := cfg.dstBase1
    stride0 := cfg.dstLineStride, stride1 := cfg.dstLineStride
    sboxX := cfg.dstBoxX, sboxY := cfg.dstBoxY, sboxW := cfg.dstBoxW, sboxH := cfg.dstBoxH
    format := ((cfg.dstFormat.code &&& 1 : Nat) : Int) }

/-- The order of the destination bytes that `bsc_mdl` reads off a format. -/
def DataFormat.nv2bgrOrder (format : DataFormat) : Nat := format.code >>> 1 &&& 0xF

/-- Whether the alpha byte is the first of a pixel, `1`, or the last one. -/
def abgrOrder (nv2bgrOrder : Nat) : Nat := (nv2bgrOrder &&& 0x8) >>> 3

/-- The formats of four bytes for each pixel. -/
def DataFormat.isRgba : DataFormat → Bool
  | bgra | gbra | rbga | brga | grba | rgba | abgr | agbr | arbg | abrg | agrb | argb => true
  | _ => false

end Aip.Bscaler
