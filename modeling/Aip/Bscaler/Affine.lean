import Aip.Bscaler.Columns
import Aip.Lib.Merge

/-! The affine box of the scaler model, in plain order and in the order of the source rows. -/

namespace Aip.Bscaler

/-- `affine_dst2src`. -/
def affineDst2src (matrix : Matrix) (dx dy : Int) : SrcPoint :=
  let srcX := (matrix mscalex).toInt * dx + (matrix mskewx).toInt * dy + (matrix mtransx).toInt
  let srcY := (matrix mskewy).toInt * dx + (matrix mscaley).toInt * dy + (matrix mtransy).toInt
  let sx := clip srcX s32Min s32Max
  let sy := clip srcY s32Min s32Max
  { xp := s16 (fixWhole sx), yp := s16 (fixWhole sy)
    xw := u16 (fixFraction sx), yw := u16 (fixFraction sy) }

/-- `bs_affine_box_rgb`. -/
def bsAffineBoxRgb (mem : Memory) (src dst : BsBox) (matrix : Matrix) (zeroPoint : UInt8)
    (isAbgrOrder : Nat) (nv2bgrAlpha : UInt8) (image : Memory) : Memory :=
  -- The counters and their ends have 16 bits.
  let dxLast := u16 (dst.sboxW + dst.sboxX)
  let dyLast := u16 (dst.sboxH + dst.sboxY)
  (counter dst.sboxX dxLast).foldl (fun image dx =>
    (counter dst.sboxY dyLast).foldl (fun image dy =>
      Paint.paint image (rgbStores dst isAbgrOrder nv2bgrAlpha dx dy
        (rgbByte mem src zeroPoint (affineDst2src matrix dx dy)))) image) image

/-- `affine_dst2src_64`. -/
def affineDst2src64 (matrix : Matrix) (dst : S32Point) : S32Point :=
  let srcX := (matrix mscalex).toInt * dst.x + (matrix mskewx).toInt * dst.y +
    (matrix mtransx).toInt
  let srcY := (matrix mskewy).toInt * dst.x + (matrix mscaley).toInt * dst.y +
    (matrix mtransy).toInt
  { x := clip srcX s32Min s32Max, y := clip srcY s32Min s32Max }

/-- The columns that `dst_col_point_init_affine` sets up, the last of them masked. -/
def dstColPointInitAffine (matrix : Matrix) (dst : BsBox) (i : Nat) : S32Point :=
  let xIncrease := 0 < (matrix mskewx).toInt
  let yIncrease := 0 < (matrix mscaley).toInt
  -- The order of columns and rows is the one in which the source rows increase.
  if (i : Int) < dst.sboxW then
    { x := if xIncrease then i + dst.sboxX else dst.sboxW - 1 - i + dst.sboxX
      y := if yIncrease then 0 + dst.sboxY else dst.sboxH - 1 + dst.sboxY }
  else
    { x := dst.sboxX
      y := if yIncrease then oboxSize - 1 + dst.sboxY else dst.sboxY }

/-- `col_point_update_affine` on column `idx`, without the stores that the next line overwrites. -/
def colPointUpdateAffine (dst : BsBox) (matrix : Matrix) (idx : Nat) (columns : Columns) :
    Columns :=
  let yIncrease := 0 < (matrix mscaley).toInt
  let point := columns.dstColPoint idx
  let y := if columns.mask idx then point.y else if yIncrease then point.y + 1 else point.y - 1
  -- The column ends when it leaves the box.
  let ended := if yIncrease then y = dst.sboxY + dst.sboxH else y = dst.sboxY - 1
  let masked := columns.mask idx || ended
  let moved : S32Point := { point with y := y }
  let source := if masked then columns.srcColPoint idx else affineDst2src64 matrix moved
  { dstColPoint := Function.update columns.dstColPoint idx moved
    srcColPoint := Function.update columns.srcColPoint idx source
    mask := Function.update columns.mask idx masked }

/-- A byte of a pixel in `bs_affine_box_rgb_complex`, which goes through pointers to the four taps. -/
def complexByte (mem : Memory) (src : BsBox) (zeroPoint : UInt8) (source : S32Point) (k : Nat) :
    UInt8 :=
  let lastX := u16 (src.sboxW + src.sboxX - 1)
  let lastY := u16 (src.sboxH + src.sboxY - 1)
  let sxp0 := s16 (fixWhole source.x)
  let syp0 := s16 (fixWhole source.y)
  let sxp1 := s16 (sxp0 + 1)
  let syp1 := s16 (syp0 + 1)
  -- Here the box is compared without the 16 bits of the plain loop.
  let p00Over : Bool := sxp0 < src.sboxX || sxp0 > lastX || syp0 < src.sboxY || syp0 > lastY
  let p01Over : Bool := sxp1 < src.sboxX || sxp1 > lastX || syp0 < src.sboxY || syp0 > lastY
  let p10Over : Bool := sxp0 < src.sboxX || sxp0 > lastX || syp1 < src.sboxY || syp1 > lastY
  let p11Over : Bool := sxp1 < src.sboxX || sxp1 > lastX || syp1 < src.sboxY || syp1 > lastY
  let p00Ptr := src.base0 + (syp0 - src.sboxY) * src.stride0 + (sxp0 - src.sboxX) * 4
  let p01Ptr := p00Ptr + 1 * 4
  let p10Ptr := p00Ptr + src.stride0
  let p11Ptr := p10Ptr + 1 * 4
  let p00 := if p00Over then zeroPoint else load mem (p00Ptr + k)
  let p01 := if p01Over then zeroPoint else load mem (p01Ptr + k)
  let p10 := if p10Over then zeroPoint else load mem (p10Ptr + k)
  let p11 := if p11Over then zeroPoint else load mem (p11Ptr + k)
  bilinearU8 p00 p01 p10 p11 (u16 (fixFraction source.x)) (u16 (fixFraction source.y))

/-- What a round of `bs_affine_box_rgb_complex` does with the column it has picked. -/
def affineStep (mem : Memory) (src dst : BsBox) (matrix : Matrix) (zeroPoint : UInt8)
    (isAbgrOrder : Nat) (nv2bgrAlpha : UInt8) (traversal : Traversal) (idx : Nat) : Traversal :=
  let pixel := traversal.dstColPoint idx
  { toColumns := colPointUpdateAffine dst matrix idx traversal.toColumns
    image := Paint.paint traversal.image (rgbStores dst isAbgrOrder nv2bgrAlpha pixel.x pixel.y
      (complexByte mem src zeroPoint (traversal.srcColPoint idx)))
    visits := traversal.visits ++ [traversal.visit idx] }

/-- The loop body of `bs_affine_box_rgb_complex`, without what it prints. -/
def affineRound (mem : Memory) (src dst : BsBox) (matrix : Matrix) (zeroPoint : UInt8)
    (isAbgrOrder : Nat) (nv2bgrAlpha : UInt8) (traversal : Traversal) : Option Traversal :=
  let yIncrease := decide (0 < (matrix mscaley).toInt)
  let xIncrease := decide (0 < (matrix mskewx).toInt)
  -- The index is negative only where `assert(idx >= 0)` fails.
  (getMinPoint traversal.srcColPoint traversal.mask xIncrease yIncrease).map
    (affineStep mem src dst matrix zeroPoint isAbgrOrder nv2bgrAlpha traversal)

/-- `bs_affine_box_rgb_complex`, with `none` where one of its assertions fails. -/
def bsAffineBoxRgbComplex (mem : Memory) (src dst : BsBox) (matrix : Matrix) (zeroPoint : UInt8)
    (isAbgrOrder : Nat) (nv2bgrAlpha : UInt8) (image : Memory) : Option Traversal :=
  if dst.sboxW ≤ 64 ∧ dst.sboxH ≤ 64 then
    let dstColPoint := dstColPointInitAffine matrix dst
    Merge.loop (affineRound mem src dst matrix zeroPoint isAbgrOrder nv2bgrAlpha)
      (dst.sboxW * dst.sboxH).toNat
      { dstColPoint := dstColPoint
        srcColPoint := fun i => affineDst2src64 matrix (dstColPoint i)
        mask := fun i => decide (dst.sboxW ≤ i)
        image := image
        visits := [] }
  else none

end Aip.Bscaler
