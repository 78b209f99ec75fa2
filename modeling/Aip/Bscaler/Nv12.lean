import Aip.Bscaler.Perspective
import Aip.Bscaler.Split

/-! The boxes of `bs_affine_box`: NV12 sources are converted into a buffer, and then resampled. -/

namespace Aip.Bscaler

/-- `BS_CSCA`, the bits behind the point of a colour coefficient. -/
def bsCsca : Nat := 20

/-- A colour of `yuv2rgb`, clipped before its fraction is dropped. -/
def colour (sum : Int) : UInt8 :=
  UInt8.ofNat (clip (sum + 2 ^ (bsCsca - 1)) 0 (2 ^ (bsCsca + 8) - 1) / 2 ^ bsCsca).toNat

/-- `yuv2rgb`: the bytes it stores from `rgba` on, none of them for an order it does not know. -/
def yuv2rgb (y u v : UInt8) (coef : Fin 9 → UInt32) (offset : Fin 2 → UInt8) (nv2bgrAlpha : UInt8)
    (order : Nat) : List UInt8 :=
  let yM : Int := y.toNat - (offset 0).toNat
  let uM : Int := u.toNat - (offset 1).toNat
  let vM : Int := v.toNat - (offset 1).toNat
  let b := colour ((coef 0).toNat * yM + (coef 1).toNat * uM + (coef 2).toNat * vM)
  let g := colour ((coef 3).toNat * yM - (coef 4).toNat * uM - (coef 5).toNat * vM)
  let r := colour ((coef 6).toNat * yM + (coef 7).toNat * uM + (coef 8).toNat * vM)
  let a := nv2bgrAlpha
  match order with
  | 0 => [b, g, r, a]
  | 1 => [g, b, r, a]
  | 2 => [r, b, g, a]
  | 3 => [b, r, g, a]
  | 4 => [g, r, b, a]
  | 5 => [r, g, b, a]
  | 8 => [a, b, g, r]
  | 9 => [a, g, b, r]
  | 10 => [a, r, b, g]
  | 11 => [a, b, r, g]
  | 12 => [a, g, r, b]
  | 13 => [a, r, g, b]
  | _ => []

/-- The stores of consecutive bytes. -/
def byteStores (address : Int) (bytes : List UInt8) : List (Int × UInt8) :=
  bytes.mapIdx fun k byte => (address + k, byte)

/-- The values of an `int` counter that goes up from zero in steps of two. -/
def evens (limit : Int) : List Int :=
  (List.range ((limit + 1) / 2).toNat).map fun step : Nat => 2 * (step : Int)

/-- The stores of `nv12_to_rgb` for the four pixels that share one pair of chroma bytes. -/
def nv12Block (mem : Memory) (src dst : BsBox) (rgbOrder : Nat) (coef : Fin 9 → UInt32)
    (offset : Fin 2 → UInt8) (nv2bgrAlpha : UInt8) (x y : Int) : List (Int × UInt8) :=
  let pixY0 := load mem (src.base0 + (src.stride0 * y + x))
  let pixY1 := load mem (src.base0 + (src.stride0 * y + x + 1))
  let pixY2 := load mem (src.base0 + (src.stride0 * (y + 1) + x))
  let pixY3 := load mem (src.base0 + (src.stride0 * (y + 1) + (x + 1)))
  let pixU := load mem (src.base1 + (src.stride1 * y / 2 + x))
  let pixV := load mem (src.base1 + (src.stride1 * y / 2 + x + 1))
  let rgba := fun pixY => yuv2rgb pixY pixU pixV coef offset nv2bgrAlpha rgbOrder
  let dstPtr := dst.base0 + dst.stride0 * y + x * 4
  byteStores dstPtr (rgba pixY0) ++ byteStores (dstPtr + 4) (rgba pixY1) ++
    byteStores (dstPtr + dst.stride0) (rgba pixY2) ++
    byteStores (dstPtr + dst.stride0 + 4) (rgba pixY3)

/-- `nv12_to_rgb`, with `none` where its assertion fails. -/
def nv12ToRgb (mem : Memory) (src dst : BsBox) (rgbOrder : Nat) (coef : Fin 9 → UInt32)
    (offset : Fin 2 → UInt8) (nv2bgrAlpha : UInt8) (buffer : Memory) : Option Memory :=
  if src.stride0 = src.stride1 then
    some ((evens src.sboxH).foldl (fun buffer y => (evens src.sboxW).foldl (fun buffer x =>
      Paint.paint buffer (nv12Block mem src dst rgbOrder coef offset nv2bgrAlpha x y))
      buffer) buffer)
  else none

/-- `nv12_to_yuv444`: row after row, the luma bytes and then a pair of chroma bytes for each. -/
def nv12ToYuv444 (mem : Memory) (src dst : BsBox) (buffer : Memory) : Memory :=
  (Raster.span 0 src.sboxH.toNat).foldl (fun buffer y =>
    let copied := Paint.paint buffer ((Raster.span 0 src.sboxW.toNat).map fun x =>
      (dst.base0 + (y * dst.stride0 + x), load mem (src.base0 + (y * src.stride0 + x))))
    let dstUvPtr := dst.base1 + y * dst.stride1
    let srcUvPtr := src.base1 + y / 2 * src.stride0
    (Raster.span 0 src.sboxW.toNat).foldl (fun buffer x =>
      Paint.paint buffer ((List.range 2).map fun b : Nat =>
        (dstUvPtr + (2 * x + b), load mem (srcUvPtr + (2 * (x / 2) + b))))) copied) buffer

/-- `is_perspective`. -/
def isPerspective (matrix : Matrix) : Bool :=
  !(matrix mpersp0 = 0 && matrix mpersp1 = 0 && matrix mpersp2 = 65536)

/-- A byte between its four taps in a plane of the source, where pixels are `bpp` bytes apart. -/
def planeByte (mem : Memory) (src : BsBox) (base stride bpp : Int) (zero : UInt8)
    (point : SrcPoint) : UInt8 :=
  let outBound := bilinearBoundCheck src.sboxX src.sboxY src.sboxW src.sboxH point.xp point.yp
  let p00Idx := (point.yp - src.sboxY) * stride + (point.xp - src.sboxX) * bpp
  let p01Idx := p00Idx + bpp
  let p10Idx := p00Idx + stride
  let p11Idx := p10Idx + bpp
  -- A tap outside the source box is the zero point.
  let p00 := if outBound 0 then zero else load mem (base + p00Idx)
  let p01 := if outBound 1 then zero else load mem (base + p01Idx)
  let p10 := if outBound 2 then zero else load mem (base + p10Idx)
  let p11 := if outBound 3 then zero else load mem (base + p11Idx)
  bilinearU8 p00 p01 p10 p11 point.xw point.yw

/-- The stores of a pixel of `bs_affine_box_nv12`: its luma byte, and the chroma bytes it shares. -/
def nv12Stores (dst : BsBox) (dx dy : Int) (yVal uVal vVal : UInt8) : List (Int × UInt8) :=
  let dstYIdx := (dy - dst.sboxY) * dst.stride0 + (dx - dst.sboxX)
  let dstUIdx := (dy - dst.sboxY) / 2 * dst.stride0 + (dx - dst.sboxX) / 2 * 2
  [(dst.base0 + dstYIdx, yVal), (dst.base1 + dstUIdx, uVal), (dst.base1 + (dstUIdx + 1), vVal)]

/-- `bs_affine_box_nv12`, with `none` where an assertion of the conversion fails. -/
def bsAffineBoxNv12 (mem : Memory) (src dst : BsBox) (matrix : Matrix) (offset : Fin 2 → UInt8)
    (image : Memory) : Option Memory :=
  -- The counters and their ends have 16 bits.
  let dxLast := u16 (dst.sboxW + dst.sboxX)
  let dyLast := u16 (dst.sboxH + dst.sboxY)
  (counter dst.sboxY dyLast).foldlM (fun image dy =>
    (counter dst.sboxX dxLast).foldlM (fun image dx => do
      let point ← if isPerspective matrix then perspectiveDst2src matrix dx dy
        else some (affineDst2src matrix dx dy)
      let yVal := planeByte mem src src.base0 src.stride0 1 (offset 0) point
      let uVal := planeByte mem src src.base1 src.stride1 2 (offset 1) point
      let vVal := planeByte mem src (src.base1 + 1) src.stride1 2 (offset 1) point
      some (Paint.paint image (nv12Stores dst dx dy yVal uVal vVal))) image) image

/-- The planes of the buffer that an NV12 box is converted to, in a memory of their own. -/
def yuv444Box (src : BsBox) : BsBox :=
  { src with
    base0 := 0, base1 := src.sboxW * src.sboxH
    stride0 := src.sboxW, stride1 := src.sboxW * 2 }

/-- `bs_affine_box_nv12_to_nv12`, with what the new buffer happens to hold. -/
def bsAffineBoxNv12ToNv12 (mem : Memory) (src dst : BsBox) (matrix : Matrix)
    (offset : Fin 2 → UInt8) (leftover image : Memory) : Option Memory :=
  bsAffineBoxNv12 (nv12ToYuv444 mem src (yuv444Box src) leftover) (yuv444Box src) dst matrix offset
    image

/-- The buffer of four-byte pixels that an NV12 box is converted to, in a memory of its own. -/
def rgbBox (src : BsBox) : BsBox :=
  { src with base0 := 0, base1 := 0, stride0 := src.sboxW * 4, stride1 := 0 }

/-- `bs_affine_box_nv12_to_rgb`, with what the new buffer happens to hold. -/
def bsAffineBoxNv12ToRgb (mem : Memory) (src dst : BsBox) (matrix : Matrix)
    (coef : Fin 9 → UInt32) (offset : Fin 2 → UInt8) (nv2bgrAlpha : UInt8) (nv2bgrOrder : Nat)
    (zeroPoint : UInt8) (leftover image : Memory) : Option Memory := do
  -- The whole source box is converted, and then resampled from the buffer.
  let buffer ← nv12ToRgb mem src (rgbBox src) nv2bgrOrder coef offset nv2bgrAlpha leftover
  let isAbgrOrder := abgrOrder nv2bgrOrder
  if isPerspective matrix then
    bsPerspectiveBoxRgbSimple buffer (rgbBox src) dst matrix zeroPoint isAbgrOrder nv2bgrAlpha image
  else
    (bsAffineBoxRgbComplex buffer (rgbBox src) dst matrix zeroPoint isAbgrOrder nv2bgrAlpha
      image).map Traversal.image

/-- `bs_affine_box_rgb_to_rgb`. -/
def bsAffineBoxRgbToRgb (mem : Memory) (src dst : BsBox) (matrix : Matrix) (zeroPoint : UInt8)
    (isAbgrOrder : Nat) (nv2bgrAlpha : UInt8) (image : Memory) : Option Memory :=
  if isPerspective matrix then
    bsPerspectiveBoxRgbSimple mem src dst matrix zeroPoint isAbgrOrder nv2bgrAlpha image
  else some (bsAffineBoxRgb mem src dst matrix zeroPoint isAbgrOrder nv2bgrAlpha image)

/-- `bs_affine_box`, without the guides of the columns, which no path that is compiled reads. -/
def bsAffineBox (mem : Memory) (src dst : BsBox) (matrix : Matrix) (coef : Fin 9 → UInt32)
    (offset : Fin 2 → UInt8) (nv2bgrAlpha : UInt8) (nv2bgrOrder : Nat) (zeroPoint : UInt8)
    (leftover image : Memory) : Option Memory :=
  -- From NV12 to NV12, from NV12 to four bytes, and between four bytes.
  if src.format = 0 ∧ dst.format = 0 then
    bsAffineBoxNv12ToNv12 mem src dst matrix offset leftover image
  else if src.format = 0 ∧ dst.format = 1 then
    bsAffineBoxNv12ToRgb mem src dst matrix coef offset nv2bgrAlpha nv2bgrOrder zeroPoint leftover
      image
  else if src.format = 1 ∧ dst.format = 1 then
    bsAffineBoxRgbToRgb mem src dst matrix zeroPoint (abgrOrder nv2bgrOrder) nv2bgrAlpha image
  else none

end Aip.Bscaler
