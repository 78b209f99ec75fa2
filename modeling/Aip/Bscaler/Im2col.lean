import Mathlib.Data.List.ProdSigma
import Aip.Bscaler.Common

/-! The two converters that lay the pixels under each kernel position side by side. -/

namespace Aip.Bscaler

/-- The arguments of `normal2kernel` but its two buffers; a stride of zero is a division by zero. -/
structure KernelArgs where
  width : UInt32
  height : UInt32
  kernelSize : UInt8
  kernelXstride : UInt8
  kernelYstride : UInt8
  zeroPoint : UInt32
  padLeft : UInt8
  padRight : UInt8
  padTop : UInt8
  padBottom : UInt8
  srcLineStride : UInt32
  dstLineStride : UInt32
  dstPlaneStride : UInt32
  strides : 0 < kernelXstride.toNat ∧ 0 < kernelYstride.toNat

namespace KernelArgs

/-- `kw` and `kh`. -/
def kw (a : KernelArgs) : Nat :=
  if a.kernelSize = 3 then 7 else if a.kernelSize = 2 then 5 else if a.kernelSize = 1 then 3 else 1

/-- `chn_num_valid`, of 8 bits. -/
def chnNumValid (a : KernelArgs) : Nat := a.kw * a.kw * 3 % 256

/-- `plane_num`, of 8 bits. -/
def planeNum (a : KernelArgs) : Nat := (a.chnNumValid + 31) / 32 % 256

/-- `chn_num`, of 8 bits. -/
def chnNum (a : KernelArgs) : Nat := a.planeNum * 32 % 256

/-- `dst_w`. -/
def dstW (a : KernelArgs) : Int :=
  s32 (u32 (a.width.toNat + a.padLeft.toNat + a.padRight.toNat - a.kw) / a.kernelXstride.toNat + 1)

/-- `dst_h`. -/
def dstH (a : KernelArgs) : Int :=
  s32 (u32 (a.height.toNat + a.padTop.toNat + a.padBottom.toNat - a.kw) / a.kernelYstride.toNat + 1)

/-- `pixel_frame_x1`. -/
def pixelFrameX1 (a : KernelArgs) (x cIdx : Nat) : Int :=
  x * a.kernelXstride.toNat + (cIdx / 3 % a.kw : Nat) - a.padLeft.toNat

/-- `pixel_frame_y1`. -/
def pixelFrameY1 (a : KernelArgs) (y cIdx : Nat) : Int :=
  y * a.kernelYstride.toNat + (cIdx / 3 / a.kw : Nat) - a.padTop.toNat

/-- `is_dummy_edge`; against `width` and `height` the coordinates are compared without a sign. -/
def isDummyEdge (a : KernelArgs) (y x cIdx : Nat) : Bool :=
  a.pixelFrameX1 x cIdx < 0 || u32 (a.pixelFrameX1 x cIdx) ≥ a.width.toNat ||
    a.pixelFrameY1 y cIdx < 0 || u32 (a.pixelFrameY1 y cIdx) ≥ a.height.toNat

/-- `dst_idx`. -/
def dstIdx (a : KernelArgs) (y x cIdx : Nat) : Int :=
  s32 ((cIdx / 32 : Nat) * a.dstPlaneStride.toNat + y * a.dstLineStride.toNat + x * 32 +
    (cIdx % 32 : Nat))

/-- `src_idx`. -/
def srcIdx (a : KernelArgs) (y x cIdx : Nat) : Int :=
  let pixelFrameI1 :=
    s32 (a.pixelFrameY1 y cIdx * (a.srcLineStride.toNat / 4 : Nat) + a.pixelFrameX1 x cIdx)
  s32 (pixelFrameI1 * 4 + (cIdx % 3 : Nat))

/-- Byte `n` of the zero point. -/
def zero (a : KernelArgs) (n : Nat) : UInt8 := UInt8.ofNat (a.zeroPoint.toNat / 256 ^ n % 256)

/-- One pass of the innermost loop: the index stored to, and the byte. -/
def store (a : KernelArgs) (src : Int → UInt8) (y x cIdx : Nat) : Int × UInt8 :=
  (a.dstIdx y x cIdx,
    if cIdx ≥ a.chnNumValid then a.zero 3
    else if a.isDummyEdge y x cIdx ∧ cIdx % 3 = 0 then a.zero 0
    else if a.isDummyEdge y x cIdx ∧ cIdx % 3 = 1 then a.zero 1
    else if a.isDummyEdge y x cIdx ∧ cIdx % 3 = 2 then a.zero 2
    else src (a.srcIdx y x cIdx))

/-- The rows, columns and flat channels in the order of the three loops. -/
def passes (a : KernelArgs) : List (Nat × Nat × Nat) :=
  List.range a.dstH.toNat ×ˢ List.range a.dstW.toNat ×ˢ List.range a.chnNum

/-- The stores of the three loops. -/
def stores (a : KernelArgs) (src : Int → UInt8) : List (Int × UInt8) :=
  a.passes.map fun (y, x, cIdx) => a.store src y x cIdx

end KernelArgs

/-- The arguments of `rgba2virchn` but its two buffers; a stride of zero is a division by zero. -/
structure VirchnArgs where
  srcStride : UInt32
  width : UInt16
  height : UInt16
  knlW : UInt8
  knlH : UInt8
  knlStrideW : UInt8
  knlStrideH : UInt8
  zero : UInt8
  padTop : UInt8
  padBottom : UInt8
  padLeft : UInt8
  padRight : UInt8
  dstStride : UInt32
  strides : 0 < knlStrideW.toNat ∧ 0 < knlStrideH.toNat

namespace VirchnArgs

/-- `byte_num`. -/
def byteNum (a : VirchnArgs) : Nat := a.knlW.toNat * a.knlH.toNat * 3

/-- `chn_group_num`. -/
def chnGroupNum (a : VirchnArgs) : Nat := (a.byteNum + 31) / 32

/-- `dst_w`. -/
def dstW (a : VirchnArgs) : Int :=
  ((a.width.toNat + a.padLeft.toNat + a.padRight.toNat - a.knlW.toNat : Int).tdiv
    a.knlStrideW.toNat) + 1

/-- `dst_h`. -/
def dstH (a : VirchnArgs) : Int :=
  ((a.height.toNat + a.padTop.toNat + a.padBottom.toNat - a.knlH.toNat : Int).tdiv
    a.knlStrideH.toNat) + 1

/-- `src_st_x + knl_x`. -/
def srcX (a : VirchnArgs) (cgIdx x c : Nat) : Int :=
  x * a.knlStrideW.toNat - a.padLeft.toNat + ((cgIdx * 32 + c) / 3 % a.knlW.toNat : Nat)

/-- `src_st_y + knl_y`. -/
def srcY (a : VirchnArgs) (cgIdx y c : Nat) : Int :=
  y * a.knlStrideH.toNat - a.padTop.toNat + ((cgIdx * 32 + c) / 3 / a.knlW.toNat : Nat)

/-- `src_idx`. -/
def srcIdx (a : VirchnArgs) (cgIdx y x c : Nat) : Int :=
  s32 (a.srcY cgIdx y c * a.srcStride.toNat + a.srcX cgIdx x c * 4 + ((cgIdx * 32 + c) % 3 : Nat))

/-- `dst_idx`. -/
def dstIdx (a : VirchnArgs) (cgIdx y x c : Nat) : Int :=
  s32 (c + x * 32 + y * a.dstStride.toNat + cgIdx * a.dstStride.toNat * a.dstH)

/-- One pass of the innermost loop: the index stored to, and the byte. -/
def store (a : VirchnArgs) (src : Int → UInt8) (cgIdx y x c : Nat) : Int × UInt8 :=
  (a.dstIdx cgIdx y x c,
    if cgIdx * 32 + c ≥ a.byteNum ∨ a.srcX cgIdx x c < 0 ∨ a.srcY cgIdx y c < 0 ∨
        a.srcX cgIdx x c ≥ a.width.toNat ∨ a.srcY cgIdx y c ≥ a.height.toNat then a.zero
    else src (a.srcIdx cgIdx y x c))

/-- The channel groups, rows, columns and channels in the order of the four loops. -/
def passes (a : VirchnArgs) : List (Nat × Nat × Nat × Nat) :=
  List.range a.chnGroupNum ×ˢ List.range a.dstH.toNat ×ˢ List.range a.dstW.toNat ×ˢ List.range 32

/-- The stores of the four loops. -/
def stores (a : VirchnArgs) (src : Int → UInt8) : List (Int × UInt8) :=
  a.passes.map fun (cgIdx, y, x, c) => a.store src cgIdx y x c

end VirchnArgs

end Aip.Bscaler
