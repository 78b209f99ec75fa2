import Mathlib.Data.Fin.VecNotation
import Aip.Lib.Indices
import Aip.Lib.Paint
import Aip.Lib.Raster

/-! Fixed-point matrices, bilinear taps and the boxes of the scaler model. -/

namespace Aip.Bscaler

/-- `OBOX_SIZE`, the columns of the largest destination box. -/
def oboxSize : Nat := 64

def s32Max : Int := 2147483647
def s32Min : Int := -2147483648
def s16Max : Int := 32767
def s16Min : Int := -32768

/-- `MAT_ACC`, the bits behind the point of a fixed-point number. -/
def matAcc : Nat := 16

def matOne : Int := 2 ^ matAcc - 1
def matHalfOne : Int := 2 ^ (matAcc - 1)

/-- The nine `int32_t` entries of a fixed-point matrix. -/
abbrev Matrix := Fin 9 → Int32

def mscalex : Fin 9 := 0
def mskewx : Fin 9 := 1
def mtransx : Fin 9 := 2
def mskewy : Fin 9 := 3
def mscaley : Fin 9 := 4
def mtransy : Fin 9 := 5
def mpersp0 : Fin 9 := 6
def mpersp1 : Fin 9 := 7
def mpersp2 : Fin 9 := 8

/-- `CLIP`. -/
def clip (val min max : Int) : Int :=
  if val < min then min else if val > max then max else val

/-- The value that a `uint16_t` keeps. -/
def u16 (value : Int) : Int := value % 65536

/-- The value that an `int16_t` keeps. -/
def s16 (value : Int) : Int := value.bmod 65536

/-- The value that an `int` keeps. -/
def s32 (value : Int) : Int := value.bmod 4294967296

/-- The value that a `uint32_t` keeps. -/
def u32 (value : Int) : Int := value % 4294967296

/-- The value that an `int64_t` keeps. -/
def s64 (value : Int) : Int := value.bmod 18446744073709551616

/-- The whole part of a fixed-point number, `value >> MAT_ACC`. -/
def fixWhole (value : Int) : Int := value / 65536

/-- The fraction of a fixed-point number, `value & ((1 << MAT_ACC) - 1)`. -/
def fixFraction (value : Int) : Int := value % 65536

/-- `bilinear_u8`, a byte between four taps. -/
def bilinearU8 (p0 p1 p2 p3 : UInt8) (xw yw : Int) : UInt8 :=
  -- Both rows first, and then the column between them.
  let v0 := (p0.toNat * (matOne - xw) + p1.toNat * xw + matHalfOne) / 2 ^ matAcc
  let v1 := (p2.toNat * (matOne - xw) + p3.toNat * xw + matHalfOne) / 2 ^ matAcc
  let v := (v0 * (matOne - yw) + v1 * yw + matHalfOne) / 2 ^ matAcc
  UInt8.ofNat (if v > 255 then 255 else v).toNat

/-- `bilinear_bound_check`: whether each of the four taps around a source point is outside a box. -/
def bilinearBoundCheck (x y w h curX curY : Int) : Fin 4 → Bool :=
  let x0 := s16 curX
  let x1 := s16 (curX + 1)
  let y0 := s16 curY
  let y1 := s16 (curY + 1)
  -- The box comes in as four `uint16_t` parameters, whatever the caller holds it in.
  let lastX := u16 (u16 w + u16 x - 1)
  let lastY := u16 (u16 h + u16 y - 1)
  ![x0 < u16 x || x0 > lastX || y0 < u16 y || y0 > lastY,
    x1 < u16 x || x1 > lastX || y0 < u16 y || y0 > lastY,
    x0 < u16 x || x0 > lastX || y1 < u16 y || y1 > lastY,
    x1 < u16 x || x1 > lastX || y1 < u16 y || y1 > lastY]

/-- A source point as the conversions return it: whole coordinates and weights. -/
structure SrcPoint where
  xp : Int
  yp : Int
  xw : Int
  yw : Int
  deriving DecidableEq, Repr

/-- The bytes of a memory by their address. -/
abbrev Memory := Int → UInt8

/--
The byte at an address of the source.

Addresses have 32 bits, and so have the offsets that the code adds to a base pointer.
-/
def load (mem : Memory) (address : Int) : UInt8 := mem (address % 4294967296)

/-- `bs_box_s`: where the planes of an image start, their strides, and a box of the image. -/
structure BsBox where
  base0 : Int
  base1 : Int
  stride0 : Int
  stride1 : Int
  sboxX : Int
  sboxY : Int
  sboxW : Int
  sboxH : Int
  format : Int
  deriving DecidableEq, Repr

/-- One byte of a four-byte pixel between its four taps, the zero point standing for those outside. -/
def rgbByte (mem : Memory) (src : BsBox) (zeroPoint : UInt8) (point : SrcPoint) (k : Nat) : UInt8 :=
  let outBound := bilinearBoundCheck src.sboxX src.sboxY src.sboxW src.sboxH point.xp point.yp
  let p00Idx := (point.yp - src.sboxY) * src.stride0 + (point.xp - src.sboxX) * 4
  let p01Idx := p00Idx + 4
  let p10Idx := p00Idx + src.stride0
  let p11Idx := p10Idx + 4
  -- A tap outside the source box is the zero point.
  let p00 := if outBound 0 then zeroPoint else load mem (src.base0 + (p00Idx + k))
  let p01 := if outBound 1 then zeroPoint else load mem (src.base0 + (p01Idx + k))
  let p10 := if outBound 2 then zeroPoint else load mem (src.base0 + (p10Idx + k))
  let p11 := if outBound 3 then zeroPoint else load mem (src.base0 + (p11Idx + k))
  bilinearU8 p00 p01 p10 p11 point.xw point.yw

/-- The byte stored as number `k` of a pixel, which is the given one where alpha stands. -/
def alphaOr (isAbgrOrder : Nat) (nv2bgrAlpha : UInt8) (k : Nat) (val : UInt8) : UInt8 :=
  if isAbgrOrder = 0 ∧ k = 3 then nv2bgrAlpha
  else if isAbgrOrder = 1 ∧ k = 0 then nv2bgrAlpha
  else val

/-- Where byte `k` of a destination pixel goes. -/
def rgbAddress (dst : BsBox) (dx dy : Int) (k : Nat) : Int :=
  dst.base0 + ((dy - dst.sboxY) * dst.stride0 + (dx - dst.sboxX) * 4 + k)

/-- The four stores of a destination pixel. -/
def rgbStores (dst : BsBox) (isAbgrOrder : Nat) (nv2bgrAlpha : UInt8) (dx dy : Int)
    (byte : Nat → UInt8) : List (Int × UInt8) :=
  (List.range 4).map fun k => (rgbAddress dst dx dy k, alphaOr isAbgrOrder nv2bgrAlpha k (byte k))

/-- The values of a `uint16_t` counter from a start up to an end that 16 bits hold. -/
def counter (start last : Int) : List Int := Raster.span (u16 start) (last - u16 start).toNat

/-- A `uint16_t` counter below an `int` end, which it never reaches beyond 65535. -/
def intCounter (start last : Int) : Option (List Int) :=
  if last ≤ 65535 then some (Raster.span (u16 start) (last - u16 start).toNat) else none

end Aip.Bscaler
