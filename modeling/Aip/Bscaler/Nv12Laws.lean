import Aip.Bscaler.Nv12
import Aip.Bscaler.SplitLaws

/-! What the buffers hold that an NV12 source is converted to, and what is read from them. -/

namespace Aip.Bscaler

open Raster (Point)

variable {mem leftover buffer : Memory} {src : BsBox} {point : SrcPoint} {zero : UInt8}
  {base stride bpp : Int}

/-- The luma byte of a pixel, counted from the corner of the source box. -/
def nv12Luma (mem : Memory) (src : BsBox) (x y : Int) : UInt8 :=
  load mem (src.base0 + (y * src.stride0 + x))

/-- A chroma byte of a pixel: number 0 is U and number 1 is V. -/
def nv12Chroma (mem : Memory) (src : BsBox) (b x y : Int) : UInt8 :=
  load mem (src.base1 + y / 2 * src.stride0 + (2 * (x / 2) + b))

/-- The bytes of a pixel converted to four of them. -/
def nv12Rgba (mem : Memory) (src : BsBox) (coef : Fin 9 → UInt32) (offset : Fin 2 → UInt8)
    (nv2bgrAlpha : UInt8) (order : Nat) (x y : Int) : List UInt8 :=
  yuv2rgb (nv12Luma mem src x y) (nv12Chroma mem src 0 x y) (nv12Chroma mem src 1 x y) coef offset
    nv2bgrAlpha order

/-- A buffer holds a plane: the values of all pixels of a box, row after row from a base on. -/
def Holds (buffer : Memory) (src : BsBox) (base stride bpp : Int) (value : Int → Int → UInt8) :
    Prop :=
  ∀ x y, 0 ≤ x → x < src.sboxW → 0 ≤ y → y < src.sboxH →
    load buffer (base + (y * stride + x * bpp)) = value x y

/-- A byte between the values at the taps that are let through. -/
def blend (outBound : Fin 4 → Bool) (zero : UInt8) (value : Point → UInt8) (point : SrcPoint) :
    UInt8 :=
  bilinearU8 (if outBound 0 then zero else value (tap point 0))
    (if outBound 1 then zero else value (tap point 1))
    (if outBound 2 then zero else value (tap point 2))
    (if outBound 3 then zero else value (tap point 3)) point.xw point.yw

/-- A byte read from a plane lies between the values of the pixels around its source point. -/
theorem planeByte_blend {value : Int → Int → UInt8} (sound : src.Sound)
    (column : -32768 ≤ point.xp ∧ point.xp < 32768) (row : -32768 ≤ point.yp ∧ point.yp < 32768)
    (holds : Holds mem src base stride bpp value) :
    planeByte mem src base stride bpp zero point =
      blend (bilinearBoundCheck src.sboxX src.sboxY src.sboxW src.sboxH point.xp point.yp) zero
        (fun q => value (q.1 - src.sboxX) (q.2 - src.sboxY)) point := by
  have left := sound.left
  have top := sound.top
  -- A tap that is let through is at its own place, because wrapping around leads below the box.
  have place : ∀ v : Int, -32768 ≤ v → v ≤ 32768 → 0 ≤ s16 v → s16 v = v := by
    intro v lower upper positive
    unfold s16 at positive ⊢
    rcases lt_or_eq_of_le upper with below | rfl
    · exact Int.bmod_eq_of_le (by omega) (by omega)
    · exact absurd positive (by decide)
  have read : ∀ (c : Fin 4) (tx ty index : Int), tap point c = (s16 tx, s16 ty) →
      -32768 ≤ tx → tx ≤ 32768 → -32768 ≤ ty → ty ≤ 32768 →
      index = (ty - src.sboxY) * stride + (tx - src.sboxX) * bpp →
      (if bilinearBoundCheck src.sboxX src.sboxY src.sboxW src.sboxH point.xp point.yp c then zero
        else load mem (base + index)) =
      if bilinearBoundCheck src.sboxX src.sboxY src.sboxW src.sboxH point.xp point.yp c then zero
        else value ((tap point c).1 - src.sboxX) ((tap point c).2 - src.sboxY) := by
    intro c tx ty index tapped lowX highX lowY highY here
    by_cases out : bilinearBoundCheck src.sboxX src.sboxY src.sboxW src.sboxH point.xp point.yp c
    · rw [if_pos out, if_pos out]
    · have inside := (boundCheck_iff sound).mp (Bool.eq_false_iff.mpr out)
      rw [tapped] at inside ⊢
      obtain ⟨⟨first, last⟩, upper, lower⟩ := inside
      simp only at first last upper lower
      have column := place tx lowX highX (by omega)
      have row := place ty lowY highY (by omega)
      rw [column] at first last
      rw [row] at upper lower
      rw [if_neg out, if_neg out, here, column, row]
      exact holds _ _ (by omega) (by omega) (by omega) (by omega)
  unfold planeByte blend
  simp only
  rw [read 0 point.xp point.yp _ rfl column.1 (by omega) row.1 (by omega) rfl,
    read 1 (point.xp + 1) point.yp _ rfl (by omega) (by omega) row.1 (by omega) (by ring),
    read 2 point.xp (point.yp + 1) _ rfl column.1 (by omega) (by omega) (by omega) (by ring),
    read 3 (point.xp + 1) (point.yp + 1) _ rfl (by omega) (by omega) (by omega) (by omega)
      (by ring)]

/-- A box whose buffer of four bytes for each pixel can be addressed. -/
structure BsBox.Addressed (src : BsBox) : Prop where
  width : 0 ≤ src.sboxW
  height : 0 ≤ src.sboxH
  room : src.sboxW * src.sboxH * 4 ≤ 4294967296

/-- The conversion to planes of full size stores every luma byte and every chroma byte once. -/
theorem nv12ToYuv444_paints : nv12ToYuv444 mem src (yuv444Box src) leftover =
    Paint.paint leftover ((Raster.span 0 src.sboxH.toNat).flatMap fun y =>
      ((Raster.span 0 src.sboxW.toNat).map fun x => (0 + (y * src.sboxW + x), nv12Luma mem src x y)) ++
        (Raster.span 0 src.sboxW.toNat).flatMap fun x => (List.range 2).map fun b : Nat =>
          (src.sboxW * src.sboxH + y * (src.sboxW * 2) + (2 * x + b), nv12Chroma mem src b x y)) := by
  rw [← Paint.foldl_paint, nv12ToYuv444]
  refine congrArg (fun row => List.foldl row leftover _) (funext₂ fun buffer y => ?_)
  rw [Paint.paint_append]
  exact Paint.foldl_paint _

/-- The stores of the conversion to planes of full size. -/
theorem mem_yuv444Stores {store : Int × UInt8} :
    (store ∈ (Raster.span 0 src.sboxH.toNat).flatMap fun y =>
      ((Raster.span 0 src.sboxW.toNat).map fun x => (0 + (y * src.sboxW + x), nv12Luma mem src x y)) ++
        (Raster.span 0 src.sboxW.toNat).flatMap fun x => (List.range 2).map fun b : Nat =>
          (src.sboxW * src.sboxH + y * (src.sboxW * 2) + (2 * x + b), nv12Chroma mem src b x y)) ↔
      ∃ x y, ((0 ≤ x ∧ x < src.sboxW) ∧ 0 ≤ y ∧ y < src.sboxH) ∧
        (store = (y * src.sboxW + x, nv12Luma mem src x y) ∨ ∃ b : Nat, b < 2 ∧
          store = (src.sboxW * src.sboxH + y * (src.sboxW * 2) + (2 * x + b),
            nv12Chroma mem src b x y)) := by
  simp only [List.mem_flatMap, List.mem_append, List.mem_map, Raster.mem_span, List.mem_range,
    Int.zero_add]
  constructor
  · rintro ⟨y, row, ⟨x, column, rfl⟩ | ⟨x, column, b, small, rfl⟩⟩
    · exact ⟨x, y, ⟨by omega, by omega⟩, Or.inl rfl⟩
    · exact ⟨x, y, ⟨by omega, by omega⟩, Or.inr ⟨b, small, rfl⟩⟩
  · rintro ⟨x, y, ⟨column, row⟩, rfl | ⟨b, small, rfl⟩⟩
    · exact ⟨y, by omega, Or.inl ⟨x, by omega, rfl⟩⟩
    · exact ⟨y, by omega, Or.inr ⟨x, by omega, b, small, rfl⟩⟩

/-- The first plane of the buffer holds the luma bytes. -/
theorem nv12ToYuv444_luma (mem leftover : Memory) (addressed : src.Addressed) :
    Holds (nv12ToYuv444 mem src (yuv444Box src) leftover) src 0 src.sboxW 1 (nv12Luma mem src) := by
  intro x y left right top bottom
  have room := addressed.room
  have within := Raster.offset_within (And.intro left right) (And.intro top bottom)
  rw [nv12ToYuv444_paints, load, Int.zero_add, Int.mul_one,
    Int.emod_eq_of_lt within.1 (by omega)]
  refine Paint.paint_uniform ⟨_, mem_yuv444Stores.mpr ⟨x, y, ⟨⟨left, right⟩, top, bottom⟩,
    Or.inl rfl⟩, rfl⟩ ?_
  -- The place is in the rows of the first plane, and it says the row and the column.
  intro store member same
  obtain ⟨x', y', ⟨column, row⟩, rfl | ⟨b, small, rfl⟩⟩ := mem_yuv444Stores.mp member
  · obtain ⟨rfl, rfl⟩ := Raster.offset_unique column ⟨left, right⟩ same
    rfl
  · have behind : 0 ≤ y' * (src.sboxW * 2) + (2 * x' + b) :=
      (Raster.offset_within (by omega) row).1
    simp only at same
    omega

/-- The second plane of the buffer holds the chroma bytes, two for each pixel. -/
theorem nv12ToYuv444_chroma (mem leftover : Memory) (addressed : src.Addressed) (b : Nat)
    (small : b < 2) :
    Holds (nv12ToYuv444 mem src (yuv444Box src) leftover) src (src.sboxW * src.sboxH + b)
      (src.sboxW * 2) 2 (nv12Chroma mem src b) := by
  intro x y left right top bottom
  have room := addressed.room
  have within : 0 ≤ y * (src.sboxW * 2) + (2 * x + b) ∧
      y * (src.sboxW * 2) + (2 * x + b) < src.sboxW * 2 * src.sboxH :=
    Raster.offset_within (by omega) ⟨top, bottom⟩
  have area := mul_nonneg addressed.width addressed.height
  have place : src.sboxW * src.sboxH + b + (y * (src.sboxW * 2) + x * 2) =
      src.sboxW * src.sboxH + y * (src.sboxW * 2) + (2 * x + b) := by ring
  rw [nv12ToYuv444_paints, load, place, Int.emod_eq_of_lt (by omega)
    (by rw [mul_right_comm] at within; omega)]
  refine Paint.paint_uniform ⟨_, mem_yuv444Stores.mpr ⟨x, y, ⟨⟨left, right⟩, top, bottom⟩,
    Or.inr ⟨b, small, rfl⟩⟩, rfl⟩ ?_
  -- The place is behind the first plane, and it says the row, the column and the byte.
  intro store member same
  obtain ⟨x', y', ⟨column, row⟩, rfl | ⟨b', small', rfl⟩⟩ := mem_yuv444Stores.mp member
  · have before := Raster.offset_within column row
    simp only at same
    omega
  · have offset : y' * (src.sboxW * 2) + (2 * x' + b') = y * (src.sboxW * 2) + (2 * x + b) := by
      simp only at same
      omega
    obtain ⟨rfl, equal⟩ := Raster.offset_unique (by omega) (by omega) offset
    obtain ⟨rfl, rfl⟩ : x' = x ∧ b' = b := by omega
    rfl

section Rgb

variable {coef : Fin 9 → UInt32} {offset : Fin 2 → UInt8} {nv2bgrAlpha : UInt8} {order : Nat}
  {format : DataFormat} {x y : Int} {store : Int × UInt8}

/-- Every format names an order that the colour conversion knows. -/
theorem yuv2rgb_length (y u v : UInt8) :
    (yuv2rgb y u v coef offset nv2bgrAlpha format.nv2bgrOrder).length = 4 := by
  cases format <;> rfl

theorem mem_byteStores {address : Int} {bytes : List UInt8} : store ∈ byteStores address bytes ↔
    ∃ (k : Nat) (short : k < bytes.length), store = (address + k, bytes[k]) := by
  simp only [byteStores, List.mem_mapIdx, eq_comm]

theorem mem_evens {limit value : Int} :
    value ∈ evens limit ↔ 0 ≤ value ∧ value < limit ∧ value % 2 = 0 := by
  unfold evens
  rw [List.mem_map]
  constructor
  · rintro ⟨step, member, rfl⟩
    have := List.mem_range.mp member
    omega
  · rintro ⟨lower, upper, even⟩
    exact ⟨(value / 2).toNat, List.mem_range.mpr (by omega), by omega⟩

/-- A block stores the bytes of its four pixels. -/
theorem nv12Block_eq (strides : src.stride0 = src.stride1) (column : x % 2 = 0) (row : y % 2 = 0) :
    nv12Block mem src (rgbBox src) order coef offset nv2bgrAlpha x y =
      byteStores (y * (src.sboxW * 4) + x * 4)
          (nv12Rgba mem src coef offset nv2bgrAlpha order x y) ++
        byteStores (y * (src.sboxW * 4) + (x + 1) * 4)
          (nv12Rgba mem src coef offset nv2bgrAlpha order (x + 1) y) ++
        byteStores ((y + 1) * (src.sboxW * 4) + x * 4)
          (nv12Rgba mem src coef offset nv2bgrAlpha order x (y + 1)) ++
        byteStores ((y + 1) * (src.sboxW * 4) + (x + 1) * 4)
          (nv12Rgba mem src coef offset nv2bgrAlpha order (x + 1) (y + 1)) := by
  -- The corner of a block is even, so all its pixels have the chroma bytes of the corner.
  obtain ⟨x, rfl⟩ : ∃ half, x = 2 * half := ⟨x / 2, by omega⟩
  obtain ⟨y, rfl⟩ : ∃ half, y = 2 * half := ⟨y / 2, by omega⟩
  have rows : 2 * y * src.stride1 / 2 = y * src.stride1 := by
    rw [Int.mul_assoc, Int.mul_ediv_cancel_left _ (by decide)]
  have halves : ∀ z : Int, 2 * z / 2 = z ∧ (2 * z + 1) / 2 = z := fun z => by omega
  have addresses : (rgbBox src).base0 + (rgbBox src).stride0 * (2 * y) + 2 * x * 4 =
      2 * y * (src.sboxW * 4) + 2 * x * 4 := by
    simp only [rgbBox]
    ring
  have below : 2 * y * (src.sboxW * 4) + 2 * x * 4 + (rgbBox src).stride0 =
      (2 * y + 1) * (src.sboxW * 4) + 2 * x * 4 := by
    simp only [rgbBox]
    ring
  have beside : ∀ z : Int, z + 2 * x * 4 + 4 = z + (2 * x + 1) * 4 := fun z => by ring
  unfold nv12Block nv12Rgba nv12Luma nv12Chroma
  simp only [rows, (halves x).1, (halves x).2, (halves y).1, (halves y).2, addresses, below, beside,
    strides, mul_comm src.stride1, Int.add_zero, ← Int.add_assoc]

/-- The conversion to four-byte pixels stores the bytes of every pixel of an even box. -/
theorem mem_rgbStores (strides : src.stride0 = src.stride1) (wide : src.sboxW % 2 = 0)
    (tall : src.sboxH % 2 = 0) :
    (store ∈ (evens src.sboxH).flatMap fun y => (evens src.sboxW).flatMap fun x =>
        nv12Block mem src (rgbBox src) order coef offset nv2bgrAlpha x y) ↔
      ∃ x y, ((0 ≤ x ∧ x < src.sboxW) ∧ 0 ≤ y ∧ y < src.sboxH) ∧
        store ∈ byteStores (y * (src.sboxW * 4) + x * 4)
          (nv12Rgba mem src coef offset nv2bgrAlpha order x y) := by
  simp only [List.mem_flatMap, mem_evens]
  constructor
  · rintro ⟨y, row, x, column, member⟩
    rw [nv12Block_eq strides column.2.2 row.2.2] at member
    simp only [List.mem_append] at member
    rcases member with ((here | right) | under) | across
    · exact ⟨x, y, by omega, here⟩
    · exact ⟨x + 1, y, by omega, right⟩
    · exact ⟨x, y + 1, by omega, under⟩
    · exact ⟨x + 1, y + 1, by omega, across⟩
  · rintro ⟨x, y, inside, member⟩
    -- The pixel is in the block at the even places before it.
    refine ⟨y - y % 2, by omega, x - x % 2, by omega, ?_⟩
    rw [nv12Block_eq strides (by omega) (by omega)]
    simp only [List.mem_append]
    rcases Int.emod_two_eq_zero_or_one x with column | column <;>
      rcases Int.emod_two_eq_zero_or_one y with row | row <;>
      simp only [column, row, Int.sub_zero, Int.sub_add_cancel, member, true_or, or_true]

/-- The buffer of four-byte pixels holds the bytes of all pixels of an even box. -/
theorem nv12ToRgb_holds (mem : Memory) (coef : Fin 9 → UInt32) (offset : Fin 2 → UInt8)
    (nv2bgrAlpha : UInt8) (format : DataFormat) (leftover : Memory) (addressed : src.Addressed)
    (strides : src.stride0 = src.stride1) (wide : src.sboxW % 2 = 0) (tall : src.sboxH % 2 = 0) :
    ∃ buffer, nv12ToRgb mem src (rgbBox src) format.nv2bgrOrder coef offset nv2bgrAlpha leftover =
        some buffer ∧
      ∀ k : Nat, k < 4 → Holds buffer src k (src.sboxW * 4) 4 fun x y =>
        (nv12Rgba mem src coef offset nv2bgrAlpha format.nv2bgrOrder x y).getD k 0 := by
  have paints : nv12ToRgb mem src (rgbBox src) format.nv2bgrOrder coef offset nv2bgrAlpha leftover =
      some (Paint.paint leftover ((evens src.sboxH).flatMap fun y => (evens src.sboxW).flatMap
        fun x => nv12Block mem src (rgbBox src) format.nv2bgrOrder coef offset nv2bgrAlpha x y)) := by
    rw [← Paint.foldl_paint, nv12ToRgb, if_pos strides]
    exact congrArg (fun row => some (List.foldl row leftover _))
      (funext₂ fun buffer y => Paint.foldl_paint _)
  refine ⟨_, paints, fun k small x y left right top bottom => ?_⟩
  have room := addressed.room
  have within : 0 ≤ y * (src.sboxW * 4) + (x * 4 + k) ∧
      y * (src.sboxW * 4) + (x * 4 + k) < src.sboxW * 4 * src.sboxH :=
    Raster.offset_within (by omega) ⟨top, bottom⟩
  have place : (k : Int) + (y * (src.sboxW * 4) + x * 4) = y * (src.sboxW * 4) + (x * 4 + k) := by
    ring
  have short : k < (nv12Rgba mem src coef offset nv2bgrAlpha format.nv2bgrOrder x y).length := by
    rw [nv12Rgba, yuv2rgb_length]
    exact small
  rw [load, place, Int.emod_eq_of_lt within.1 (by rw [mul_right_comm] at within; omega)]
  refine Paint.paint_uniform ⟨_, (mem_rgbStores strides wide tall).mpr ⟨x, y,
    ⟨⟨left, right⟩, top, bottom⟩, mem_byteStores.mpr ⟨k, short, rfl⟩⟩, Int.add_assoc _ _ _⟩ ?_
  -- The place says the row, the column and the byte.
  intro store member same
  obtain ⟨x', y', inside, stored⟩ := (mem_rgbStores strides wide tall).mp member
  obtain ⟨k', short', rfl⟩ := mem_byteStores.mp stored
  have small' : k' < 4 := by
    rw [nv12Rgba, yuv2rgb_length] at short'
    exact short'
  have offset : y' * (src.sboxW * 4) + (x' * 4 + k') = y * (src.sboxW * 4) + (x * 4 + k) := by
    simp only at same
    omega
  obtain ⟨rfl, equal⟩ := Raster.offset_unique (by omega) (by omega) offset
  obtain ⟨rfl, rfl⟩ : x' = x ∧ k' = k := by omega
  simp only [List.getD_eq_getElem?_getD, List.getElem?_eq_getElem short', Option.getD_some]

end Rgb

/-- A byte of a four-byte pixel is a byte of the plane that starts at it. -/
theorem rgbByte_plane (k : Nat) : rgbByte mem src zero point k =
    planeByte mem src (src.base0 + k) src.stride0 4 zero point := by
  have moved : ∀ index : Int, src.base0 + (index + k) = src.base0 + k + index := by
    intro index
    ring
  unfold rgbByte planeByte
  simp only [moved]

section Runs

variable {dst : BsBox} {matrix : Matrix} {coef : Fin 9 → UInt32} {offset : Fin 2 → UInt8}
  {nv2bgrAlpha zeroPoint : UInt8} {format : DataFormat} {image : Memory} {isAbgrOrder : Nat}

/-- The byte of a destination pixel, between the pixels of a source box. -/
def sampled (src : BsBox) (matrix : Matrix) (zero : UInt8) (value : Int → Int → UInt8) (p : Point) :
    UInt8 :=
  let point := affineDst2src matrix p.1 p.2
  blend (bilinearBoundCheck src.sboxX src.sboxY src.sboxW src.sboxH point.xp point.yp) zero
    (fun q => value (q.1 - src.sboxX) (q.2 - src.sboxY)) point

/-- A byte that is read from a plane of the pixels of a box. -/
theorem planeByte_sampled {value : Int → Int → UInt8} (sound : src.Sound)
    (holds : Holds buffer src base stride bpp value) (p : Point) :
    planeByte buffer src base stride bpp zero (affineDst2src matrix p.1 p.2) =
      sampled src matrix zero value p := by
  -- The conversion keeps its whole coordinates in 16 bits.
  have signed : ∀ value : Int, -32768 ≤ s16 value ∧ s16 value < 32768 := fun value =>
    ⟨Int.le_bmod (by decide), Int.bmod_lt (by decide)⟩
  exact planeByte_blend sound (signed _) (signed _) holds

/-- The stores of a destination pixel in NV12. -/
def nv12Sampled (mem : Memory) (src dst : BsBox) (matrix : Matrix) (offset : Fin 2 → UInt8)
    (p : Point) : List (Int × UInt8) :=
  nv12Stores dst p.1 p.2 (sampled src matrix (offset 0) (nv12Luma mem src) p)
    (sampled src matrix (offset 1) (nv12Chroma mem src 0) p)
    (sampled src matrix (offset 1) (nv12Chroma mem src 1) p)

/-- An affine box from NV12 to NV12 makes the stores of its pixels, row after row. -/
theorem bsAffineBoxNv12ToNv12_paints (mem leftover image : Memory) (dst : BsBox)
    (offset : Fin 2 → UInt8) (affine : isPerspective matrix = false) (sound : src.Sound)
    (addressed : src.Addressed) (left : 0 ≤ dst.sboxX) (top : 0 ≤ dst.sboxY)
    (width : 0 ≤ dst.sboxW) (height : 0 ≤ dst.sboxH) (right : dst.sboxX + dst.sboxW ≤ 65535)
    (bottom : dst.sboxY + dst.sboxH ≤ 65535) :
    bsAffineBoxNv12ToNv12 mem src dst matrix offset leftover image =
      some (Paint.paint image ((Raster.rows dst.sboxX dst.sboxW.toNat dst.sboxY
        dst.sboxH.toNat).flatMap (nv12Sampled mem src dst matrix offset))) := by
  -- Each of the three bytes is read from a plane of the buffer.
  have luma := nv12ToYuv444_luma mem leftover addressed
  have u := nv12ToYuv444_chroma mem leftover addressed 0 (by decide)
  have v := nv12ToYuv444_chroma mem leftover addressed 1 (by decide)
  rw [Nat.cast_zero, Int.add_zero] at u
  rw [Nat.cast_one] at v
  unfold bsAffineBoxNv12ToNv12 bsAffineBoxNv12
  simp only [counter_side top height bottom, counter_side left width right, affine,
    Bool.false_eq_true, if_false, Option.bind_eq_bind, Option.bind_some]
  rw [Raster.rows, List.flatMap_assoc]
  simp only [List.flatMap_map]
  refine Paint.foldlM_paint fun dy here image => Paint.foldlM_paint fun dx there image => ?_
  rw [nv12Sampled, ← planeByte_sampled sound luma (dx, dy), ← planeByte_sampled sound u (dx, dy),
    ← planeByte_sampled sound v (dx, dy)]
  rfl

/-- The stores of a destination pixel in four bytes, from an NV12 source. -/
def rgbaSampled (mem : Memory) (src dst : BsBox) (matrix : Matrix) (coef : Fin 9 → UInt32)
    (offset : Fin 2 → UInt8) (nv2bgrAlpha : UInt8) (order : Nat) (zeroPoint : UInt8) (p : Point) :
    List (Int × UInt8) :=
  rgbStores dst (abgrOrder order) nv2bgrAlpha p.1 p.2 fun k =>
    sampled src matrix zeroPoint
      (fun x y => (nv12Rgba mem src coef offset nv2bgrAlpha order x y).getD k 0) p

/-- The stores of a pixel read from the buffer are those of the converted pixels. -/
theorem affineStores_sampled (sound : src.Sound) {order : Nat}
    (holds : ∀ k : Nat, k < 4 → Holds buffer src k (src.sboxW * 4) 4 fun x y =>
      (nv12Rgba mem src coef offset nv2bgrAlpha order x y).getD k 0) (p : Point) :
    affineStores buffer (rgbBox src) dst matrix zeroPoint (abgrOrder order) nv2bgrAlpha p =
      rgbaSampled mem src dst matrix coef offset nv2bgrAlpha order zeroPoint p := by
  unfold affineStores rgbaSampled rgbStores
  apply List.map_congr_left
  intro k member
  have byte : planeByte buffer src k (src.sboxW * 4) 4 zeroPoint (affineDst2src matrix p.1 p.2) =
      _ := planeByte_sampled sound (holds k (List.mem_range.mp member)) p
  simp only [rgbByte_plane, rgbBox, Int.zero_add]
  exact congrArg (fun byte => (rgbAddress dst p.1 p.2 k, alphaOr (abgrOrder order) nv2bgrAlpha k byte))
    byte

/-- An affine box from NV12 to four bytes makes the stores of its pixels. -/
theorem bsAffineBoxNv12ToRgb_paints (mem leftover image : Memory) (coef : Fin 9 → UInt32)
    (offset : Fin 2 → UInt8) (nv2bgrAlpha zeroPoint : UInt8) (format : DataFormat)
    (affine : isPerspective matrix = false) (sound : src.Sound)
    (addressed : src.Addressed) (strides : src.stride0 = src.stride1) (wide : src.sboxW % 2 = 0)
    (tall : src.sboxH % 2 = 0) (fits : dst.Fits) (origin : src.Origin) :
    bsAffineBoxNv12ToRgb mem src dst matrix coef offset nv2bgrAlpha format.nv2bgrOrder zeroPoint
        leftover image =
      some (Paint.paint image (dst.pixels.flatMap (rgbaSampled mem src dst matrix coef offset
        nv2bgrAlpha format.nv2bgrOrder zeroPoint))) := by
  obtain ⟨buffer, converted, holds⟩ :=
    nv12ToRgb_holds mem coef offset nv2bgrAlpha format leftover addressed strides wide tall
  -- The traversal in source order leaves what the plain loops leave.
  obtain ⟨final, ran, _, same, _, painted⟩ := bsAffineBoxRgbComplex_merges buffer image
    matrix zeroPoint (abgrOrder format.nv2bgrOrder) nv2bgrAlpha fits
    (show (rgbBox src).Origin from ⟨origin.left, origin.top⟩)
  unfold bsAffineBoxNv12ToRgb
  simp only [converted, affine, Bool.false_eq_true, if_false, Option.bind_eq_bind,
    Option.bind_some, ran, Option.map_some, painted]
  rw [bsAffineBoxRgb_merged fits same,
    bsAffineBoxRgb_paints fits.left fits.top fits.width.1 fits.height.1 fits.right fits.bottom,
    funext (affineStores_sampled sound holds)]

end Runs

end Aip.Bscaler
