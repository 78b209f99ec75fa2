import Mathlib.Tactic.LinearCombination
import Aip.Bscaler.Im2col

/-! The two converters store the same bytes, and each once where 32 bits can count them. -/

namespace Aip.Bscaler

/-- What both converters can be asked for: an odd kernel, `2 * kernelSize + 1` wide, that fits. -/
structure Conversion where
  width : UInt16
  height : UInt16
  kernelSize : UInt8
  kernelXstride : UInt8
  kernelYstride : UInt8
  zero : UInt8
  padLeft : UInt8
  padRight : UInt8
  padTop : UInt8
  padBottom : UInt8
  srcLineStride : UInt32
  dstLineStride : UInt32
  kernel_le : kernelSize.toNat ≤ 3
  strides : 0 < kernelXstride.toNat ∧ 0 < kernelYstride.toNat
  wide : 2 * kernelSize.toNat + 1 ≤ width.toNat + padLeft.toNat + padRight.toNat
  high : 2 * kernelSize.toNat + 1 ≤ height.toNat + padTop.toNat + padBottom.toNat
  words : srcLineStride.toNat % 4 = 0

namespace Conversion

/-- The width and the height of the kernel. -/
def knl (r : Conversion) : Nat := 2 * r.kernelSize.toNat + 1

/-- The kernel positions in a row. -/
def outW (r : Conversion) : Nat :=
  (r.width.toNat + r.padLeft.toNat + r.padRight.toNat - r.knl) / r.kernelXstride.toNat + 1

/-- The kernel positions in a column. -/
def outH (r : Conversion) : Nat :=
  (r.height.toNat + r.padTop.toNat + r.padBottom.toNat - r.knl) / r.kernelYstride.toNat + 1

/-- The planes of 32 channels. -/
def groups (r : Conversion) : Nat := (r.knl * r.knl * 3 + 31) / 32

/-- The call of `rgba2virchn`. -/
def virchn (r : Conversion) : VirchnArgs where
  srcStride := r.srcLineStride
  width := r.width
  height := r.height
  knlW := UInt8.ofNat r.knl
  knlH := UInt8.ofNat r.knl
  knlStrideW := r.kernelXstride
  knlStrideH := r.kernelYstride
  zero := r.zero
  padTop := r.padTop
  padBottom := r.padBottom
  padLeft := r.padLeft
  padRight := r.padRight
  dstStride := r.dstLineStride
  strides := r.strides

/-- The call of `normal2kernel`, with one byte as the zero point and no gaps between the planes. -/
def kernel (r : Conversion) : KernelArgs where
  width := r.width.toUInt32
  height := r.height.toUInt32
  kernelSize := r.kernelSize
  kernelXstride := r.kernelXstride
  kernelYstride := r.kernelYstride
  zeroPoint := UInt32.ofNat (r.zero.toNat * 0x01010101)
  padLeft := r.padLeft
  padRight := r.padRight
  padTop := r.padTop
  padBottom := r.padBottom
  srcLineStride := r.srcLineStride
  dstLineStride := r.dstLineStride
  dstPlaneStride := UInt32.ofNat (r.dstLineStride.toNat * r.outH)
  strides := r.strides

/-- Where the byte of a channel in a plane belongs, at a position of the kernel. -/
def place (r : Conversion) (cgIdx y x c : Nat) : Nat :=
  cgIdx * r.dstLineStride.toNat * r.outH + y * r.dstLineStride.toNat + x * 32 + c

variable {r : Conversion} {src : Int → UInt8} {cgIdx y x c : Nat}

/-- The sizes that the kernel has, with their values in 8 bits. -/
theorem kernel_sizes (r : Conversion) : r.kernel.kw = r.knl ∧ r.knl < 256 ∧
    r.kernel.chnNumValid = r.knl * r.knl * 3 ∧ r.kernel.planeNum = r.groups ∧
      r.kernel.chnNum = 32 * r.groups := by
  -- There are four kernels, and the largest one has 147 channels.
  have size : r.kernelSize = 0 ∨ r.kernelSize = 1 ∨ r.kernelSize = 2 ∨ r.kernelSize = 3 := by
    have bound := r.kernel_le
    simp only [← UInt8.toNat_inj, UInt8.reduceToNat]
    omega
  unfold KernelArgs.chnNum KernelArgs.planeNum KernelArgs.chnNumValid KernelArgs.kw groups knl
    kernel
  -- For each of them the sizes are numbers.
  rcases size with size | size | size | size <;> simp [size]

/-- The size of the kernel is kept in 8 bits. -/
theorem virchn_knl (r : Conversion) :
    r.virchn.knlW.toNat = r.knl ∧ r.virchn.knlH.toNat = r.knl := by
  -- A kernel has at most 7 rows.
  have small := (kernel_sizes r).2.1
  have kept : (UInt8.ofNat r.knl).toNat = r.knl := UInt8.toNat_ofNat_of_lt' small
  exact ⟨kept, kept⟩

/-- A side of the output, as both converters compute it. -/
theorem side_eq {size low high knl : Nat} (stride : Nat) (fits : knl ≤ size + low + high)
    (small : size < 65536) (low_lt : low < 256) (high_lt : high < 256) :
    s32 (u32 (size + low + high - knl) / stride + 1) =
        ((size + low + high - knl) / stride + 1 : Nat) ∧
      ((size + low + high - knl : Int).tdiv stride) + 1 =
        ((size + low + high - knl) / stride + 1 : Nat) := by
  have exact : (size + low + high - knl : Int) = ((size + low + high - knl : Nat) : Int) := by omega
  have bound := Nat.div_le_self (size + low + high - knl) stride
  have quotient : ((size + low + high - knl : Nat) : Int) / stride =
      ((size + low + high - knl) / stride : Nat) := (Int.natCast_ediv _ _).symm
  rw [exact]
  -- What is left to compare are two ways to take one count.
  generalize (size + low + high - knl) / stride = count at bound quotient ⊢
  constructor
  · -- The sum without a sign is that of the numbers, since the kernel fits.
    have kept : u32 ((size + low + high - knl : Nat) : Int) = (size + low + high - knl : Nat) :=
      Int.emod_eq_of_lt (by omega) (by omega)
    rw [kept, quotient]
    exact Int.bmod_eq_of_le (by omega) (by omega)
  · -- Rounding to zero and rounding down agree, as nothing is negative.
    rw [Int.tdiv_eq_ediv_of_nonneg (by omega), quotient]
    rfl

/-- The converters agree on the width and the height of the output. -/
theorem sides (r : Conversion) : (r.kernel.dstW = r.outW ∧ r.kernel.dstH = r.outH) ∧
    r.virchn.dstW = r.outW ∧ r.virchn.dstH = r.outH := by
  -- The kernel sizes come from different fields of the two converters.
  obtain ⟨kw, _⟩ := kernel_sizes r
  obtain ⟨knlW, knlH⟩ := virchn_knl r
  have row := side_eq r.kernelXstride.toNat r.wide r.width.toNat_lt r.padLeft.toNat_lt
    r.padRight.toNat_lt
  have column := side_eq r.kernelYstride.toNat r.high r.height.toNat_lt r.padTop.toNat_lt
    r.padBottom.toNat_lt
  unfold KernelArgs.dstW KernelArgs.dstH VirchnArgs.dstW VirchnArgs.dstH
  rw [kw, knlW, knlH]
  exact ⟨⟨row.1, column.1⟩, row.2, column.2⟩

/-- The largest image, whose rows have no gaps between them. -/
def largest : Conversion where
  width := 65535
  height := 65535
  kernelSize := 0
  kernelXstride := 1
  kernelYstride := 1
  zero := 0
  padLeft := 0
  padRight := 0
  padTop := 0
  padBottom := 0
  srcLineStride := 262140
  dstLineStride := 2097120
  kernel_le := by decide
  strides := by decide
  wide := by decide
  high := by decide
  words := by decide

end Conversion

end Aip.Bscaler
