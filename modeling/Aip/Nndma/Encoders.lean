import Aip.Nndma.DmaFuncLaws

/-! The four encoders of `aie_nndma.h` against the layout of a descriptor that its comment gives. -/

namespace Aip

/-- What `__aie_push_nndma_big_node` writes. -/
def aieNndmaBigNode (oramAddr ddrAddr size : Nat) : Nat × Nat :=
  (ddrAddr ||| (size64m1 size >>> 11 &&& (2 ^ 32 - 2)), desWord1 oramAddr size)

/-- The fields of `nndma_des_t`, with the two parts of the length put together. -/
structure NndmaDes where
  linkFlag : Nat
  ddrAddr : Nat
  oramAddr : Nat
  dataLength : Nat
  deriving DecidableEq, Repr

/-- Bit 0, bits 31 to 6 and bits 51 to 32, and bits 5 to 1 above bits 63 to 52. -/
def NndmaDes.decode (des : Nat × Nat) : NndmaDes where
  linkFlag := des.1 % 2
  ddrAddr := des.1 / 2 ^ 6 % 2 ^ 26
  oramAddr := des.2 % 2 ^ 20
  dataLength := des.1 / 2 % 2 ^ 5 * 2 ^ 12 + des.2 / 2 ^ 20 % 2 ^ 12

/-- The encoders, two of them told whether a descriptor is the last one of its chain. -/
inductive NndmaEncoder where
  | bigNode
  | node
  | nodeMaylast (last : Bool)
  | bignodeMaylast (last : Bool)
  deriving DecidableEq, Repr

namespace NndmaEncoder

/-- The words that an encoder writes. -/
def words (encoder : NndmaEncoder) (oramAddr ddrAddr size : Nat) : Nat × Nat :=
  match encoder with
  | bigNode => aieNndmaBigNode oramAddr ddrAddr size
  | node => aieNndmaNode oramAddr ddrAddr size
  | nodeMaylast last => aieNndmaNodeMaylast last oramAddr ddrAddr size
  | bignodeMaylast last => aieNndmaBignodeMaylast last oramAddr ddrAddr size

/-- The most that an encoder is used for. -/
def limit : NndmaEncoder → Nat
  | node | nodeMaylast _ => 2 ^ 18
  | bigNode | bignodeMaylast _ => 2 ^ 23

/-- Whether a descriptor of the encoder links to the next one. -/
def linkFlag : NndmaEncoder → Nat
  | bigNode => 0
  | node => 1
  | nodeMaylast last | bignodeMaylast last => if last then 0 else 1

/-- A size that an encoder accepts. -/
def Accepts (encoder : NndmaEncoder) (size : Nat) : Prop :=
  0 < size ∧ size % 64 = 0 ∧ size ≤ encoder.limit

instance (encoder : NndmaEncoder) (size : Nat) : Decidable (encoder.Accepts size) :=
  inferInstanceAs (Decidable (_ ∧ _))

variable {encoder : NndmaEncoder} {oramAddr ddrAddr size : Nat}

/-- Without the lowest bit of a shifted length, its upper part is left in its place. -/
theorem length_upper {n : Nat} (small : n < 2 ^ 32) :
    n >>> 11 &&& (2 ^ 32 - 2) = n / 2 ^ 12 * 2 := by
  -- The mask clears the lowest bit only, where the link flag goes.
  have half : (n >>> 11 &&& (2 ^ 32 - 2)) / 2 = n / 2 ^ 12 % 2 ^ 31 := by
    rw [Nat.and_div_two, Nat.shiftRight_eq_div_pow, Nat.div_div_eq_div_mul]
    exact Nat.and_two_pow_sub_one_eq_mod (n / 2 ^ 12) 31
  have even : (n >>> 11 &&& (2 ^ 32 - 2)) % 2 = 0 := by
    rw [show (2 : Nat) = 2 ^ 1 from rfl, Nat.and_mod_two_pow]
    simp
  omega

/-- The first word: the address, and below it the upper part of the length and the link flag. -/
theorem words_first (accepts : encoder.Accepts size) (ddr : ddrAddr % 2 ^ 6 = 0) :
    (encoder.words oramAddr ddrAddr size).1 =
      ddrAddr + ((size / 64 - 1) / 2 ^ 12 * 2 + encoder.linkFlag) := by
  obtain ⟨some, whole, within⟩ := accepts
  -- Within its limit the size is not 0 on 32 bits.
  have length : size64m1 size = size / 64 - 1 := by
    cases encoder <;> rw [limit] at within <;> rw [size64m1_eq (by omega), if_neg (by omega)]
  cases encoder with
  | bigNode =>
    rw [limit] at within
    rw [words, aieNndmaBigNode, length, length_upper (by omega), NndmaRequest.or_low ddr (by omega),
      linkFlag, Nat.add_zero]
  | node =>
    -- A small size has no upper part.
    rw [limit] at within
    rw [words, aieNndmaNode, NndmaRequest.or_low ddr (by decide), linkFlag,
      Nat.div_eq_of_lt (by omega), Nat.zero_mul, Nat.zero_add]
  | nodeMaylast last =>
    rw [limit] at within
    rw [words, aieNndmaNodeMaylast, NndmaRequest.or_low ddr (by split <;> decide), linkFlag,
      Nat.div_eq_of_lt (by omega), Nat.zero_mul, Nat.zero_add]
  | bignodeMaylast last =>
    rw [limit] at within
    have flag : (if last then 0 else 1) < 2 ^ 1 := by split <;> decide
    -- Five bits hold the upper part of a length up to the limit.
    have upper : (size / 64 - 1) / 2 ^ 12 % 2 ^ 5 = (size / 64 - 1) / 2 ^ 12 := by omega
    rw [words, aieNndmaBignodeMaylast, length, length_high, upper, Nat.or_assoc,
      NndmaRequest.or_low (k := 1) (by omega) flag, NndmaRequest.or_low ddr (by omega), linkFlag]

/-- All encoders write the same second word. -/
theorem words_second : (encoder.words oramAddr ddrAddr size).2 = desWord1 oramAddr size := by
  cases encoder <;> rfl

/-- The second word: the lower part of the length, and below it the offset. -/
theorem desWord1_eq (accepts : encoder.Accepts size) (oram : oramAddr < 2 ^ 26) :
    desWord1 oramAddr size = (size / 64 - 1) % 2 ^ 12 * 2 ^ 20 + oramAddr / 2 ^ 6 := by
  obtain ⟨some, whole, within⟩ := accepts
  have length : size64m1 size = size / 64 - 1 := by
    cases encoder <;> rw [limit] at within <;> rw [size64m1_eq (by omega), if_neg (by omega)]
  -- What the shift moves out of the word is the upper part.
  have shifted : (size / 64 - 1) * 2 ^ 20 % 2 ^ 32 = (size / 64 - 1) % 2 ^ 12 * 2 ^ 20 :=
    Nat.mul_mod_mul_right (2 ^ 20) (size / 64 - 1) (2 ^ 12)
  have below : oramAddr / 2 ^ 6 < 2 ^ 20 := Nat.div_lt_of_lt_mul oram
  rw [desWord1, length, Nat.shiftLeft_eq, Nat.shiftRight_eq_div_pow, shifted,
    NndmaRequest.or_low (Nat.mul_mod_left ((size / 64 - 1) % 2 ^ 12) (2 ^ 20)) below]

/-- The link flag is one bit. -/
theorem linkFlag_lt (encoder : NndmaEncoder) : encoder.linkFlag < 2 := by
  cases encoder with
  | nodeMaylast last | bignodeMaylast last => cases last <;> decide
  | _ => decide

/--
Each encoder writes two words of 32 bits from which the documented layout gives back what was asked
for, and encoders that accept the same size write the same words up to the link flag.
-/
theorem words_decode (ddr : ddrAddr % 64 = 0 ∧ ddrAddr < 2 ^ 32)
    (oram : oramAddr % 64 = 0 ∧ oramAddr < 64 * 2 ^ 20) (accepts : encoder.Accepts size) :
    ((encoder.words oramAddr ddrAddr size).1 < 2 ^ 32 ∧
      (encoder.words oramAddr ddrAddr size).2 < 2 ^ 32) ∧
    NndmaDes.decode (encoder.words oramAddr ddrAddr size) =
      ⟨encoder.linkFlag, ddrAddr / 64, oramAddr / 64, size / 64 - 1⟩ ∧
    ∀ other : NndmaEncoder, other.Accepts size →
      (other.words oramAddr ddrAddr size).1 / 2 = (encoder.words oramAddr ddrAddr size).1 / 2 ∧
        (other.words oramAddr ddrAddr size).2 = (encoder.words oramAddr ddrAddr size).2 := by
  have flag := encoder.linkFlag_lt
  have first : (encoder.words oramAddr ddrAddr size).1 =
      ddrAddr + ((size / 64 - 1) / 2 ^ 12 * 2 + encoder.linkFlag) := words_first accepts ddr.1
  have second := desWord1_eq accepts oram.2
  -- The largest size has 17 bits of length, 5 of them in the first word.
  have small : size ≤ 2 ^ 23 := by
    have within := accepts.2.2
    cases encoder <;> rw [limit] at within <;> omega
  refine ⟨?_, ?_, fun other too => ?_⟩
  · rw [words_second, first, second]
    omega
  · rw [NndmaDes.decode, words_second, first, second, NndmaDes.mk.injEq]
    omega
  · -- Two first words differ in the lowest bit only.
    have flag' := other.linkFlag_lt
    rw [words_second, words_second, first, words_first too ddr.1]
    exact ⟨by omega, rfl⟩

/-- The largest transfer, of 8 MB from behind the first one. -/
theorem words_decode_largest :
    NndmaDes.decode ((bignodeMaylast true).words 0x40 0x800000 (2 ^ 23)) =
      ⟨0, 0x20000, 1, 2 ^ 17 - 1⟩ :=
  (words_decode (by decide) (by decide) (by decide)).2.1

end NndmaEncoder

end Aip
