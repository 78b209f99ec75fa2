import Mathlib.Algebra.Order.Ring.Int
import Mathlib.Algebra.Order.Ring.Nat
import Mathlib.Data.Nat.Bitwise

/-! The descriptor that `iaic_nndma_start` writes, and that it decodes to what was asked for. -/

namespace Aip

/-- The fields of `iaic_nna_status_t` that a transfer uses. -/
structure NnaStatus where
  dmaVbase : UInt32
  dmaDesramVbase : UInt32
  deriving DecidableEq, Repr

/-- A volatile access of the processor. -/
inductive Access where
  | write (addr value : UInt32)
  | read (addr : UInt32)
  deriving DecidableEq, Repr

/-- What `iaic_nndma_start` returns and prints, and its accesses in order. -/
structure NndmaResult where
  code : Int
  printed : String
  accesses : List Access
  deriving DecidableEq, Repr

/-- `IAIC_CODE_OK`. -/
def iaicCodeOk : Int := 0

/-- A request that is refused with a message. -/
def NndmaResult.refused (message : String) : NndmaResult :=
  { code := -1, printed := message, accesses := [] }

/-- `dma_size1` and `dma_size2`, the two parts of the length field. -/
def dmaSizes (size : UInt32) : UInt32 × UInt32 :=
  if 0x1000 < size then (size &&& 0xfff, ((size >>> 12) &&& 0x1f) <<< 1) else (size, 0)

/-- The two words of the descriptor for a length that is one less than the number of units. -/
def descriptorWords (boPaddr oramPaddr size : UInt32) : UInt32 × UInt32 :=
  (boPaddr ||| (dmaSizes size).2, (dmaSizes size).1 <<< 20 ||| (oramPaddr - 0x12600000) >>> 6)

/-- `iaic_nndma_start`. -/
def iaicNndmaStart (ctx : NnaStatus) (boPaddr oramPaddr size dmaOft : UInt32) : NndmaResult :=
  if size &&& 0x3f ≠ 0 then
    .refused "IAIC error:The size of dma transport is not 64 aligned.\n"
  else if oramPaddr &&& 0x12000000 = 0 then
    .refused "IAIC error:The third parameter is not the oram_paddr.\n"
  else
    -- The length is counted in units of 64 bytes, and a size of zero wraps around.
    let size := (size >>> 6) - 1
    if 0x20000 < size then .refused "IAIC error:The size exceeds the limit.\n"
    else
      let words := descriptorWords boPaddr oramPaddr size
      { code := iaicCodeOk
        printed := ""
        accesses := [.write ctx.dmaDesramVbase words.1, .write (ctx.dmaDesramVbase + 4) words.2,
          .write (ctx.dmaVbase + dmaOft) ((1 : UInt32) <<< 31), .read (ctx.dmaVbase + dmaOft)] }

/-- A request with aligned addresses, the second one in the window that the offset field spans. -/
structure NndmaRequest where
  ctx : NnaStatus
  boPaddr : UInt32
  oramPaddr : UInt32
  size : UInt32
  dmaOft : UInt32
  boAligned : boPaddr.toNat % 64 = 0
  oramAligned : oramPaddr.toNat % 64 = 0
  window : 0x12600000 ≤ oramPaddr.toNat ∧ oramPaddr.toNat < 0x12600000 + 64 * 2 ^ 20

/-- The fields that the hardware reads from a descriptor. -/
structure Transfer where
  boPaddr : Nat
  oramUnit : Nat
  length : Nat
  deriving DecidableEq, Repr

/-- Bits 31 to 6 of the first word, bits 19 to 0 of the second, and the length from both. -/
def Transfer.decode (words : UInt32 × UInt32) : Transfer where
  boPaddr := words.1.toNat / 2 ^ 6 * 2 ^ 6
  oramUnit := words.2.toNat % 2 ^ 20
  length := words.2.toNat / 2 ^ 20 + words.1.toNat / 2 % 2 ^ 5 * 2 ^ 12

namespace NndmaRequest

/-- The outcome of the request. -/
def result (r : NndmaRequest) : NndmaResult :=
  iaicNndmaStart r.ctx r.boPaddr r.oramPaddr r.size r.dmaOft

/-- The request is accepted. -/
def Accepted (r : NndmaRequest) : Prop := r.result.code = iaicCodeOk

instance (r : NndmaRequest) : Decidable r.Accepted := inferInstanceAs (Decidable (_ = _))

/-- The descriptor that is written holds these words. -/
def Writes (r : NndmaRequest) (words : UInt32 × UInt32) : Prop :=
  r.result.accesses.take 2 =
    [.write r.ctx.dmaDesramVbase words.1, .write (r.ctx.dmaDesramVbase + 4) words.2]

instance (r : NndmaRequest) (words : UInt32 × UInt32) : Decidable (r.Writes words) :=
  inferInstanceAs (Decidable (_ = _))

/-- The transfer that is asked for. -/
def asked (r : NndmaRequest) : Transfer where
  boPaddr := r.boPaddr.toNat
  oramUnit := (r.oramPaddr.toNat - 0x12600000) / 64
  length := r.size.toNat / 64 - 1

/-- What the hardware reads from the descriptor is what was asked for. -/
def Faithful (r : NndmaRequest) : Prop :=
  ∀ words, r.Writes words → Transfer.decode words = r.asked

/-- The length is neither of the two that the branches of the code give to the wrong side. -/
def Representable (r : NndmaRequest) : Prop := r.size ≠ 0x40040 ∧ r.size ≠ 0x800040

instance (r : NndmaRequest) : Decidable r.Representable := inferInstanceAs (Decidable (_ ∧ _))

variable {r r' : NndmaRequest} {words : UInt32 × UInt32}

/-- An address in the window has the bit that tells addresses of the memory. -/
theorem oram_bit (r : NndmaRequest) : r.oramPaddr &&& 0x12000000 ≠ 0 := by
  -- Bit 28 is set throughout the window.
  intro none
  have window := r.window
  have quotient : r.oramPaddr.toNat / 2 ^ 28 = 1 := by omega
  have bits := congrArg (fun n : UInt32 => n.toNat.testBit 28) none
  have set : r.oramPaddr.toNat.testBit 28 = true := by
    rw [Nat.testBit_eq_decide_div_mod_eq, quotient]
    rfl
  simp only [UInt32.toNat_and, Nat.testBit_and, set] at bits
  revert bits
  decide

/-- The low six bits are what is left of a division by 64. -/
theorem low_bits (n : UInt32) : n &&& 0x3f = 0 ↔ n.toNat % 64 = 0 := by
  rw [← UInt32.toNat_inj, UInt32.toNat_and]
  have mask : n.toNat &&& 63 = n.toNat % 64 := Nat.and_two_pow_sub_one_eq_mod n.toNat 6
  exact ⟨fun low => mask.symm.trans low, fun low => mask.trans low⟩

/-- The length that is written counts the units behind the first. -/
theorem units (n : UInt32) : ((n >>> 6) - 1).toNat =
    if n.toNat / 64 = 0 then 2 ^ 32 - 1 else n.toNat / 64 - 1 := by
  have small := n.toNat_lt
  have shifted : (n >>> 6).toNat = n.toNat / 64 := by
    rw [UInt32.toNat_shiftRight]
    exact Nat.shiftRight_eq_div_pow n.toNat 6
  rw [UInt32.toNat_sub, shifted]
  show (2 ^ 32 - 1 + n.toNat / 64) % 2 ^ 32 = _
  split <;> omega

/-- A request for a number of units in range gets past all three checks. -/
theorem result_accepted (aligned : r.size &&& 0x3f = 0)
    (short : ¬ (0x20000 : UInt32) < (r.size >>> 6) - 1) : r.result =
      { code := iaicCodeOk
        printed := ""
        accesses :=
          [.write r.ctx.dmaDesramVbase
              (descriptorWords r.boPaddr r.oramPaddr ((r.size >>> 6) - 1)).1,
            .write (r.ctx.dmaDesramVbase + 4)
              (descriptorWords r.boPaddr r.oramPaddr ((r.size >>> 6) - 1)).2,
            .write (r.ctx.dmaVbase + r.dmaOft) ((1 : UInt32) <<< 31),
            .read (r.ctx.dmaVbase + r.dmaOft)] } := by
  rw [result, iaicNndmaStart, if_neg (not_not.mpr aligned), if_neg r.oram_bit]
  exact if_neg short

/-- A request is accepted when it gets past the checks of its size. -/
theorem accepted_checks : r.Accepted ↔
    r.size &&& 0x3f = 0 ∧ ¬ (0x20000 : UInt32) < (r.size >>> 6) - 1 := by
  constructor
  · -- A request that fails a check is answered with -1.
    intro accepted
    have refused : (-1 : Int) ≠ iaicCodeOk := by decide
    rw [Accepted, result, iaicNndmaStart] at accepted
    by_cases aligned : r.size &&& 0x3f = 0
    · refine ⟨aligned, fun long => refused ?_⟩
      rw [if_neg (not_not.mpr aligned), if_neg r.oram_bit] at accepted
      rw [← accepted]
      show (-1 : Int) = NndmaResult.code (if (0x20000 : UInt32) < _ then _ else _)
      rw [if_pos long]
      rfl
    · rw [if_pos aligned] at accepted
      exact (refused accepted).elim
  · intro checks
    rw [Accepted, result_accepted checks.1 checks.2]

/-- An accepted request is for a number of units in range. -/
theorem Accepted.range (accepted : r.Accepted) : r.size.toNat % 64 = 0 ∧
    0 < r.size.toNat ∧ r.size.toNat / 64 ≤ 0x20001 := by
  obtain ⟨aligned, short⟩ := accepted_checks.mp accepted
  have whole := (low_bits r.size).mp aligned
  have count := units r.size
  have bound : ((r.size >>> 6) - 1 : UInt32).toNat ≤ 0x20000 := Nat.le_of_not_lt short
  split at count <;> omega

/-- An accepted request writes the words for its length. -/
theorem Accepted.writes (accepted : r.Accepted) : r.Writes words ↔
    words = descriptorWords r.boPaddr r.oramPaddr ((r.size >>> 6) - 1) := by
  obtain ⟨aligned, short⟩ := accepted_checks.mp accepted
  rw [Writes, result_accepted aligned short]
  obtain ⟨first, second⟩ := words
  simp [Prod.ext_iff, eq_comm]

/-- A part that fits below the lowest bit of another number is added to it. -/
theorem or_low {a b k : Nat} (high : a % 2 ^ k = 0) (low : b < 2 ^ k) : a ||| b = a + b := by
  have split := Nat.two_pow_add_eq_or_of_lt low (a / 2 ^ k)
  rw [Nat.mul_div_cancel' (Nat.dvd_of_mod_eq_zero high)] at split
  exact split.symm

/-- The two parts of the length as numbers. -/
theorem dmaSizes_toNat (n : UInt32) :
    (dmaSizes n).1.toNat = (if 0x1000 < n.toNat then n.toNat % 2 ^ 12 else n.toNat) ∧
    (dmaSizes n).2.toNat = if 0x1000 < n.toNat then n.toNat / 2 ^ 12 % 2 ^ 5 * 2 else 0 := by
  -- Above 4096 units the length is split into two fields.
  by_cases long : 0x1000 < n.toNat
  · have above : 0x1000 < n := long
    have low : n.toNat &&& 0xfff = n.toNat % 2 ^ 12 := Nat.and_two_pow_sub_one_eq_mod n.toNat 12
    have high : n.toNat >>> 12 &&& 0x1f = n.toNat / 2 ^ 12 % 2 ^ 5 := by
      rw [Nat.shiftRight_eq_div_pow]
      exact Nat.and_two_pow_sub_one_eq_mod (n.toNat / 2 ^ 12) 5
    rw [dmaSizes, if_pos above, if_pos long, if_pos long]
    refine ⟨low, ?_⟩
    show (n.toNat >>> 12 &&& 0x1f) <<< 1 % 2 ^ 32 = _
    rw [high, Nat.shiftLeft_eq]
    omega
  · have below : ¬ 0x1000 < n := long
    rw [dmaSizes, if_neg below, if_neg long, if_neg long]
    exact ⟨rfl, rfl⟩

/-- The descriptor decodes to the addresses, and to the length unless that fills a part exactly. -/
theorem decode_words (n : UInt32) (short : n.toNat ≤ 0x20000) :
    Transfer.decode (descriptorWords r.boPaddr r.oramPaddr n) =
      { r.asked with length := if n.toNat = 0x1000 ∨ n.toNat = 0x20000 then 0 else n.toNat } := by
  have bo := r.boPaddr.toNat_lt
  have oram := r.oramPaddr.toNat_lt
  have window := r.window
  obtain ⟨low, high⟩ := dmaSizes_toNat n
  have aligned := r.boAligned
  have small : (dmaSizes n).2.toNat < 2 ^ 6 := by
    rw [high]
    split <;> omega
  have shift : ((r.oramPaddr - 0x12600000) >>> 6 : UInt32).toNat =
      (r.oramPaddr.toNat - 0x12600000) / 2 ^ 6 := by
    rw [UInt32.toNat_shiftRight, UInt32.toNat_sub]
    show ((2 ^ 32 - 0x12600000 + r.oramPaddr.toNat) % 2 ^ 32) >>> 6 = _
    rw [Nat.shiftRight_eq_div_pow]
    omega
  have shifted : ((dmaSizes n).1 <<< 20).toNat = (dmaSizes n).1.toNat * 2 ^ 20 % 2 ^ 32 := by
    rw [UInt32.toNat_shiftLeft, ← Nat.shiftLeft_eq]
    rfl
  -- The parts of both words do not overlap, so they are added.
  have first : (descriptorWords r.boPaddr r.oramPaddr n).1.toNat =
      r.boPaddr.toNat + (dmaSizes n).2.toNat := by
    rw [descriptorWords, UInt32.toNat_or]
    exact or_low (k := 6) aligned small
  have second : (descriptorWords r.boPaddr r.oramPaddr n).2.toNat =
      (dmaSizes n).1.toNat * 2 ^ 20 % 2 ^ 32 + (r.oramPaddr.toNat - 0x12600000) / 2 ^ 6 := by
    rw [descriptorWords, UInt32.toNat_or, shift, shifted]
    exact or_low (k := 20) (by omega) (by omega)
  simp only [Transfer.decode, first, second, asked, Transfer.mk.injEq]
  refine ⟨by omega, by omega, ?_⟩
  -- A part that is filled exactly loses its top bit.
  by_cases long : 0x1000 < n.toNat
  · rw [if_pos long] at low high
    split <;> omega
  · rw [if_neg long] at low high
    split <;> omega

/-- An accepted request is for one unit more than the length says. -/
theorem Accepted.length (accepted : r.Accepted) :
    ((r.size >>> 6) - 1 : UInt32).toNat = r.size.toNat / 64 - 1 := by
  have range := accepted.range
  rw [units, if_neg (by omega)]

/-- The hardware reads what was asked for exactly when the length is representable. -/
theorem Accepted.faithful_iff (accepted : r.Accepted) : r.Faithful ↔ r.Representable := by
  have range := accepted.range
  have length := accepted.length
  have decoded := decode_words (r := r) ((r.size >>> 6) - 1) (by omega)
  have only : r.Faithful ↔
      Transfer.decode (descriptorWords r.boPaddr r.oramPaddr ((r.size >>> 6) - 1)) = r.asked :=
    ⟨fun faithful => faithful _ (accepted.writes.mpr rfl),
      fun same words written => accepted.writes.mp written ▸ same⟩
  rw [only, decoded, length, Representable, ne_eq, ne_eq, ← UInt32.toNat_inj, ← UInt32.toNat_inj]
  -- The lengths that are read wrong are the two at which a field is full.
  have sizes : (0x40040 : UInt32).toNat = 64 * 0x1001 ∧
      (0x800040 : UInt32).toNat = 64 * 0x20001 := by decide
  rw [sizes.1, sizes.2, asked]
  simp only [Transfer.mk.injEq, true_and]
  split <;> omega

/-- Requests that ask for the same transfer are for the same buffers and the same size. -/
theorem asked_inj (accepted : r.Accepted) (other : r'.Accepted) (same : r.asked = r'.asked) :
    r.boPaddr = r'.boPaddr ∧ r.oramPaddr = r'.oramPaddr ∧ r.size = r'.size := by
  have range := accepted.range
  have range' := other.range
  have aligned := r.oramAligned
  have aligned' := r'.oramAligned
  have window := r.window
  have window' := r'.window
  simp only [asked, Transfer.mk.injEq] at same
  obtain ⟨bo, oram, size⟩ := same
  exact ⟨UInt32.toNat_inj.mp bo, UInt32.toNat_inj.mp (by omega), UInt32.toNat_inj.mp (by omega)⟩

/--
An accepted request is written so that the hardware reads what was asked for exactly when its
length is representable, and two such requests with one descriptor ask for the same.
-/
theorem faithful_exact (r : NndmaRequest) (accepted : r.Accepted) :
    (r.Faithful ↔ r.Representable) ∧
    ∀ (r' : NndmaRequest) (words : UInt32 × UInt32), r'.Accepted →
      r.Representable → r'.Representable → r.Writes words → r'.Writes words →
        r.boPaddr = r'.boPaddr ∧ r.oramPaddr = r'.oramPaddr ∧ r.size = r'.size := by
  refine ⟨accepted.faithful_iff, ?_⟩
  intro r' words other representable representable' written written'
  -- Both descriptors are decoded to what was asked for.
  have first := accepted.faithful_iff.mpr representable words written
  have second := other.faithful_iff.mpr representable' words written'
  exact asked_inj accepted other (first.symm.trans second)

/-- A request for `size` bytes from the start of both memories. -/
def probe (size : UInt32) : NndmaRequest where
  ctx := ⟨0x70000000, 0x71000000⟩
  boPaddr := 0x1000000
  oramPaddr := 0x12600000
  size := size
  dmaOft := 0
  boAligned := by decide
  oramAligned := by decide
  window := by decide

/-- A request for one unit is one of those. -/
theorem faithful_exact_unit : ((probe 0x40).Faithful ↔ (probe 0x40).Representable) ∧
    ∀ (r' : NndmaRequest) (words : UInt32 × UInt32), r'.Accepted →
      (probe 0x40).Representable → r'.Representable → (probe 0x40).Writes words →
        r'.Writes words → (probe 0x40).boPaddr = r'.boPaddr ∧
          (probe 0x40).oramPaddr = r'.oramPaddr ∧ (probe 0x40).size = r'.size :=
  faithful_exact (probe 0x40) (by decide)

/-- A request for 0x1001 units is accepted and read as one for a single unit. -/
theorem faithful_truncates : (probe 0x40040).Accepted ∧ ¬ (probe 0x40040).Faithful ∧
    ∃ words, (probe 0x40040).Writes words ∧ (probe 0x40).Writes words := by
  have written : (probe 0x40040).Writes (0x1000000, 0) := by decide
  refine ⟨by decide, ?_, _, written, by decide⟩
  intro faithful
  exact absurd (faithful _ written) (by decide)

end NndmaRequest

end Aip
