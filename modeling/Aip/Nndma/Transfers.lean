import Aip.Lib.Pieces
import Aip.Nndma.Encoders

/-! What a descriptor makes the hardware move, and the addresses it is given in both memories. -/

namespace Aip

namespace NndmaDes

/-- The bytes that are moved: the length field counts units of 64 bytes, less one. -/
def size (des : NndmaDes) : Nat := (des.dataLength + 1) * 64

/-- Where the bytes are in the DDR memory. -/
def ddrStart (des : NndmaDes) : Nat := des.ddrAddr * 64

/-- Where the bytes are in the on-chip memory. -/
def oramStart (des : NndmaDes) : Nat := des.oramAddr * 64

/-- The addresses in the DDR memory, in order. -/
def ddrBytes (des : NndmaDes) : List Nat := (List.range des.size).map (des.ddrStart + ·)

/-- The addresses in both memories between which bytes are moved, in order. -/
def moves (des : NndmaDes) : List (Nat × Nat) :=
  (List.range des.size).map fun j => (des.ddrStart + j, des.oramStart + j)

/-- What a descriptor asks for, in bytes. -/
structure Asks (des : NndmaDes) (last : Bool) (ddr oram bytes : Nat) : Prop where
  link : des.linkFlag = if last then 0 else 1
  ddr : des.ddrStart = ddr
  oram : des.oramStart = oram
  size : des.size = bytes

variable {oramAddr ddrAddr size : Nat} {last : Bool}

/-- A small descriptor that may be the last one of its chain, for any size. -/
theorem decode_nodeMaylast (ddr : ddrAddr % 64 = 0 ∧ ddrAddr < 2 ^ 32) (oram : oramAddr < 2 ^ 26) :
    decode (aieNndmaNodeMaylast last oramAddr ddrAddr size) =
      ⟨if last then 0 else 1, ddrAddr / 64, oramAddr / 64, size64m1 size % 2 ^ 12⟩ := by
  have flag : (if last then 0 else 1) < 2 := by split <;> decide
  -- The link flag lies below the address, and the offset below the length.
  have first : (aieNndmaNodeMaylast last oramAddr ddrAddr size).1 =
      ddrAddr + if last then 0 else 1 :=
    NndmaRequest.or_low (k := 6) ddr.1 (by omega)
  have length := desWord1_length size oram
  have low : oramAddr >>> 6 < 2 ^ 20 := by
    rw [Nat.shiftRight_eq_div_pow]
    omega
  have second : (aieNndmaNodeMaylast last oramAddr ddrAddr size).2 % 2 ^ 20 = oramAddr / 64 := by
    show desWord1 oramAddr size % 2 ^ 20 = _
    rw [desWord1, NndmaRequest.or_low (k := 20) (by rw [Nat.shiftLeft_eq]; omega) low,
      Nat.shiftLeft_eq, Nat.shiftRight_eq_div_pow]
    omega
  rw [decode, first, second, NndmaDes.mk.injEq]
  -- No upper part of the length is written, so twelve bits of it are kept.
  refine ⟨by omega, by omega, rfl, ?_⟩
  show _ + desWord1 oramAddr size / 2 ^ 20 % 2 ^ 12 = _
  rw [length]
  omega

/-- Descriptors that all link to the next one. -/
def Linked (chain : List (Nat × Nat)) : Prop := ∀ des ∈ chain, (decode des).linkFlag = 1

/-- A chain: its last descriptor is the only one that does not link to the next one. -/
def Ends (chain : List (Nat × Nat)) : Prop :=
  ∃ front last, chain = front ++ [last] ∧ Linked front ∧ (decode last).linkFlag = 0

/-- Chains that link on may be joined. -/
theorem Linked.append {front back : List (Nat × Nat)} (first : Linked front) (second : Linked back) :
    Linked (front ++ back) := fun des member =>
  (List.mem_append.mp member).elim (first des) (second des)

/-- Linked descriptors lead into a chain. -/
theorem Linked.append_ends {front back : List (Nat × Nat)} (linked : Linked front)
    (ends : Ends back) : Ends (front ++ back) := by
  obtain ⟨more, last, rfl, also, unlinked⟩ := ends
  exact ⟨front ++ more, last, by rw [List.append_assoc], linked.append also, unlinked⟩

end NndmaDes

namespace NnaMmap

variable {nna : NnaMmap} {ptr n size : Nat}

/-- The on-chip memory is mapped in whole pages, and the DESRAM at an address of 32 bits. -/
structure Mapped (nna : NnaMmap) : Prop where
  oram : nna.oramVbase % 4096 = 0
  desram : nna.nndmaDesramVbase < 2 ^ 32

/-- A distance between two addresses of the shared memory is the same in the physical one. -/
theorem paddr_add (low : nna.Maps ptr) (high : nna.Maps (ptr + n)) :
    nna.aieGetDdrPaddr ((ptr + n) % 2 ^ 32) = nna.aieGetDdrPaddr ptr + n := by
  -- Both addresses are mapped with the same distance.
  have first := paddr_maps low
  have second := paddr_maps high
  have visible := nna.visible
  simp only [Maps] at low high
  rw [Nat.mod_eq_of_lt (by omega)]
  omega

/-- A distance between two places of the on-chip memory is the same for the hardware. -/
theorem offset_add (within : nna.InOram ptr size) (inside : n ≤ size) :
    nna.aieGetOramOffset ((ptr + n) % 2 ^ 32) = nna.aieGetOramOffset ptr + n ∧
      nna.aieGetOramOffset ptr + n < 2 ^ 26 := by
  -- The buffer lies below the end of the on-chip memory.
  have top := nna.oram
  have low := within.1
  have high := within.2
  simp only [oramSize, l2cSize] at top high
  simp only [aieGetOramOffset, l2cSize]
  rw [Nat.mod_eq_of_lt (a := ptr + n) (by omega)]
  omega

/-- A small descriptor for addresses that are some way behind the pointers of a plane. -/
theorem asks_node {orPtr m : Nat} (last : Bool) (bytes : Nat) (mapped : nna.Mapped)
    (start : nna.Maps ptr) (behind : nna.Maps (ptr + n)) (within : nna.InOram orPtr size)
    (inside : m ≤ size) (ddr : ptr % 64 = 0 ∧ n % 64 = 0)
    (oram : orPtr % 64 = 0 ∧ m % 64 = 0) :
    (NndmaDes.decode (aieNndmaNodeMaylast last (nna.aieGetOramOffset ((orPtr + m) % 2 ^ 32))
      (nna.aieGetDdrPaddr ((ptr + n) % 2 ^ 32)) bytes)).Asks last (nna.aieGetDdrPaddr ptr + n)
        (nna.aieGetOramOffset orPtr + m) (nodeBytes bytes) := by
  obtain ⟨offset, small⟩ := offset_add within inside
  have paddr := paddr_add start behind
  have first := paddr_aligned start ddr.1
  have range := paddr_maps behind
  have physical := nna.physical
  have pages := mapped.oram
  have low := within.1
  -- Units of 64 bytes survive both translations.
  have second : nna.aieGetOramOffset orPtr % 64 = 0 := by
    rw [aieGetOramOffset, l2cSize]
    omega
  have address : nna.aieGetDdrPaddr ptr + n < 2 ^ 32 := by
    rw [← paddr]
    exact Nat.mod_lt _ (by decide)
  rw [offset, paddr, NndmaDes.decode_nodeMaylast ⟨by omega, address⟩ small]
  refine ⟨rfl, ?_, ?_, rfl⟩
  · show (nna.aieGetDdrPaddr ptr + n) / 64 * 64 = _
    omega
  · show (nna.aieGetOramOffset orPtr + m) / 64 * 64 = _
    omega

end NnaMmap

end Aip
