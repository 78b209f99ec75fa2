import Aip.Nndma.Analysis
import Aip.Nndma.Start

/-! What the descriptors of a transfer into a ring move, and when that is what was asked for. -/

namespace Aip

/-- The fields that the hardware reads from a descriptor, the length as a number of units. -/
structure Descriptor where
  dPaAddr : Nat
  oramUnit : Nat
  units : Nat
  link : Bool
  deriving DecidableEq, Repr

namespace Descriptor

/-- The ORAM, whose units of 64 bytes the 14 bits of the field count. -/
def oramBase : Nat := 0x12600000

/-- A 32-bit address, 14 bits of a unit, 10 bits of a length minus one, and the link bit. -/
def decode (first second : UInt32) : Descriptor where
  dPaAddr := first.toNat
  oramUnit := second.toNat % 2 ^ 14
  units := second.toNat / 2 ^ 16 % 2 ^ 10 + 1
  link := second.toNat / 2 ^ 31 = 1

/-- The descriptors in a list of words. -/
def decodeAll : List UInt32 → List Descriptor
  | first :: second :: words => decode first second :: decodeAll words
  | _ => []

/-- The bytes that a descriptor moves, each as its places in the DDR and in the ORAM. -/
def moves (des : Descriptor) : List (Nat × Nat) :=
  (List.range (64 * des.units)).map fun i =>
    ((des.dPaAddr + i) % 2 ^ 32, oramBase + 64 * des.oramUnit + i)

end Descriptor

namespace NndmaCmdBuf

/-- A transfer between aligned addresses, of at most as many units as fit the ring in the ORAM. -/
structure Valid (memory : NndmaMemory) (cmd : NndmaCmdBuf) : Prop where
  ddr : (cmd.dPaStAddr memory).toNat % 64 = 0
  oram : (cmd.oPaStAddr memory).toNat % 64 = 0
  ring : (cmd.oMlcStAddr memory).toNat % 64 = 0
  some : 0 < cmd.dataBytes.toNat
  whole : cmd.dataBytes.toNat % 64 = 0
  fits : cmd.dataBytes.toNat ≤ cmd.oMlcBytes.toNat
  within : (cmd.oMlcStAddr memory).toNat ≤ (cmd.oPaStAddr memory).toNat ∧
    (cmd.oPaStAddr memory).toNat < (cmd.oMlcStAddr memory).toNat + cmd.oMlcBytes.toNat
  window : Descriptor.oramBase ≤ (cmd.oMlcStAddr memory).toNat ∧
    (cmd.oMlcStAddr memory).toNat + cmd.oMlcBytes.toNat ≤ Descriptor.oramBase + 2 ^ 20

/-- The bytes that a command asks for, in order. -/
def asked (memory : NndmaMemory) (cmd : NndmaCmdBuf) : List (Nat × Nat) :=
  (List.range cmd.dataBytes.toNat).map fun k =>
    (((cmd.dPaStAddr memory).toNat + k) % 2 ^ 32,
      (cmd.oMlcStAddr memory).toNat +
        ((cmd.oPaStAddr memory).toNat - (cmd.oMlcStAddr memory).toNat + k) % cmd.oMlcBytes.toNat)

/-- The descriptors of a command. -/
def descriptors (memory : NndmaMemory) (cmd : NndmaCmdBuf) : List Descriptor :=
  Descriptor.decodeAll (cmd.words memory)

/-- The descriptors move what was asked for, and all but the last one of the chain are linked. -/
structure Faithful (memory : NndmaMemory) (cmd : NndmaCmdBuf) : Prop where
  moves : (cmd.descriptors memory).flatMap Descriptor.moves = cmd.asked memory
  links : ∃ others, (cmd.descriptors memory).map Descriptor.link =
    List.replicate others true ++ [decide (cmd.desLink = 1)]

/-- The transfer stays in front of the end of the ring, or its parts meet that end inside a part. -/
def Clear (memory : NndmaMemory) (cmd : NndmaCmdBuf) : Prop :=
  let ahead := (cmd.oMlcStAddr memory).toNat + cmd.oMlcBytes.toNat -
    (cmd.oPaStAddr memory).toNat
  cmd.dataBytes.toNat ≤ ahead ∨ (ahead % 64 = 0 ∧ ahead % 65536 ≠ 0)

instance (memory : NndmaMemory) (cmd : NndmaCmdBuf) : Decidable (cmd.Clear memory) :=
  inferInstanceAs (Decidable (_ ∨ _))

end NndmaCmdBuf

namespace Descriptor

variable {first second : List UInt32} {d u l f : UInt32}

/-- The words of a descriptor are read back as its fields. -/
theorem decodeAll_desWords (d u l f : UInt32) : decodeAll (desWords d u l f) =
    [⟨d.toNat, u.toNat % 2 ^ 14, l.toNat % 2 ^ 10 + 1, f.toNat % 2 = 1⟩] := by
  have flag : f.toNat &&& 1 = f.toNat % 2 := Nat.and_two_pow_sub_one_eq_mod f.toNat 1
  have length : l.toNat &&& 0x3FF = l.toNat % 2 ^ 10 := Nat.and_two_pow_sub_one_eq_mod l.toNat 10
  have unit : u.toNat &&& 0x3FFF = u.toNat % 2 ^ 14 := Nat.and_two_pow_sub_one_eq_mod u.toNat 14
  -- The three fields of the second word do not overlap, so they are added.
  have word : ((f &&& 0x1) <<< 31 ||| (l &&& 0x3FF) <<< 16 ||| (u &&& 0x3FFF)).toNat =
      f.toNat % 2 * 2 ^ 31 + l.toNat % 2 ^ 10 * 2 ^ 16 + u.toNat % 2 ^ 14 := by
    have high : ((f &&& 0x1) <<< 31).toNat = f.toNat % 2 * 2 ^ 31 := by
      show (f.toNat &&& 1) <<< 31 % 2 ^ 32 = _
      rw [flag, Nat.shiftLeft_eq]
      omega
    have middle : ((l &&& 0x3FF) <<< 16).toNat = l.toNat % 2 ^ 10 * 2 ^ 16 := by
      show (l.toNat &&& 0x3FF) <<< 16 % 2 ^ 32 = _
      rw [length, Nat.shiftLeft_eq]
      omega
    have low : (u &&& 0x3FFF).toNat = u.toNat % 2 ^ 14 := unit
    have upper : f.toNat % 2 * 2 ^ 31 ||| l.toNat % 2 ^ 10 * 2 ^ 16 =
        f.toNat % 2 * 2 ^ 31 + l.toNat % 2 ^ 10 * 2 ^ 16 :=
      NndmaRequest.or_low (k := 31) (by omega) (by omega)
    rw [UInt32.toNat_or, UInt32.toNat_or, high, middle, low, upper]
    exact NndmaRequest.or_low (k := 16) (by omega) (by omega)
  simp only [desWords, decodeAll, decode, word]
  congr 2
  · omega
  · omega
  · rw [decide_eq_decide]
    omega

/-- Descriptors one after the other are read one after the other. -/
theorem decodeAll_append (d u l f : UInt32) (words : List UInt32) :
    decodeAll (desWords d u l f ++ words) = decodeAll (desWords d u l f) ++ decodeAll words := rfl

/-- A number of places from a pair of addresses on, the second one in a ring. -/
def along (start bytes d o n : Nat) : List (Nat × Nat) :=
  (List.range n).map fun k => ((d + k) % 2 ^ 32, start + (o - start + k) % bytes)

/-- Places may be passed in two parts, of which the second one goes on where the first one ends. -/
theorem along_append {start bytes d o d' o' m n : Nat} (ddr : d' = (d + m) % 2 ^ 32)
    (oram : (o' - start) % bytes = (o - start + m) % bytes) :
    along start bytes d o (m + n) = along start bytes d o m ++ along start bytes d' o' n := by
  rw [along, List.range_add, List.map_append, List.map_map]
  refine congrArg (along start bytes d o m ++ ·) (List.map_congr_left fun k _ => ?_)
  show ((d + (m + k)) % 2 ^ 32, start + (o - start + (m + k)) % bytes) = _
  rw [Prod.mk.injEq]
  refine ⟨by omega, congrArg (start + ·) ?_⟩
  -- Both sides are reduced before the rest of the way is added.
  rw [← Nat.add_assoc, Nat.add_mod, ← oram, ← Nat.add_mod]

/-- A descriptor in front of the end of the ring moves the places that follow one another. -/
theorem moves_along (start bytes : Nat) {d o unit units : Nat} {link : Bool} (low : start ≤ o)
    (high : o + 64 * units ≤ start + bytes) (place : oramBase + 64 * unit = o) :
    moves ⟨d, unit, units, link⟩ = along start bytes d o (64 * units) := by
  apply List.map_congr_left
  intro k member
  have below : k < 64 * units := List.mem_range.mp member
  rw [Prod.mk.injEq]
  refine ⟨rfl, ?_⟩
  -- The way from the start of the ring to the place is shorter than the ring.
  rw [Nat.mod_eq_of_lt (by omega : o - start + k < bytes), place]
  omega

end Descriptor

/-- A ring whose ends are in the ORAM, and whose start is aligned. -/
structure OramRing (oMlcStAddr oMlcEdAddr : UInt32) : Prop where
  aligned : oMlcStAddr.toNat % 64 = 0
  low : Descriptor.oramBase ≤ oMlcStAddr.toNat
  order : oMlcStAddr.toNat ≤ oMlcEdAddr.toNat
  high : oMlcEdAddr.toNat ≤ Descriptor.oramBase + 2 ^ 20

namespace DesCursor

open Descriptor

variable {st ed link : UInt32} {last : Bool} {cur : DesCursor}

/-- The end of a part does not wrap, so the comparison is one of numbers. -/
theorem ends_iff (ring : OramRing st ed) (within : cur.oPaStAddr.toNat ≤ ed.toNat)
    (small : (cur.transBytes last).toNat ≤ 65536) : cur.oPaStAddr + cur.transBytes last ≤ ed ↔
      cur.oPaStAddr.toNat + (cur.transBytes last).toNat ≤ ed.toNat := by
  have high := ring.high
  simp only [oramBase] at high
  rw [UInt32.le_iff_toNat_le, UInt32.toNat_add, Nat.mod_eq_of_lt (by omega)]

/-- The words of a part are one descriptor, or two. -/
theorem decodeAll_describe (cur : DesCursor) (words : List UInt32) :
    decodeAll ((cur.describe st ed link last).1 ++ words) =
      decodeAll (cur.describe st ed link last).1 ++ decodeAll words := by
  rw [describe]
  split <;> rfl

/-- Where the next part starts: behind this one, or as far behind the start as it was cut off. -/
theorem describe_next (link : UInt32) (ring : OramRing st ed) (within : cur.oPaStAddr.toNat ≤ ed.toNat)
    (small : (cur.transBytes last).toNat ≤ 65536) :
    (cur.describe st ed link last).2.dPaStAddr = cur.dPaStAddr + cur.transBytes last ∧
    (cur.describe st ed link last).2.bytesRemain = cur.bytesRemain - cur.transBytes last ∧
    (cur.describe st ed link last).2.oPaStAddr.toNat =
      if cur.oPaStAddr.toNat + (cur.transBytes last).toNat ≤ ed.toNat then
        cur.oPaStAddr.toNat + (cur.transBytes last).toNat
      else st.toNat + ((cur.transBytes last).toNat - (ed.toNat - cur.oPaStAddr.toNat)) := by
  have high := ring.high
  have order := ring.order
  simp only [oramBase] at high
  -- The part ends in front of the end of the ring, or it is cut there.
  by_cases ends : cur.oPaStAddr + cur.transBytes last ≤ ed
  · have number := (ends_iff ring within small).mp ends
    simp only [describe, if_pos ends, if_pos number, true_and]
    rw [UInt32.toNat_add]
    omega
  · have number := mt (ends_iff ring within small).mpr ends
    simp only [describe, if_neg ends, if_neg number, true_and]
    simp only [UInt32.toNat_add, UInt32.toNat_sub]
    omega

/-- The units that a length field has for a number of bytes: none at all are a full field. -/
def fieldUnits (bytes : Nat) : Nat := if bytes / 64 = 0 then 1024 else bytes / 64

/-- The units of a length field, which reads no units at all as a full field. -/
theorem length_units {n : UInt32} (small : n.toNat ≤ 65536) :
    (n / 64 - 1).toNat % 2 ^ 10 + 1 = fieldUnits n.toNat := by
  rw [UInt32.toNat_sub, UInt32.toNat_div, fieldUnits]
  show (2 ^ 32 - 1 + n.toNat / 64) % 2 ^ 32 % 2 ^ 10 + 1 = _
  split <;> omega

/-- The field of a unit leads back to an aligned address in the ORAM. -/
theorem unit_place {o : UInt32} (aligned : o.toNat % 64 = 0) (low : oramBase ≤ o.toNat)
    (high : o.toNat < oramBase + 2 ^ 20) :
    oramBase + 64 * ((o >>> 6).toNat % 2 ^ 14) = o.toNat := by
  have shift : (o >>> 6).toNat = o.toNat / 2 ^ 6 := by
    rw [UInt32.toNat_shiftRight]
    exact Nat.shiftRight_eq_div_pow o.toNat 6
  rw [shift]
  simp only [oramBase] at low high ⊢
  omega

/-- A part that ends in front of the ring's end is one descriptor. -/
theorem describe_one (link : UInt32) (ring : OramRing st ed)
    (within : cur.oPaStAddr.toNat ≤ ed.toNat) (small : (cur.transBytes last).toNat ≤ 65536)
    (ahead : cur.oPaStAddr.toNat + (cur.transBytes last).toNat ≤ ed.toNat) : ∃ flag,
      decodeAll (cur.describe st ed link last).1 =
        [⟨cur.dPaStAddr.toNat, (cur.oPaStAddr >>> 6).toNat % 2 ^ 14,
          fieldUnits (cur.transBytes last).toNat, flag⟩] := by
  have ends := (ends_iff ring within small).mpr ahead
  simp only [describe, if_pos ends, decodeAll_desWords, length_units small]
  exact ⟨_, rfl⟩

/-- A part that goes beyond the ring's end is two, one up to the end and one from the start on. -/
theorem describe_two (link : UInt32) (ring : OramRing st ed)
    (within : cur.oPaStAddr.toNat ≤ ed.toNat) (small : (cur.transBytes last).toNat ≤ 65536)
    (beyond : ¬ cur.oPaStAddr.toNat + (cur.transBytes last).toNat ≤ ed.toNat) : ∃ flag more,
      decodeAll (cur.describe st ed link last).1 =
        [⟨cur.dPaStAddr.toNat, (cur.oPaStAddr >>> 6).toNat % 2 ^ 14,
          fieldUnits (ed.toNat - cur.oPaStAddr.toNat), flag⟩,
        ⟨(cur.dPaStAddr.toNat + (ed.toNat - cur.oPaStAddr.toNat)) % 2 ^ 32,
          (st >>> 6).toNat % 2 ^ 14,
          fieldUnits ((cur.transBytes last).toNat - (ed.toNat - cur.oPaStAddr.toNat)), more⟩] := by
  have ends := mt (ends_iff ring within small).mp beyond
  -- Neither of the two differences wraps.
  have first : (ed - cur.oPaStAddr).toNat = ed.toNat - cur.oPaStAddr.toNat :=
    UInt32.toNat_sub_of_le _ _ (UInt32.le_iff_toNat_le.mpr within)
  have second : (cur.transBytes last - (ed - cur.oPaStAddr)).toNat =
      (cur.transBytes last).toNat - (ed.toNat - cur.oPaStAddr.toNat) := by
    rw [UInt32.toNat_sub_of_le _ _ (UInt32.le_iff_toNat_le.mpr (by omega)), first]
  have middle : (cur.dPaStAddr + (ed - cur.oPaStAddr)).toNat =
      (cur.dPaStAddr.toNat + (ed.toNat - cur.oPaStAddr.toNat)) % 2 ^ 32 := by
    rw [UInt32.toNat_add, first]
  have before := length_units (n := ed - cur.oPaStAddr) (by omega)
  have behind := length_units (n := cur.transBytes last - (ed - cur.oPaStAddr)) (by omega)
  rw [first] at before
  rw [second] at behind
  simp only [describe, if_neg ends, decodeAll_append, decodeAll_desWords, before, behind, middle]
  exact ⟨_, _, rfl⟩

/-- A part that ends in front of the ring's end, or is cut there between two units, moves its bytes. -/
theorem describe_moves (ring : OramRing st ed) (aligned : cur.oPaStAddr.toNat % 64 = 0)
    (low : st.toNat ≤ cur.oPaStAddr.toNat) (within : cur.oPaStAddr.toNat ≤ ed.toNat)
    (some : 0 < (cur.transBytes last).toNat) (small : (cur.transBytes last).toNat ≤ 65536)
    (whole : (cur.transBytes last).toNat % 64 = 0)
    (clear : cur.oPaStAddr.toNat + (cur.transBytes last).toNat ≤ ed.toNat ∨
      (cur.oPaStAddr.toNat < ed.toNat ∧ (ed.toNat - cur.oPaStAddr.toNat) % 64 = 0 ∧
        (cur.transBytes last).toNat ≤ ed.toNat - st.toNat)) :
    (decodeAll (cur.describe st ed link last).1).flatMap moves =
      along st.toNat (ed.toNat - st.toNat) cur.dPaStAddr.toNat cur.oPaStAddr.toNat
        (cur.transBytes last).toNat := by
  have bottom := ring.low
  have high := ring.high
  have place := unit_place aligned (by omega) (o := cur.oPaStAddr)
  by_cases number : cur.oPaStAddr.toNat + (cur.transBytes last).toNat ≤ ed.toNat
  · -- One descriptor moves all of it.
    obtain ⟨flag, one⟩ := describe_one link ring within small number
    have units : fieldUnits (cur.transBytes last).toNat = (cur.transBytes last).toNat / 64 :=
      if_neg (by omega)
    rw [one, units, List.flatMap_singleton,
      moves_along st.toNat (ed.toNat - st.toNat) low (by omega) (place (by omega)),
      Nat.mul_div_cancel' (Nat.dvd_of_mod_eq_zero whole)]
  · -- The first descriptor ends at the end of the ring, and the second one starts at its start.
    obtain ⟨ahead, cut, room⟩ := clear.resolve_left number
    obtain ⟨flag, more, two⟩ := describe_two link ring within small number
    have start := unit_place ring.aligned bottom (by omega)
    have before : fieldUnits (ed.toNat - cur.oPaStAddr.toNat) =
        (ed.toNat - cur.oPaStAddr.toNat) / 64 := if_neg (by omega)
    have behind : fieldUnits ((cur.transBytes last).toNat - (ed.toNat - cur.oPaStAddr.toNat)) =
        ((cur.transBytes last).toNat - (ed.toNat - cur.oPaStAddr.toNat)) / 64 := if_neg (by omega)
    rw [two, before, behind, List.flatMap_cons, List.flatMap_singleton,
      moves_along st.toNat (ed.toNat - st.toNat) low (by omega) (place (by omega)),
      moves_along st.toNat (ed.toNat - st.toNat) (Nat.le_refl _) (by omega) start]
    have parts : (cur.transBytes last).toNat = (ed.toNat - cur.oPaStAddr.toNat) +
        ((cur.transBytes last).toNat - (ed.toNat - cur.oPaStAddr.toNat)) := by omega
    rw [Nat.mul_div_cancel' (Nat.dvd_of_mod_eq_zero cut),
      Nat.mul_div_cancel' (Nat.dvd_of_mod_eq_zero (by omega))]
    conv_rhs => rw [parts]
    refine (along_append rfl ?_).symm
    have turn : cur.oPaStAddr.toNat - st.toNat + (ed.toNat - cur.oPaStAddr.toNat) =
        ed.toNat - st.toNat := by omega
    rw [turn, Nat.mod_self, Nat.sub_self, Nat.zero_mod]

/-- What a loop over parts has to find for the next part: its bytes, and those behind it. -/
theorem transBytes_toNat (parts : Nat) (cur : DesCursor) :
    (cur.transBytes (parts = 0)).toNat = if parts = 0 then cur.bytesRemain.toNat else 65536 := by
  rw [transBytes]
  by_cases one : parts = 0
  · simp [one]
  · simp [one]

/-- The bytes that a loop over parts has left are those of its parts. -/
def Holds (cur : DesCursor) (parts : Nat) : Prop :=
  65536 * parts < cur.bytesRemain.toNat ∧ cur.bytesRemain.toNat ≤ 65536 * (parts + 1)

/-- All parts but the last one are full, and the last one takes the rest. -/
theorem Holds.part {parts : Nat} (holds : cur.Holds parts) :
    0 < (cur.transBytes (parts = 0)).toNat ∧ (cur.transBytes (parts = 0)).toNat ≤ 65536 ∧
      (cur.transBytes (parts = 0)).toNat ≤ cur.bytesRemain.toNat := by
  have bytes := transBytes_toNat parts cur
  obtain ⟨many, few⟩ := holds
  split at bytes <;> omega

/-- A full part leaves its bytes to the parts behind it. -/
theorem Holds.next {parts : Nat} (holds : cur.Holds (parts + 1)) (link : UInt32) (ring : OramRing st ed)
    (within : cur.oPaStAddr.toNat ≤ ed.toNat) :
    (cur.describe st ed link (parts + 1 = 0)).2.Holds parts ∧
    (cur.describe st ed link (parts + 1 = 0)).2.bytesRemain.toNat =
      cur.bytesRemain.toNat - 65536 ∧
    (cur.describe st ed link (parts + 1 = 0)).2.dPaStAddr.toNat =
      (cur.dPaStAddr.toNat + 65536) % 2 ^ 32 ∧
    (cur.describe st ed link (parts + 1 = 0)).2.oPaStAddr.toNat =
      if cur.oPaStAddr.toNat + 65536 ≤ ed.toNat then cur.oPaStAddr.toNat + 65536
      else st.toNat + (65536 - (ed.toNat - cur.oPaStAddr.toNat)) := by
  have full : cur.transBytes (parts + 1 = 0) = 65536 := rfl
  have small : (cur.transBytes (parts + 1 = 0)).toNat ≤ 65536 := Nat.le_refl _
  obtain ⟨ddr, remain, oram⟩ := describe_next link ring within small
  obtain ⟨many, few⟩ := holds
  -- The subtraction does not wrap, since more than one part is left.
  have left : (cur.describe st ed link (parts + 1 = 0)).2.bytesRemain.toNat =
      cur.bytesRemain.toNat - 65536 := by
    rw [remain, full, UInt32.toNat_sub]
    show (2 ^ 32 - 65536 + cur.bytesRemain.toNat) % 2 ^ 32 = _
    have bound := cur.bytesRemain.toNat_lt
    omega
  refine ⟨⟨by omega, by omega⟩, left, ?_, oram⟩
  rw [ddr, full, UInt32.toNat_add]
  rfl

/-- A loop that meets the end of the ring inside a part, if at all, moves its bytes. -/
theorem describeLoop_moves (ring : OramRing st ed) (parts : Nat) (cur : DesCursor)
    (holds : cur.Holds parts) (aligned : cur.oPaStAddr.toNat % 64 = 0)
    (low : st.toNat ≤ cur.oPaStAddr.toNat) (within : cur.oPaStAddr.toNat ≤ ed.toNat)
    (whole : cur.bytesRemain.toNat % 64 = 0)
    (clear : cur.oPaStAddr.toNat + cur.bytesRemain.toNat ≤ ed.toNat ∨
      ((ed.toNat - cur.oPaStAddr.toNat) % 64 = 0 ∧
        (ed.toNat - cur.oPaStAddr.toNat) % 65536 ≠ 0 ∧
        cur.bytesRemain.toNat ≤ ed.toNat - st.toNat)) :
    (decodeAll (describeLoop st ed link cur (parts + 1))).flatMap moves =
      along st.toNat (ed.toNat - st.toNat) cur.dPaStAddr.toNat cur.oPaStAddr.toNat
        cur.bytesRemain.toNat := by
  -- The induction is on the parts behind the first one.
  induction parts generalizing cur with
  | zero =>
    obtain ⟨some, small, _⟩ := holds.part
    have all : (cur.transBytes (0 = 0)).toNat = cur.bytesRemain.toNat := transBytes_toNat 0 cur
    rw [describeLoop, decodeAll_describe, List.flatMap_append,
      describe_moves ring aligned low within some small (by omega) (by omega), all]
    exact List.append_nil _
  | succ parts ih =>
    obtain ⟨some, small, _⟩ := holds.part
    obtain ⟨rest, left, ddr, oram⟩ := holds.next link ring within
    have full : (cur.transBytes (parts + 1 = 0)).toNat = 65536 := transBytes_toNat (parts + 1) cur
    have order := ring.order
    have start := ring.aligned
    obtain ⟨many, few⟩ := holds
    rw [describeLoop, decodeAll_describe, List.flatMap_append,
      describe_moves ring aligned low within some small (by omega) (by omega), full]
    -- The other parts start inside the ring, and do not come to its end unless this one did not.
    have moved := ih (cur.describe st ed link (parts + 1 = 0)).2 rest (by split at oram <;> omega)
      (by split at oram <;> omega) (by split at oram <;> omega) (by omega)
      (by split at oram <;> omega)
    rw [moved, left]
    have total : cur.bytesRemain.toNat = 65536 + (cur.bytesRemain.toNat - 65536) := by omega
    conv_rhs => rw [total]
    refine (along_append ddr ?_).symm
    rw [oram]
    split
    · rw [Nat.sub_add_comm low]
    · have turn : cur.oPaStAddr.toNat - st.toNat + 65536 = (ed.toNat - st.toNat) +
          (st.toNat + (65536 - (ed.toNat - cur.oPaStAddr.toNat)) - st.toNat) := by omega
      rw [turn, Nat.add_mod_left]

/-- The number of bytes that the descriptors in a list of words move. -/
def movedBytes (words : List UInt32) : Nat :=
  ((decodeAll words).map fun des => 64 * des.units).sum

/-- A part moves its bytes when it ends in front of the ring's end, or is cut there between units. -/
theorem movedBytes_describe (link : UInt32) (ring : OramRing st ed)
    (within : cur.oPaStAddr.toNat ≤ ed.toNat)
    (some : 0 < (cur.transBytes last).toNat) (small : (cur.transBytes last).toNat ≤ 65536)
    (whole : (cur.transBytes last).toNat % 64 = 0) :
    movedBytes (cur.describe st ed link last).1 = (cur.transBytes last).toNat ↔
      cur.oPaStAddr.toNat + (cur.transBytes last).toNat ≤ ed.toNat ∨
        (cur.oPaStAddr.toNat < ed.toNat ∧ (ed.toNat - cur.oPaStAddr.toNat) % 64 = 0) := by
  have units : ∀ n : Nat, 64 * fieldUnits n = n ↔ 0 < n ∧ n % 64 = 0 ∨ n = 65536 := by
    intro n
    unfold fieldUnits
    split <;> omega
  by_cases number : cur.oPaStAddr.toNat + (cur.transBytes last).toNat ≤ ed.toNat
  · obtain ⟨flag, one⟩ := describe_one link ring within small number
    have all := (units _).mpr (Or.inl ⟨some, whole⟩)
    simp only [movedBytes, one, List.map_cons, List.map_nil, List.sum_cons, List.sum_nil, all,
      number, true_or, Nat.add_zero]
  · obtain ⟨flag, more, two⟩ := describe_two link ring within small number
    simp only [movedBytes, two, List.map_cons, List.map_nil, List.sum_cons, List.sum_nil, number,
      false_or, Nat.add_zero]
    -- Either half that is no whole number of units is rounded down, and none at all is a full field.
    unfold fieldUnits
    constructor
    · intro total
      split at total <;> split at total <;> omega
    · intro cut
      rw [if_neg (by omega), if_neg (by omega)]
      omega

/-- Words one after the other move their bytes together. -/
theorem movedBytes_loop (parts : Nat) (cur : DesCursor) :
    movedBytes (describeLoop st ed link cur (parts + 1)) =
      movedBytes (cur.describe st ed link (parts = 0)).1 +
        movedBytes (describeLoop st ed link (cur.describe st ed link (parts = 0)).2 parts) := by
  rw [describeLoop, movedBytes, decodeAll_describe, List.map_append, List.sum_append]
  rfl

/-- A loop that ends in front of the ring's end moves its number of bytes, at any address. -/
theorem movedBytes_ahead (link : UInt32) (ring : OramRing st ed) (parts : Nat) (cur : DesCursor)
    (holds : cur.Holds parts) (whole : cur.bytesRemain.toNat % 64 = 0)
    (ahead : cur.oPaStAddr.toNat + cur.bytesRemain.toNat ≤ ed.toNat) :
    movedBytes (describeLoop st ed link cur (parts + 1)) = cur.bytesRemain.toNat := by
  -- The induction is on the parts left; each ends in front of the end of the ring, so none is cut.
  induction parts generalizing cur with
  | zero =>
    obtain ⟨some, small, _⟩ := holds.part
    have all : (cur.transBytes (0 = 0)).toNat = cur.bytesRemain.toNat := transBytes_toNat 0 cur
    rw [movedBytes_loop, (movedBytes_describe link ring (by omega) some small (by omega)).mpr
      (.inl (by omega)), all]
    rfl
  | succ parts ih =>
    obtain ⟨some, small, _⟩ := holds.part
    obtain ⟨rest, left, _, oram⟩ := holds.next link ring (by omega)
    have full : (cur.transBytes (parts + 1 = 0)).toNat = 65536 := transBytes_toNat (parts + 1) cur
    obtain ⟨many, few⟩ := holds
    rw [movedBytes_loop, (movedBytes_describe link ring (by omega) some small (by omega)).mpr
      (.inl (by omega)), full, ih _ rest (by omega) (by split at oram <;> omega), left]
    omega

/-- A loop that comes to the ring's end between two parts, or inside a unit, moves another number. -/
theorem movedBytes_ne (link : UInt32) (ring : OramRing st ed) (parts : Nat) (cur : DesCursor)
    (holds : cur.Holds parts) (low : st.toNat ≤ cur.oPaStAddr.toNat)
    (within : cur.oPaStAddr.toNat ≤ ed.toNat) (whole : cur.bytesRemain.toNat % 64 = 0)
    (fits : cur.bytesRemain.toNat ≤ ed.toNat - st.toNat)
    (beyond : ed.toNat < cur.oPaStAddr.toNat + cur.bytesRemain.toNat)
    (blocked : (ed.toNat - cur.oPaStAddr.toNat) % 64 ≠ 0 ∨
      (ed.toNat - cur.oPaStAddr.toNat) % 65536 = 0) :
    movedBytes (describeLoop st ed link cur (parts + 1)) ≠ cur.bytesRemain.toNat := by
  -- The induction is on the parts behind the first one, up to the part that meets the end.
  induction parts generalizing cur with
  | zero =>
    obtain ⟨some, small, _⟩ := holds.part
    have all : (cur.transBytes (0 = 0)).toNat = cur.bytesRemain.toNat := transBytes_toNat 0 cur
    intro same
    rw [movedBytes_loop, ← all] at same
    have alone := (movedBytes_describe link ring within some small (by omega)).mp same
    omega
  | succ parts ih =>
    obtain ⟨some, small, _⟩ := holds.part
    obtain ⟨rest, left, _, oram⟩ := holds.next link ring within
    have full : (cur.transBytes (parts + 1 = 0)).toNat = 65536 := transBytes_toNat (parts + 1) cur
    have order := ring.order
    obtain ⟨many, few⟩ := holds
    rw [movedBytes_loop]
    by_cases ends : cur.oPaStAddr.toNat + 65536 ≤ ed.toNat
    · -- The part itself is in front of the end, and one behind it meets the end.
      rw [if_pos ends] at oram
      have first := (movedBytes_describe link ring within some small (by omega)).mpr
        (.inl (by omega))
      have later := ih (cur.describe st ed link (parts + 1 = 0)).2 rest (by omega) (by omega)
        (by omega) (by omega) (by omega) (by omega)
      omega
    · -- The part is cut in the wrong place, and the others behind it are in front of the end.
      rw [if_neg ends] at oram
      have first := mt (movedBytes_describe link ring within some small (by omega)).mp
        (by omega)
      have later := movedBytes_ahead link ring parts
        (cur.describe st ed link (parts + 1 = 0)).2 rest (by omega) (by omega)
      omega

/-- All descriptors of a part are linked, except that the last part ends as the command says. -/
theorem links_describe (st ed link : UInt32) (last : Bool) (cur : DesCursor) : ∃ others,
    (decodeAll (cur.describe st ed link last).1).map Descriptor.link =
      List.replicate others true ++ [decide (last = false ∨ link = 1)] := by
  have flag : decide ((if last = false ∨ link = 1 then (1 : UInt32) else 0).toNat % 2 = 1) =
      decide (last = false ∨ link = 1) := by
    rw [decide_eq_decide]
    split <;> simp [*]
  rw [describe]
  split
  · refine ⟨0, ?_⟩
    simp only [decodeAll_desWords, List.map_cons, List.map_nil, flag]
    rfl
  · refine ⟨1, ?_⟩
    simp only [decodeAll_append, decodeAll_desWords, List.map_append, List.map_cons, List.map_nil,
      flag]
    rfl

/-- All descriptors of a loop are linked, except that the last one ends as the command says. -/
theorem links_loop (parts : Nat) (cur : DesCursor) : ∃ others,
    (decodeAll (describeLoop st ed link cur (parts + 1))).map Descriptor.link =
      List.replicate others true ++ [decide (link = 1)] := by
  induction parts generalizing cur with
  | zero =>
    obtain ⟨others, same⟩ := links_describe st ed link true cur
    refine ⟨others, ?_⟩
    rw [describeLoop, decodeAll_describe, List.map_append]
    simpa [describeLoop, decodeAll] using same
  | succ parts ih =>
    obtain ⟨first, same⟩ := links_describe st ed link false cur
    obtain ⟨others, rest⟩ := ih (cur.describe st ed link false).2
    refine ⟨first + 1 + others, ?_⟩
    rw [describeLoop, decodeAll_describe, List.map_append]
    simp only [Nat.add_eq_zero_iff, Nat.one_ne_zero, and_false, decide_false, same, rest]
    simp [List.replicate_add]

end DesCursor

namespace NndmaCmdBuf

open Descriptor DesCursor

variable {memory : NndmaMemory} {cmd : NndmaCmdBuf}

/-- A valid command has a ring in the ORAM. -/
theorem Valid.oramRing (valid : cmd.Valid memory) :
    OramRing (cmd.oMlcStAddr memory) (cmd.oMlcEdAddr memory) ∧
      (cmd.oMlcEdAddr memory).toNat = (cmd.oMlcStAddr memory).toNat + cmd.oMlcBytes.toNat := by
  have window := valid.window
  simp only [oramBase] at window
  -- The end of the ring does not wrap.
  have stop : (cmd.oMlcEdAddr memory).toNat =
      (cmd.oMlcStAddr memory).toNat + cmd.oMlcBytes.toNat := by
    rw [oMlcEdAddr, UInt32.toNat_add]
    omega
  exact ⟨⟨valid.ring, valid.window.1, by omega, stop ▸ valid.window.2⟩, stop⟩

/-- The parts of a valid command hold its bytes. -/
theorem Valid.parts (valid : cmd.Valid memory) : ∃ parts, cmd.c64kNum.toNat = parts + 1 ∧
    (cmd.cursor memory).Holds parts := by
  have some := valid.some
  have bound := cmd.dataBytes.toNat_lt
  refine ⟨(cmd.dataBytes.toNat - 1) / 65536, ?_, ?_⟩
  · -- One less before the shift and one more behind it round the number of parts up.
    have shift : ((cmd.dataBytes - 1) >>> 16).toNat = (cmd.dataBytes - 1).toNat / 2 ^ 16 := by
      rw [UInt32.toNat_shiftRight]
      exact Nat.shiftRight_eq_div_pow _ 16
    have less : (cmd.dataBytes - 1).toNat = cmd.dataBytes.toNat - 1 := by
      rw [UInt32.toNat_sub]
      show (2 ^ 32 - 1 + cmd.dataBytes.toNat) % 2 ^ 32 = _
      omega
    rw [c64kNum, UInt32.toNat_add, shift, less]
    show ((cmd.dataBytes.toNat - 1) / 2 ^ 16 + 1) % 2 ^ 32 = _
    omega
  · constructor
    · show 65536 * ((cmd.dataBytes.toNat - 1) / 65536) < cmd.dataBytes.toNat
      omega
    · show cmd.dataBytes.toNat ≤ 65536 * ((cmd.dataBytes.toNat - 1) / 65536 + 1)
      omega

/--
The descriptors of a transfer between aligned addresses move the bytes that were asked for, with
the links of a chain, exactly when the transfer is clear of the end of the ring or meets it inside
a part of 64 KiB and between two units.
-/
theorem faithful_iff_clear (memory : NndmaMemory) (cmd : NndmaCmdBuf) (valid : cmd.Valid memory) :
    cmd.Faithful memory ↔ cmd.Clear memory := by
  obtain ⟨ring, stop⟩ := valid.oramRing
  obtain ⟨parts, count, holds⟩ := valid.parts
  obtain ⟨low, within⟩ := valid.within
  have fits := valid.fits
  have whole := valid.whole
  have words : cmd.descriptors memory = decodeAll (describeLoop (cmd.oMlcStAddr memory)
      (cmd.oMlcEdAddr memory) cmd.desLink (cmd.cursor memory) (parts + 1)) := by
    rw [descriptors, NndmaCmdBuf.words, count]
  have bytes : cmd.oMlcBytes.toNat =
      (cmd.oMlcEdAddr memory).toNat - (cmd.oMlcStAddr memory).toNat := by omega
  have start : (cmd.cursor memory).oPaStAddr = cmd.oPaStAddr memory := rfl
  have remain : (cmd.cursor memory).bytesRemain = cmd.dataBytes := rfl
  constructor
  · intro faithful
    by_contra blocked
    simp only [Clear, not_or, not_and_or, not_not] at blocked
    -- The number of bytes moved is another one than was asked for.
    refine movedBytes_ne cmd.desLink ring parts (cmd.cursor memory) holds low (by rw [start]; omega)
      whole (by rw [remain]; omega) (by rw [start, remain]; omega) (by rw [start]; omega) ?_
    have moves := congrArg List.length faithful.moves
    rw [words, List.length_flatMap] at moves
    rw [remain, movedBytes]
    simpa [Descriptor.moves, asked] using moves
  · intro clear
    simp only [Clear] at clear
    constructor
    · rw [words, describeLoop_moves ring parts (cmd.cursor memory) holds valid.oram low
        (by rw [start]; omega) whole (by rw [start, remain]; omega), ← bytes]
      rfl
    · rw [words]
      exact links_loop parts (cmd.cursor memory)

/-- A command of a number of bytes whose ring is the first half of the ORAM. -/
def halfOram (offset dataBytes : UInt32) : NndmaCmdBuf where
  dVaStAddr := 0x60000000
  oVaStAddr := 0x50100000 + offset
  oVaMlcAddr := 0x50100000
  oMlcBytes := 0x80000
  dataBytes := dataBytes
  desLink := 0

/-- The memories as they are mapped in the example. -/
def mapped : NndmaMemory := ⟨0x50000000, 0x12500000, 0x60000000, 0x0e000000⟩

/-- A command for 96 KiB that starts 64 bytes in front of the end of the ring is valid and clear. -/
theorem faithful_iff_clear_turns : (halfOram 0x7FFC0 0x18000).Valid mapped ∧
    (halfOram 0x7FFC0 0x18000).Faithful mapped := by
  have valid : (halfOram 0x7FFC0 0x18000).Valid mapped := by
    constructor <;> decide
  exact ⟨valid, (faithful_iff_clear mapped (halfOram 0x7FFC0 0x18000) valid).mpr (by decide)⟩

/-- A second part that starts at the end of the ring begins with a descriptor of 64 KiB too many. -/
theorem faithful_overruns : (halfOram 0x70000 0x10040).Valid mapped ∧
    ¬ (halfOram 0x70000 0x10040).Faithful mapped ∧
    (halfOram 0x70000 0x10040).descriptors mapped =
      [⟨0x0e000000, 0x1C00, 1024, true⟩, ⟨0x0e010000, 0x2000, 1024, true⟩,
        ⟨0x0e010000, 0, 1, false⟩] := by
  have read : (halfOram 0x70000 0x10040).descriptors mapped =
      [⟨0x0e000000, 0x1C00, 1024, true⟩, ⟨0x0e010000, 0x2000, 1024, true⟩,
        ⟨0x0e010000, 0, 1, false⟩] := by decide
  refine ⟨by constructor <;> decide, fun faithful => ?_, read⟩
  -- 128 KiB and 64 bytes are moved, where 64 KiB and 64 bytes were asked for.
  have moves := congrArg List.length faithful.moves
  rw [read] at moves
  simp [Descriptor.moves, asked, halfOram] at moves

end NndmaCmdBuf

end Aip
