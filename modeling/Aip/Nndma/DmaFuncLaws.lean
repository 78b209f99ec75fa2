import Aip.Nndma.DmaFunc
import Aip.Nndma.Start

/-! What the descriptors of `dma_func.c` name, and what its passes flush. -/

namespace Aip

/-- The bytes that a small descriptor names for a size: its field counts up to `2 ^ 12` units. -/
def nodeBytes (size : Nat) : Nat := (size64m1 size % 2 ^ 12 + 1) * 64

/-- The bytes that a big descriptor names for a size: its field counts up to `2 ^ 17` units. -/
def bignodeBytes (size : Nat) : Nat := (size64m1 size % 2 ^ 17 + 1) * 64

variable {nna : NnaMmap} {oramAddr ddrAddr size ptr v x : Nat} {last : Bool}

/-- The units of a size that is a multiple of them, less one; none at all wraps around. -/
theorem size64m1_eq (small : size < 2 ^ 32) :
    size64m1 size = if size < 64 then 2 ^ 32 - 1 else size / 64 - 1 := by
  rw [size64m1]
  split <;> omega

/-- A small descriptor names what it is given, or all that it can when it is given nothing. -/
theorem nodeBytes_eq (aligned : size % 64 = 0) (small : size ≤ 2 ^ 18) :
    nodeBytes size = if size = 0 then 2 ^ 18 else size := by
  rw [nodeBytes, size64m1_eq (by omega)]
  split <;> split <;> omega

/-- A small descriptor never names more than it is given, unless it is given nothing. -/
theorem nodeBytes_le (aligned : size % 64 = 0) (some : 0 < size) (small : size < 2 ^ 32) :
    nodeBytes size ≤ size := by
  rw [nodeBytes, size64m1_eq small, if_neg (by omega)]
  omega

/-- A descriptor names something. -/
theorem nodeBytes_pos (size : Nat) : 0 < nodeBytes size := by
  rw [nodeBytes]
  omega

/-- A big descriptor names what it is given, or all that it can when it is given nothing. -/
theorem bignodeBytes_eq (aligned : size % 64 = 0) (small : size ≤ 2 ^ 23) :
    bignodeBytes size = if size = 0 then 2 ^ 23 else size := by
  rw [bignodeBytes, size64m1_eq (by omega)]
  split <;> split <;> omega

/-- The length field of the second word. -/
theorem desWord1_length (size : Nat) (within : oramAddr < 2 ^ 26) :
    desWord1 oramAddr size / 2 ^ 20 % 2 ^ 12 = size64m1 size % 2 ^ 12 := by
  -- The shifted offset stays below the field, so that the two parts are added.
  have low : oramAddr >>> 6 < 2 ^ 20 := by
    rw [Nat.shiftRight_eq_div_pow]
    omega
  rw [desWord1, NndmaRequest.or_low (k := 20) (by rw [Nat.shiftLeft_eq]; omega) low,
    Nat.shiftLeft_eq]
  omega

/-- The upper part of the length, in its place. -/
theorem length_high (n : Nat) : n >>> 11 &&& 0x3E = n / 2 ^ 12 % 2 ^ 5 * 2 := by
  have half : (n >>> 11 &&& 0x3E) / 2 = n / 2 ^ 12 % 2 ^ 5 := by
    rw [Nat.and_div_two, Nat.shiftRight_eq_div_pow, Nat.div_div_eq_div_mul]
    exact Nat.and_two_pow_sub_one_eq_mod (n / 2 ^ 12) 5
  have even : (n >>> 11 &&& 0x3E) % 2 = 0 := by
    rw [show (2 : Nat) = 2 ^ 1 from rfl, Nat.and_mod_two_pow]
    simp
  omega

/-- A small descriptor that may be the last one of its chain. -/
theorem bytes_nodeMaylast (aligned : ddrAddr % 64 = 0) (within : oramAddr < 2 ^ 26) :
    nndmaDesBytes (aieNndmaNodeMaylast last oramAddr ddrAddr size) =
      ⟨ddrAddr, nodeBytes size⟩ := by
  rw [nndmaDesBytes, aieNndmaNodeMaylast, desWord1_length _ within, nodeBytes,
    NndmaRequest.or_low (k := 6) aligned (by split <;> omega)]
  -- The link bit lies below the fields of the first word.
  rw [Region.mk.injEq]
  constructor
  · split <;> omega
  · split <;> omega

/-- The encoder inside a chain is the other one with the link set. -/
theorem node_linked (oramAddr ddrAddr size : Nat) :
    aieNndmaNode oramAddr ddrAddr size = aieNndmaNodeMaylast false oramAddr ddrAddr size := by
  simp [aieNndmaNode, aieNndmaNodeMaylast]

/-- A small descriptor inside a chain. -/
theorem bytes_node (aligned : ddrAddr % 64 = 0) (within : oramAddr < 2 ^ 26) :
    nndmaDesBytes (aieNndmaNode oramAddr ddrAddr size) = ⟨ddrAddr, nodeBytes size⟩ := by
  rw [node_linked, bytes_nodeMaylast aligned within]

/-- A big descriptor. -/
theorem bytes_bignode (aligned : ddrAddr % 64 = 0) (within : oramAddr < 2 ^ 26) :
    nndmaDesBytes (aieNndmaBignodeMaylast last oramAddr ddrAddr size) =
      ⟨ddrAddr, bignodeBytes size⟩ := by
  obtain ⟨link, small, eq⟩ : ∃ link < 2, (if last then 0 else 1) = link := by
    refine ⟨_, ?_, rfl⟩
    split <;> omega
  -- The link bit and the upper part of the length lie below the address.
  have first : (aieNndmaBignodeMaylast last oramAddr ddrAddr size).1 =
      ddrAddr + (size64m1 size / 2 ^ 12 % 2 ^ 5 * 2 + link) := by
    rw [aieNndmaBignodeMaylast, length_high, eq, Nat.or_assoc,
      NndmaRequest.or_low (k := 1) (by omega) small,
      NndmaRequest.or_low (k := 6) aligned (by omega)]
  have second := desWord1_length size within
  rw [nndmaDesBytes, first, bignodeBytes, Region.mk.injEq]
  refine ⟨by omega, ?_⟩
  -- The length is read back from its two parts.
  have high : (ddrAddr + (size64m1 size / 2 ^ 12 % 2 ^ 5 * 2 + link)) / 2 % 2 ^ 5 =
      size64m1 size / 2 ^ 12 % 2 ^ 5 := by omega
  show (_ / 2 % 2 ^ 5 * 2 ^ 12 + desWord1 oramAddr size / 2 ^ 20 % 2 ^ 12 + 1) * 64 = _
  rw [high, second]
  omega

namespace NnaMmap

/-- An address of the shared memory. -/
def Maps (nna : NnaMmap) (v : Nat) : Prop :=
  nna.ddrVbase ≤ v ∧ v < nna.ddrVbase + nna.ddrMemSize

/-- A stretch of the shared memory. -/
def Holds (nna : NnaMmap) (ptr size : Nat) : Prop :=
  nna.ddrVbase ≤ ptr ∧ ptr + size ≤ nna.ddrVbase + nna.ddrMemSize

/-- A stretch of the on-chip memory. -/
def InOram (nna : NnaMmap) (ptr size : Nat) : Prop :=
  nna.oramVbase ≤ ptr ∧ ptr + size ≤ nna.oramVbase + oramSize

instance (nna : NnaMmap) (v : Nat) : Decidable (nna.Maps v) := inferInstanceAs (Decidable (_ ∧ _))

instance (nna : NnaMmap) (ptr size : Nat) : Decidable (nna.Holds ptr size) :=
  inferInstanceAs (Decidable (_ ∧ _))

instance (nna : NnaMmap) (ptr size : Nat) : Decidable (nna.InOram ptr size) :=
  inferInstanceAs (Decidable (_ ∧ _))

/-- A stretch of the on-chip memory begins in it. -/
theorem InOram.start (within : nna.InOram ptr size) : nna.InOram ptr 0 :=
  ⟨within.1, (Nat.add_le_add_left (Nat.zero_le _) _).trans within.2⟩

/-- The physical address of an address in the shared memory. -/
theorem paddr_maps (maps : nna.Maps v) :
    nna.aieGetDdrPaddr v + nna.ddrVbase = v + nna.ddrPbase := by
  have visible := nna.visible
  have physical := nna.physical
  simp only [Maps] at maps
  rw [aieGetDdrPaddr]
  omega

/-- The physical address has the alignment of the one that the program sees. -/
theorem paddr_aligned (maps : nna.Maps v) (aligned : v % 64 = 0) :
    nna.aieGetDdrPaddr v % 64 = 0 := by
  have pages := nna.pages
  have same := paddr_maps maps
  omega

/-- The addresses behind a physical one, counted as the program sees them. -/
theorem holds_paddr (maps : nna.Maps ptr) : (⟨nna.aieGetDdrPaddr ptr, size⟩ : Region).Holds x ↔
    ∃ v, (⟨ptr, size⟩ : Region).Holds v ∧ x + nna.ddrVbase = v + nna.ddrPbase := by
  have same := paddr_maps maps
  have low := maps.1
  simp only [Region.Holds]
  constructor
  · intro holds
    exact ⟨x + nna.ddrVbase - nna.ddrPbase, by omega, by omega⟩
  · rintro ⟨v, holds, eq⟩
    omega

/-- The offset of an address in the on-chip memory is in range. -/
theorem offset_small (within : nna.InOram ptr 0) : nna.aieGetOramOffset ptr < 2 ^ 26 := by
  have low : ptr ≤ nna.oramVbase + 917504 := by
    have := within.2
    simp only [oramSize, l2cSize] at this
    omega
  have high := within.1
  rw [aieGetOramOffset, l2cSize]
  omega

end NnaMmap

namespace DmaSetup

open Region

variable {s t : DmaSetup} {held r : Region} {rs : List Region} {next ahead : Option Nat}

/-- A byte that one of the descriptors names, by its physical address. -/
def Names (s : DmaSetup) (x : Nat) : Prop := Covers (s.des.map nndmaDesBytes) x

instance (s : DmaSetup) (x : Nat) : Decidable (s.Names x) :=
  inferInstanceAs (Decidable (Covers _ _))

/-- Every byte that a descriptor names is one of the shared memory, in a stretch that is flushed. -/
def Flushed (nna : NnaMmap) (s : DmaSetup) : Prop :=
  ∀ x, s.Names x → ∃ v, nna.Maps v ∧ nna.aieGetDdrPaddr v = x ∧ Covers s.flushed v

/-- The bytes named, counted as the program sees them, decide whether all of them are flushed. -/
theorem flushed_iff (named : Nat → Prop)
    (names : ∀ x, s.Names x ↔ ∃ v, named v ∧ x + nna.ddrVbase = v + nna.ddrPbase)
    (above : ∀ v, named v → nna.ddrVbase ≤ v) :
    s.Flushed nna ↔ ∀ v, named v → nna.Maps v ∧ Covers s.flushed v := by
  constructor
  · -- The mapping can be undone, so the program address behind a named one is unique.
    intro flushed v is
    have start := above v is
    obtain ⟨w, maps, same, covers⟩ := flushed (v + nna.ddrPbase - nna.ddrVbase)
      ((names _).mpr ⟨v, is, by omega⟩)
    have back := NnaMmap.paddr_maps maps
    obtain rfl : w = v := by omega
    exact ⟨maps, covers⟩
  · intro all x is
    obtain ⟨v, named, same⟩ := (names x).mp is
    obtain ⟨maps, covers⟩ := all v named
    have back := NnaMmap.paddr_maps maps
    exact ⟨v, maps, by omega, covers⟩

/-- What the variables hold of the blocks gathered in front of those that are left. -/
structure Gathered (s : DmaSetup) (held : Region) (rs : List Region) : Prop where
  size : s.totalSize = held.size
  start : 0 < held.size → s.startFlushDdrPtr = held.start ∧ held.start ≠ 0 ∧ s.ddrLinked ≠ 0 ∧
    ∀ r ∈ rs.head?, r.start = held.start + held.size
  fresh : held.size = 0 → s.startFlushDdrPtr = 0 ∨ ∀ r ∈ rs.head?, s.startFlushDdrPtr = r.start

/-- Nothing is gathered. -/
def Fresh (s : DmaSetup) : Prop := s.totalSize = 0 ∧ s.startFlushDdrPtr = 0

theorem Fresh.gathered (fresh : s.Fresh) (rs : List Region) : s.Gathered ⟨0, 0⟩ rs :=
  ⟨fresh.1, fun some => absurd some (Nat.lt_irrefl 0), fun _ => Or.inl fresh.2⟩

/-- The blocks are addresses that 32 bits hold, and none of them is `NULL`. -/
def Addressed (rs : List Region) : Prop := ∀ r ∈ rs, 0 < r.start ∧ r.start < 2 ^ 32 ∧
  r.start + r.size ≤ 2 ^ 32 ∧ r.size < 2 ^ 32

/-- The test for the next block is that it starts where this one ends. -/
theorem linked_iff {next : Region} (here : 0 < r.start ∧ r.start + r.size ≤ 2 ^ 32)
    (there : 0 < next.start ∧ next.start < 2 ^ 32) :
    linked (some next.start) r.start r.size ↔ next.start = r.start + r.size := by
  show ((next.start : Int) - r.start - r.size) % 2 ^ 32 ≤ 0 ↔ _
  omega

@[simp] theorem des_ddrFlushCache (s : DmaSetup) (next : Option Nat) (ptr size : Nat) :
    (s.ddrFlushCache next ptr size).des = s.des := by
  rw [ddrFlushCache]
  split
  · rfl
  · split <;> rfl

@[simp] theorem flushed_push (s : DmaSetup) (des : Nat × Nat) :
    (s.push des).flushed = s.flushed := rfl

theorem Gathered.push (gathered : s.Gathered held rs) (des : Nat × Nat) :
    (s.push des).Gathered held rs :=
  ⟨gathered.size, gathered.start, gathered.fresh⟩

theorem names_push (des : Nat × Nat) (x : Nat) :
    (s.push des).Names x ↔ s.Names x ∨ (nndmaDesBytes des).Holds x := by
  simp [Names, push, covers_append, covers_cons, covers_nil]

/-- A list of descriptors is written. -/
theorem names_pushes (des : List (Nat × Nat)) (x : Nat) :
    (des.foldl push s).Names x ↔ s.Names x ∨ ∃ d ∈ des, (nndmaDesBytes d).Holds x := by
  induction des generalizing s with
  | nil => simp
  | cons d rest ih =>
    rw [List.foldl_cons, ih, names_push, or_assoc]
    simp

/-- A list of descriptors flushes nothing. -/
theorem flushed_pushes (des : List (Nat × Nat)) : (des.foldl push s).flushed = s.flushed := by
  induction des generalizing s with
  | nil => rfl
  | cons d rest ih => exact ih

/-- Flushing names nothing. -/
theorem names_ddrFlushCache (flushes : Bool) (next : Option Nat) (ptr size x : Nat) :
    (if flushes then s.ddrFlushCache next ptr size else s).Names x ↔ s.Names x := by
  split
  · rw [Names, des_ddrFlushCache]
    rfl
  · rfl

/-- A block that is not linked ends what has been gathered, or it is flushed alone. -/
theorem Gathered.unlinked (gathered : s.Gathered held (r :: rs))
    (apart : ¬ linked next r.start r.size) :
    (s.ddrFlushCache next r.start r.size).flushed =
        s.flushed ++ [if 0 < held.size then held else r] ∧
      (s.ddrFlushCache next r.start r.size).Fresh := by
  rw [ddrFlushCache, if_neg apart]
  by_cases some : 0 < held.size
  · obtain ⟨pointer, present, linked, _⟩ := gathered.start some
    have total := gathered.size
    rw [if_pos ⟨linked, by omega, by omega⟩, if_pos some, pointer, total]
    exact ⟨rfl, rfl, rfl⟩
  · have total := gathered.size
    rw [if_neg (by rintro ⟨_, _, more⟩; omega), if_neg some]
    exact ⟨rfl, rfl, rfl⟩

/-- A block that is linked is gathered. -/
theorem Gathered.joins {next : Region} (gathered : s.Gathered held (r :: next :: rs))
    (addressed : Addressed (r :: next :: rs)) (joined : next.start = r.start + r.size)
    (passed : linked ahead r.start r.size) :
    (s.ddrFlushCache ahead r.start r.size).flushed = s.flushed ∧
      (s.ddrFlushCache ahead r.start r.size).Gathered
        ⟨if 0 < held.size then held.start else r.start, held.size + r.size⟩ (next :: rs) := by
  obtain ⟨total, start, fresh⟩ := gathered
  obtain ⟨positive, _, inside, _⟩ := addressed r (by simp)
  obtain ⟨_, behind, _⟩ := addressed next (by simp)
  rw [ddrFlushCache, if_pos passed]
  refine ⟨rfl, ?_, ?_, ?_⟩
  · -- All that is gathered ends in front of the next block, so the sum does not wrap around.
    simp only [total]
    by_cases some : 0 < held.size
    · have meets := (start some).2.2.2 r (by simp)
      omega
    · omega
  · intro more
    by_cases some : 0 < held.size
    · obtain ⟨pointer, present, linked, meets⟩ := start some
      have meets := meets r (by simp)
      simp only [pointer, if_pos some, if_neg present]
      refine ⟨trivial, present, by decide, ?_⟩
      intro found is
      obtain rfl : next = found := by simpa using is
      omega
    · have pointer := fresh (by omega)
      simp only [if_neg some]
      refine ⟨?_, by omega, by decide, ?_⟩
      · split
        · rfl
        · simpa [*] using pointer
      · intro found is
        obtain rfl : next = found := by simpa using is
        omega
  · intro none
    have pointer := fresh (by simp only at none; omega)
    apply Or.inr
    intro found is
    obtain rfl : next = found := by simpa using is
    simp only at none ⊢
    have same : s.startFlushDdrPtr = 0 ∨ s.startFlushDdrPtr = r.start := by simpa using pointer
    split <;> omega

/-- One step of a pass gathers the block at hand, or it flushes and starts again. -/
theorem Gathered.step (gathered : s.Gathered held (r :: rs)) (addressed : Addressed (r :: rs)) :
    ∃ later, (s.ddrFlushCache (rs.head?.map (·.start)) r.start r.size).Gathered later rs ∧
      s.flushed ++ gather held (r :: rs) =
        (s.ddrFlushCache (rs.head?.map (·.start)) r.start r.size).flushed ++ gather later rs ∧
      (rs = [] → (s.ddrFlushCache (rs.head?.map (·.start)) r.start r.size).Fresh) := by
  have here := addressed r (by simp)
  cases rs with
  | nil =>
    obtain ⟨sent, fresh⟩ := gathered.unlinked (fun passed : linked none r.start r.size => passed)
    exact ⟨⟨0, 0⟩, fresh.gathered [], by simp [sent, gather], fun _ => fresh⟩
  | cons next rest =>
    have there := addressed next (by simp)
    have test : linked (some next.start) r.start r.size ↔ next.start = r.start + r.size :=
      linked_iff ⟨here.1, here.2.2.1⟩ ⟨there.1, there.2.1⟩
    -- The test on 32 bits is the equality of addresses, since no block wraps around.
    by_cases joined : next.start = r.start + r.size
    · obtain ⟨sent, later⟩ := gathered.joins addressed joined (test.mpr joined)
      refine ⟨_, later, ?_, by simp⟩
      rw [List.head?_cons, Option.map_some, sent, gather, if_pos joined]
    · obtain ⟨sent, fresh⟩ := gathered.unlinked (mt test.mp joined)
      refine ⟨⟨0, 0⟩, fresh.gathered _, ?_, by simp⟩
      rw [List.head?_cons, Option.map_some, sent, gather, if_neg joined, List.append_assoc]
      rfl

end DmaSetup

end Aip
