import Aip.Memory.HeapDealloc
import Aip.Memory.HeapTiling
import Mathlib.Data.Nat.Prime.Basic

/-! What an allocation hands out when its arithmetic on 32 bits may wrap. -/

namespace Aip

open Blocks Tiling Bufunit

/-- The bytes that the caller asks for, before any arithmetic on them wraps. -/
def HeapCall.wanted : HeapCall → Nat
  | .alignAlloc _ size _ => size.toNat
  | .alloc nbytes _ => nbytes.toNat
  | .calloc size n _ => size.toNat * n.toNat
  | .dealloc _ => 0

namespace HeapUse

/-- Some bytes at an aligned address are bytes of the heap. -/
structure Within (mem : HeapMem) (addr size alignsize : Nat) : Prop where
  low : mem.heap + 4 ≤ addr
  high : addr + size ≤ mem.heap + mem.size
  aligned : addr % alignsize = 0

/-- The call has put one unit into use, at the address and with at least so many bytes. -/
def HandsOut (use after : HeapUse) (addr size : Nat) : Prop :=
  ∃ u, (busyUnits after.alloc.units).Perm (u :: busyUnits use.alloc.units) ∧ u.vaddr = addr ∧
    size ≤ u.length - u.offset

/--
What is handed out is an aligned block of the heap, from `Local_Calloc` one of as many bytes as asked.
-/
def Placed (mem : HeapMem) (use : HeapUse) (call : HeapCall) (after : HeapUse) : Prop :=
  let addr := (use.answer call).2
  match call with
  | .alignAlloc alignsize size _ => addr ≠ 0 → Within mem addr size.toNat alignsize.toNat
  | .alloc nbytes _ => addr ≠ 0 → Within mem addr nbytes.toNat 1
  | .calloc size n _ => addr ≠ 0 → HandsOut use after addr (size.toNat * n.toNat)
  | .dealloc _ => True

/--
What is asked for fits into 32 bits, together with the bytes that align it in the unit that is taken.
-/
def Fitting (use : HeapUse) (call : HeapCall) (_ : HeapUse) : Prop :=
  ∀ size alignsize fit, call.request = some (size, alignsize) → alignsize ≠ 0 →
    findFit size alignsize use.alloc.units = some fit → (fit.alloc size call.room).isSome →
      call.wanted + fit.offset < 2 ^ 32

/-- A free meets no unit, or a busy one, or a free one that was not moved to align a block. -/
def Fresh (use : HeapUse) (call : HeapCall) (_ : HeapUse) : Prop :=
  ∀ addr, call = .dealloc addr → ∀ u,
    (use.alloc.units.find? fun u => u.vaddr = addr.toNat) = some u → u.status = .busy ∨ u.offset = 0

/-- The units are formed and cut the heap. -/
structure Whole (mem : HeapMem) (use : HeapUse) : Prop where
  formed : Formed mem use.alloc
  cut : Cut Bufunit.view (mem.heap + 4) (mem.heap + mem.size) use.alloc.units

variable {mem : HeapMem} {use after : HeapUse} {call : HeapCall} {alloc : Alloc} {fit : Fit}
  {size alignsize addr : Nat} {room : Bool}

/-- A power of two that fits into 32 bits is at most half of what they count. -/
theorem half_of_dvd {a : Nat} (divides : a ∣ 2 ^ 32) (small : a < 2 ^ 32) : a ≤ 2 ^ 31 := by
  obtain ⟨k, bound, rfl⟩ := (Nat.dvd_prime_pow Nat.prime_two).mp divides
  apply Nat.pow_le_pow_right (by decide)
  by_contra large
  have top : k = 32 := by omega
  subst top
  exact Nat.lt_irrefl _ small

/-- A block whose end wraps around 32 bits is outside of the heap or not aligned. -/
theorem not_within (small : alignsize < 2 ^ 32)
    (aligned : (fit.unit.vaddr + fit.offset) % alignsize = 0) (below : fit.offset < alignsize)
    (low : mem.heap + 4 ≤ fit.unit.vaddr)
    (high : fit.unit.vaddr + fit.unit.length ≤ mem.heap + mem.size)
    (long : size ≤ fit.unit.length) (wraps : 2 ^ 32 ≤ size + fit.offset) :
    ¬ ((fit.unit.vaddr + fit.offset) % 2 ^ 32 ≠ 0 →
      Within mem ((fit.unit.vaddr + fit.offset) % 2 ^ 32) size alignsize) := by
  have visible := mem.visible
  have divides : alignsize ∣ fit.unit.vaddr + fit.offset := Nat.dvd_of_mod_eq_zero aligned
  rcases Nat.lt_or_ge (fit.unit.vaddr + fit.offset) (2 ^ 32) with below | beyond
  · -- The address has not wrapped, so the block ends behind the heap.
    rw [Nat.mod_eq_of_lt below]
    intro within
    have stop := (within (by omega)).high
    omega
  · -- An alignment that divides 2^32 is too small for both sums to wrap.
    have odd : ¬ alignsize ∣ 2 ^ 32 := by
      intro power
      have half := half_of_dvd power small
      omega
    have address : (fit.unit.vaddr + fit.offset) % 2 ^ 32 =
        fit.unit.vaddr + fit.offset - 2 ^ 32 := by omega
    rw [address]
    intro within
    have rest : alignsize ∣ fit.unit.vaddr + fit.offset - 2 ^ 32 := by
      by_cases null : fit.unit.vaddr + fit.offset - 2 ^ 32 = 0
      · rw [null]
        exact Nat.dvd_zero _
      · exact Nat.dvd_of_mod_eq_zero (within null).aligned
    exact odd ((Nat.dvd_sub_iff_right beyond divides).mp rest)

/-- The first state is whole. -/
theorem Whole.init : Whole mem (init mem) where
  formed := Formed.init
  cut := by
    have room := mem.room
    refine Cut.init rfl ?_
    show mem.heap + 4 + (mem.size - 4) = mem.heap + mem.size
    omega

/-- An allocation leaves the heap cut into units, also when its arithmetic wraps. -/
theorem Whole.granted (whole : Whole mem use) (size_lt : size < 2 ^ 32)
    (align_lt : alignsize < 2 ^ 32) :
    Whole mem (use.granted size (localAlignAlloc use.alloc alignsize size room)) := by
  refine ⟨whole.formed.alignAlloc size_lt align_lt room, ?_⟩
  show Cut _ _ _ (localAlignAlloc use.alloc alignsize size room).1.units
  rcases localAlignAlloc_cases use.alloc alignsize size room with
    ⟨refused, _⟩ | ⟨fit, front, nonzero, found, given, served, split⟩
  · rw [refused]
    exact whole.cut
  · obtain ⟨same, _, _, aligned⟩ := findFit_spec found
    obtain ⟨free, fits, _, high⟩ := findFit_within whole.cut.tiles found
    have below := (aligned nonzero).2
    have visible := mem.visible
    have cut := whole.cut
    rw [same] at cut
    rw [served]
    -- The unit taken and the rest of it cover what the free unit did.
    apply cut.take (view_idle free) ?_ rfl
    · rcases split with ⟨none, _⟩ | ⟨one, _⟩
      · exact .inl none
      · exact .inr ⟨_, one, rfl⟩
    · have stretch : view.region fit.unit = ⟨fit.unit.vaddr, fit.unit.length⟩ := region_free free
      rw [stretch]
      exact take_covers fits (by omega) size_lt (by omega) split

/-- A free that meets no moved free unit leaves the heap cut into units. -/
theorem Whole.returned (whole : Whole mem use)
    (fresh : ∀ u, (use.alloc.units.find? fun u => u.vaddr = addr) = some u →
      u.status = .busy ∨ u.offset = 0) :
    Whole mem (use.returned addr (localDealloc use.alloc addr)) := by
  refine ⟨whole.formed.dealloc addr, ?_⟩
  show Cut _ _ _ (localDealloc use.alloc addr).1.units
  rcases localDealloc_cases use.alloc addr with
    ⟨nothing, _⟩ | ⟨left, front, self, back, right, joined, merged, _, same, key, earlier, freed,
      free, behind, ahead⟩
  · rw [nothing]
    exact whole.cut
  rw [freed]
  have found := find_first back right key earlier
  rw [← same] at found
  have cut := whole.cut
  rw [same] at cut
  by_cases busy : self.status = .busy
  · -- The unit and the free ones it joins are one free unit between busy ones.
    exact cut.join (fun lo hi bound tiles => free_covers busy mem.visible behind ahead bound tiles)
      (ahead.busy cut.single) (behind.busy cut.single)
  · -- A free unit is found, and freeing it again changes nothing.
    have none : self.offset = 0 := (fresh self found).resolve_left busy
    have idle : self.status = .free := free_iff.mpr busy
    obtain ⟨rfl, rfl, rfl⟩ := joins_none cut.single (view_idle idle) behind ahead
    rw [release_eq idle none (whole.formed.words self (by simp [same])).1]
    simpa using cut

/-- Calls leave the heap whole as long as frees meet no moved free unit. -/
theorem Whole.step (whole : Whole mem use) (taken : use.step call = some after)
    (fresh : use.Fresh call after) : Whole mem after := by
  rcases step_cases taken with ⟨size, alignsize, _, small, low, _, rfl⟩ | ⟨addr, same, rfl⟩
  · exact whole.granted small low
  · exact whole.returned (fresh addr same)

/-- The unit that a call takes is the one that it has put into use. -/
theorem handsOut_iff {front : List Bufunit} {taken : Bufunit} (wanted : Nat)
    (same : use.alloc.units = fit.before ++ fit.unit :: fit.after)
    (free : fit.unit.status = .free) (busy : taken.status = .busy)
    (idle : ∀ u ∈ front, view.busy u = false)
    (units : after.alloc.units = fit.before ++ (taken :: front) ++ fit.after) :
    HandsOut use after taken.vaddr wanted ↔ wanted ≤ taken.length - taken.offset := by
  -- The units in use are the old ones and the one taken, so no other unit is meant.
  have grown : (busyUnits after.alloc.units).Perm (taken :: busyUnits use.alloc.units) := by
    have old := counts_cons fit.unit fit.after
    have new := counts_cons taken (front ++ fit.after)
    simp only [same, units, busyUnits_append, List.append_assoc, List.cons_append, old.1, new.1,
      free, busy, (counts_idle idle).1, if_true, reduceCtorEq, if_false, List.nil_append]
    exact List.perm_middle
  constructor
  · intro given
    obtain ⟨u, other, _, large⟩ := given
    have both : ([u] ++ busyUnits use.alloc.units).Perm ([taken] ++ busyUnits use.alloc.units) :=
      other.symm.trans grown
    have single := List.singleton_perm_singleton.mp ((List.perm_append_right_iff _).mp both)
    exact single ▸ large
  · exact fun large => ⟨taken, grown, rfl, large⟩

/-- A block of an aligned allocation is placed in the heap exactly when its end does not wrap. -/
theorem within_iff (whole : Whole mem use) (align_lt : alignsize < 2 ^ 32) :
    ((localAlignAlloc use.alloc alignsize size room).2 ≠ 0 →
        Within mem (localAlignAlloc use.alloc alignsize size room).2 size alignsize) ↔
      ∀ fit, alignsize ≠ 0 → findFit size alignsize use.alloc.units = some fit →
        (fit.alloc size room).isSome → size + fit.offset < 2 ^ 32 := by
  rcases localAlignAlloc_cases use.alloc alignsize size room with
    ⟨refused, none⟩ | ⟨fit, front, nonzero, found, given, served, _⟩
  · rw [refused]
    constructor
    · intro _ fit nonzero found given
      rw [none fit nonzero found] at given
      cases given
    · exact fun _ null => (null rfl).elim
  · obtain ⟨_, _, _, aligned⟩ := findFit_spec found
    obtain ⟨_, fits, low, high⟩ := findFit_within whole.cut.tiles found
    obtain ⟨aligned, below⟩ := aligned nonzero
    have visible := mem.visible
    rw [served]
    show ((fit.unit.vaddr + fit.offset) % 2 ^ 32 ≠ 0 →
      Within mem ((fit.unit.vaddr + fit.offset) % 2 ^ 32) size alignsize) ↔ _
    constructor
    · intro within fit' _ found' _
      cases found.symm.trans found'
      by_contra wraps
      exact not_within align_lt aligned below low high (findFit_size found) (by omega) within
    · intro unwrapped _
      -- Without wrapping the block is the part of the unit behind the bytes that align it.
      have sum := unwrapped fit nonzero found given
      have total : (size + fit.offset) % 2 ^ 32 = size + fit.offset := Nat.mod_eq_of_lt sum
      have address : (fit.unit.vaddr + fit.offset) % 2 ^ 32 = fit.unit.vaddr + fit.offset := by
        omega
      rw [address]
      exact ⟨by omega, by omega, aligned⟩

/-- A block without alignment is as long as asked exactly when what is asked for does not wrap. -/
theorem large_iff (whole : Whole mem use) (wanted : Nat) (room : Bool)
    (after_units : after.alloc = (localAlignAlloc use.alloc 1 (wanted % 2 ^ 32) room).1) :
    ((localAlignAlloc use.alloc 1 (wanted % 2 ^ 32) room).2 ≠ 0 →
        HandsOut use after (localAlignAlloc use.alloc 1 (wanted % 2 ^ 32) room).2 wanted) ↔
      ∀ fit, findFit (wanted % 2 ^ 32) 1 use.alloc.units = some fit →
        (fit.alloc (wanted % 2 ^ 32) room).isSome → wanted + fit.offset < 2 ^ 32 := by
  rcases localAlignAlloc_cases use.alloc 1 (wanted % 2 ^ 32) room with
    ⟨refused, none⟩ | ⟨fit, front, _, found, given, served, split⟩
  · rw [refused]
    constructor
    · intro _ fit found given
      rw [none fit (by decide) found] at given
      cases given
    · exact fun _ null => (null rfl).elim
  · obtain ⟨same, free, _, aligned⟩ := findFit_spec found
    obtain ⟨_, fits, low, high⟩ := findFit_within whole.cut.tiles found
    have visible := mem.visible
    have none : fit.offset = 0 := by
      have below := (aligned (by decide)).2
      omega
    have idle : ∀ u ∈ front, view.busy u = false := by
      intro u member
      rcases split with ⟨rfl, _⟩ | ⟨rfl, _⟩
      · cases member
      · rw [List.mem_singleton.mp member]
        exact view_idle rfl
    rw [served] at after_units ⊢
    have size : (fit.unit.take (wanted % 2 ^ 32) fit.offset).length -
        (fit.unit.take (wanted % 2 ^ 32) fit.offset).offset = wanted % 2 ^ 32 := by
      simp only [Bufunit.take, none]
      omega
    have units := congrArg Alloc.units after_units
    have handed := handsOut_iff wanted same free rfl idle units
    rw [handed, size]
    have nonzero : (fit.unit.take (wanted % 2 ^ 32) fit.offset).vaddr ≠ 0 := by
      simp only [Bufunit.take, none]
      omega
    constructor
    · intro large fit' found' _
      cases found.symm.trans found'
      have large := large nonzero
      omega
    · intro unwrapped _
      have sum := unwrapped fit found given
      omega

/-- What fits is decided by the request that the call passes on. -/
theorem fitting_iff (request : call.request = some (size, alignsize)) :
    use.Fitting call after ↔ ∀ fit, alignsize ≠ 0 →
      findFit size alignsize use.alloc.units = some fit → (fit.alloc size call.room).isSome →
        call.wanted + fit.offset < 2 ^ 32 := by
  constructor
  · exact fun fits fit => fits size alignsize fit request
  · intro fits size' alignsize' fit same
    cases request.symm.trans same
    exact fits fit

/-- A call on a whole heap hands out what it should exactly when what is asked for fits. -/
theorem placed_iff (whole : Whole mem use) (taken : use.step call = some after) :
    Placed mem use call after ↔ use.Fitting call after := by
  cases call with
  | alignAlloc alignsize size room =>
    have request : (HeapCall.alignAlloc alignsize size room).request =
        some (size.toNat, alignsize.toNat) := rfl
    exact (within_iff whole alignsize.toNat_lt).trans (fitting_iff request).symm
  | alloc nbytes room =>
    have request : (HeapCall.alloc nbytes room).request = some (nbytes.toNat, 1) := rfl
    exact (within_iff whole (by decide)).trans (fitting_iff request).symm
  | calloc size n room =>
    cases taken
    have request : (HeapCall.calloc size n room).request =
        some (size.toNat * n.toNat % 2 ^ 32, 1) := rfl
    refine (large_iff whole (size.toNat * n.toNat) room rfl).trans ?_
    refine Iff.trans ?_ (fitting_iff request).symm
    exact forall_congr' fun fit => ⟨fun fits _ => fits, fun fits => fits (by decide)⟩
  | dealloc addr => simp [Placed, Fitting, HeapCall.request]

/--
In a run whose frees meet no free unit that was moved to align a block, every block handed out is
aligned and within the heap, and large enough, exactly when what each call asks for fits into 32 bits.
-/
theorem placed_iff_fitting (mem : HeapMem) (calls : List HeapCall)
    (fresh : Runs.Each step Fresh (init mem) calls) :
    Runs.Each step (Placed mem) (init mem) calls ↔ Runs.Each step Fitting (init mem) calls := by
  apply Runs.each_congr_within (I := Whole mem) ?_ ?_ Whole.init fresh
  · exact fun use call after whole taken fresh => whole.step taken fresh
  · exact fun use call after whole taken => placed_iff whole taken

/-- A block with a zeroed array behind it is such a run. -/
theorem placed_iff_fitting_page :
    Runs.Each step (Placed page) (init page) [.alignAlloc 64 100 true, .calloc 4 25 true] ↔
      Runs.Each step Fitting (init page) [.alignAlloc 64 100 true, .calloc 4 25 true] := by
  apply placed_iff_fitting page
  rw [Runs.each_iff]
  intro pre call use after within _ _ addr same
  subst same
  have member := within.subset (List.mem_append_right pre (List.mem_singleton_self _))
  simp at member

/-- An alignment near 2^32 hands out an address behind the heap, and a large product no bytes. -/
theorem placed_wraps :
    ¬ Runs.Each step (Placed ⟨0x1000, 0x3004, by decide, by decide, by decide⟩)
        (init ⟨0x1000, 0x3004, by decide, by decide, by decide⟩)
        [.alignAlloc 0xFFFFFFFF 0x1005 true] ∧
      ¬ Runs.Each step (Placed page) (init page) [.calloc 0x10000 0x10000 true] := by
  constructor
  · intro each
    have placed := (each _ rfl).1
    have outside := (placed (by decide)).high
    revert outside
    decide
  · intro each
    obtain ⟨u, same, _, large⟩ := (each _ rfl).1 (by decide)
    -- The only unit in use is empty.
    have listed : u ∈ [(⟨.busy, 0x1004, 0, 0⟩ : Bufunit)] :=
      same.mem_iff.mpr List.mem_cons_self
    rw [List.mem_singleton.mp listed] at large
    revert large
    decide

end HeapUse

end Aip
