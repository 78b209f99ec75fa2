import Aip.Lib.Holes
import Aip.Memory.HeapArithmetic

/-! The shared memory refuses a request only when no stretch of it is left for the request. -/

namespace Aip

open Blocks Bufunit

variable {mem : HeapMem} {units : List Bufunit} {size alignsize : Nat}

/-- A unit that the loop of `alloc_bufunit` takes. -/
def Bufunit.Suits (unit : Bufunit) (size alignsize : Nat) : Prop :=
  unit.status = .free ∧ size + skip unit.vaddr alignsize ≤ unit.length

/-- The loop ends without a unit when none is free and has room for the aligned request. -/
theorem findFit_none (positive : 0 < alignsize) (small : size + alignsize < 2 ^ 32) :
    findFit size alignsize units = none ↔ ∀ u ∈ units, ¬ u.Suits size alignsize := by
  induction units with
  | nil => simp [findFit]
  | cons unit rest ih =>
    rw [List.forall_mem_cons]
    have below := skip_lt unit.vaddr positive
    have further : (findFit size alignsize rest).map (Fit.behind unit) = none ↔
        ∀ u ∈ rest, ¬ u.Suits size alignsize := by
      rw [Option.map_eq_none_iff]
      exact ih
    rw [findFit]
    by_cases suits : unit.status = .free ∧ size ≤ unit.length
    · rw [if_pos suits]
      by_cases aligned : unit.vaddr % alignsize = 0
      · -- An aligned unit is taken at its start.
        have here : unit.Suits size alignsize := by
          refine ⟨suits.1, ?_⟩
          rw [skip, if_pos aligned]
          exact suits.2
        rw [if_neg (not_not.mpr aligned)]
        constructor
        · intro none
          cases none
        · intro none
          exact absurd here none.1
      · have exact : skip unit.vaddr alignsize = alignsize - unit.vaddr % alignsize := by
          rw [skip, if_neg aligned]
        rw [if_pos aligned]
        dsimp only
        -- The sum of the request and the bytes that align it stays on 32 bits.
        rw [← exact, Nat.mod_eq_of_lt (show size + skip unit.vaddr alignsize < 2 ^ 32 by omega)]
        by_cases fits : size + skip unit.vaddr alignsize ≤ unit.length
        · rw [if_pos fits]
          constructor
          · intro none
            cases none
          · intro none
            exact absurd (And.intro suits.1 fits) none.1
        · rw [if_neg fits, further]
          exact ⟨fun none => ⟨fun both => fits both.2, none⟩, And.right⟩
    · rw [if_neg suits, further]
      refine ⟨fun none => ⟨fun both => suits ⟨both.1, ?_⟩, none⟩, And.right⟩
      exact Nat.le_of_add_right_le both.2

namespace HeapUse

variable {use : HeapUse}

/-- The range lies in the heap and meets no busy unit. -/
def Room (mem : HeapMem) (use : HeapUse) (r : Region) : Prop :=
  Vacant Bufunit.view (mem.heap + 4) (mem.heap + mem.size) use.alloc.units r

/-- The heap has room for an aligned request when one of its units suits. -/
theorem Whole.room_iff (whole : Whole mem use) (positive : 0 < alignsize) (bytes : 0 < size) :
    (∃ r : Region, r.size = size ∧ r.start % alignsize = 0 ∧ use.Room mem r) ↔
      ∃ u ∈ use.alloc.units, u.Suits size alignsize := by
  constructor
  · intro given
    obtain ⟨r, rfl, aligned, room⟩ := given
    obtain ⟨u, member, idle, inside⟩ := (whole.cut.vacant_iff bytes).mp room
    have free : u.status = .free := by
      rw [free_iff, ← view_busy, idle]
      exact Bool.false_ne_true
    have within : r.Inside ⟨u.vaddr, u.length⟩ := by
      rw [← region_free free]
      exact inside
    exact ⟨u, member, free, (exists_aligned_iff positive).mp ⟨r, rfl, aligned, within⟩⟩
  · intro given
    obtain ⟨u, member, free, fits⟩ := given
    obtain ⟨r, rfl, aligned, within⟩ := (exists_aligned_iff positive).mpr fits
    rw [← region_free free] at within
    exact ⟨r, rfl, aligned, (whole.cut.vacant_iff bytes).mpr ⟨u, member, view_idle free, within⟩⟩

/-- A request is refused when no unit suits. -/
theorem Whole.alignAlloc_null (whole : Whole mem use) (positive : 0 < alignsize)
    (small : size + alignsize < 2 ^ 32) :
    (localAlignAlloc use.alloc alignsize size true).2 = 0 ↔
      ∀ u ∈ use.alloc.units, ¬ u.Suits size alignsize := by
  rw [← findFit_none positive small]
  rcases localAlignAlloc_cases use.alloc alignsize size true with
    ⟨refused, none⟩ | ⟨fit, front, nonzero, found, _, served, _⟩
  · refine ⟨fun _ => ?_, fun _ => by rw [refused]⟩
    -- With memory for a unit, a search that ends at one is never in vain.
    cases found : findFit size alignsize use.alloc.units with
    | none => rfl
    | some fit =>
      have failed := none fit positive.ne' found
      rw [Fit.alloc] at failed
      split at failed
      · cases failed
      · cases failed
  · -- The address of a unit in the heap is not `NULL`.
    obtain ⟨_, fits, low, high⟩ := findFit_within whole.cut.tiles found
    have below := ((findFit_spec found).2.2.2 nonzero).2
    have visible := mem.visible
    have address : (fit.unit.vaddr + fit.offset) % 2 ^ 32 ≠ 0 := by omega
    rw [served, found]
    constructor
    · intro null
      exact absurd null address
    · intro none
      cases none

/--
The shared memory is never fragmented beyond the blocks that are held: in every state of a run whose
frees meet no free unit that was moved to align a block, and as long as there is memory for a unit,
`Local_alignAlloc` answers `NULL` to a request for bytes exactly when no range of the size at an
aligned address is left between the busy units. `Local_Alloc` is the case of the alignment 1.
-/
theorem null_iff_full (mem : HeapMem) (calls : List HeapCall)
    (fresh : Runs.Each step Fresh (init mem) calls) :
    Runs.Always step (fun use => ∀ size alignsize : UInt32, 0 < size.toNat → 0 < alignsize.toNat →
      size.toNat + alignsize.toNat < 2 ^ 32 →
        ((localAlignAlloc use.alloc alignsize.toNat size.toNat true).2 = 0 ↔
          ¬ ∃ r : Region, r.size = size.toNat ∧ r.start % alignsize.toNat = 0 ∧ use.Room mem r))
      (init mem) calls := by
  have always : Runs.Always step (Whole mem) (init mem) calls :=
    Runs.always_of_invariant (fun _ _ _ whole taken met => whole.step taken met) Whole.init fresh
  refine always.mono fun use whole size alignsize bytes positive small => ?_
  rw [whole.alignAlloc_null positive small, whole.room_iff positive bytes]
  simp only [not_exists, not_and]

/-- A block that is handed out and freed leaves room as before. -/
theorem null_iff_full_page :
    Runs.Always step (fun use => ∀ size alignsize : UInt32, 0 < size.toNat → 0 < alignsize.toNat →
      size.toNat + alignsize.toNat < 2 ^ 32 →
        ((localAlignAlloc use.alloc alignsize.toNat size.toNat true).2 = 0 ↔
          ¬ ∃ r : Region, r.size = size.toNat ∧ r.start % alignsize.toNat = 0 ∧ use.Room page r))
      (init page) [.alignAlloc 64 100 true, .dealloc 0x1040] := by
  apply null_iff_full page [.alignAlloc 64 100 true, .dealloc 0x1040]
  refine (Runs.each_cons rfl).mpr ⟨?_, (Runs.each_cons rfl).mpr ⟨?_, trivial⟩⟩
  · intro addr same
    cases same
  · -- The unit with the address is the busy one.
    intro addr same u found
    cases same
    cases found
    exact .inl rfl

end HeapUse

end Aip
