import Aip.Lib.Holes
import Aip.Memory.OramLaws

/-! The on-chip memory refuses a request only when no stretch of it is left for the request. -/

namespace Aip

open Dlist Blocks

variable {buf : SocMemBuf} {o after : Oram} {cells xs ys : List (Nat × Buf)} {b : Buf}
  {p size align fuel addr : Nat}

namespace Oram

/-- The address of a part of a node is not `NULL`. -/
theorem Tidy.take_usrVa (tidy : Tidy buf o cells) (member : (p, b) ∈ cells) (ofs len : Nat)
    (within : ofs ≤ b.length) : (b.take ofs len).usrVa ≠ 0 := by
  have bounds := tidy.bounds member
  have visible := buf.visible
  show toUInt32 (b.va + ofs) ≠ 0
  simp only [toUInt32]
  omega

/-- A node that is cut answers with the address of its first part. -/
theorem split_addr {ofs : Int} {len : Nat} (cut : o.split p b ofs len = some (after, addr)) :
    addr = (b.take ofs len).usrVa := by
  simp only [Oram.split, Option.bind_eq_bind, Option.bind_eq_some_iff] at cut
  obtain ⟨_, _, _, _, given⟩ := cut
  cases given
  rfl

/-- The bytes that are skipped are those up to the next multiple, wherever they fit. -/
theorem curOfs_fits (tidy : Tidy buf o cells) (member : (p, b) ∈ cells) (aligned : align < 2 ^ 32)
    (positive : 0 < align) (fit : size ≤ b.length) :
    toUInt32 (size + b.curOfs align) = size + skip b.pa align ∧
      (size + skip b.pa align ≤ b.length → b.curOfs align = skip b.pa align) := by
  obtain ⟨ofs, total, exact⟩ := curOfs_spec tidy member aligned positive fit
  -- What is skipped is below 2^32, so the two sums tell it.
  have same : ofs = skip b.pa align := by
    have bounds := tidy.bounds member
    have physical := buf.physical
    have small := Nat.mod_lt b.pa positive
    have near := fun short : b.pa < align => Nat.mod_eq_of_lt short
    rw [curOfs_eq aligned positive] at total
    rw [skip]
    simp only [toInt32, toUInt32] at total
    split_ifs at total ⊢ <;> omega
  rw [same] at total exact
  exact ⟨total, exact⟩

/-- The loop of `oram_malloc` refuses when none of the nodes ahead is free and long enough. -/
theorem mallocFrom_null (tidy : Tidy buf o (xs ++ ys)) (enough : ys.length < fuel) :
    (∃ after, o.mallocFrom size true fuel (first ys none) = some (after, 0)) ↔
      ∀ y ∈ ys, ¬ (y.2.status = .free ∧ size ≤ y.2.length) := by
  induction ys generalizing xs fuel with
  | nil =>
    obtain ⟨fuel, rfl⟩ := Nat.exists_eq_succ_of_ne_zero (show fuel ≠ 0 by omega)
    exact ⟨fun _ => by simp, fun _ => ⟨o, rfl⟩⟩
  | cons y ys ih =>
    obtain ⟨r, c⟩ := y
    obtain ⟨fuel, rfl⟩ := Nat.exists_eq_succ_of_ne_zero (show fuel ≠ 0 by omega)
    have holds := tidy.holds
    by_cases fit : c.status = .free ∧ size ≤ c.length
    · -- The node is cut, and the user gets its address.
      constructor
      · intro refused
        obtain ⟨after, answer⟩ := refused
        have cut : o.split r c 0 size = some (after, 0) := by
          simpa [mallocFrom, holds.look, fit] using answer
        have named := tidy.take_usrVa (p := r) (b := c) (by simp) 0 size (Nat.zero_le _)
        exact absurd (split_addr cut).symm named
      · intro none
        exact absurd fit (none (r, c) List.mem_cons_self)
    · -- The walk goes on behind the node.
      have moved : Tidy buf o ((xs ++ [(r, c)]) ++ ys) := by simpa using tidy
      rw [List.forall_mem_cons]
      have step : o.mallocFrom size true (fuel + 1) (first ((r, c) :: ys) none) =
          o.mallocFrom size true fuel (first ys none) := by
        simp [mallocFrom, holds.look, fit]
      rw [step, ih moved (Nat.lt_of_succ_lt_succ enough)]
      exact ⟨fun rest => ⟨fit, rest⟩, And.right⟩

/-- The loop of `oram_memalign` refuses when none of the free nodes ahead has an aligned part. -/
theorem memalignFrom_null (tidy : Tidy buf o (xs ++ ys)) (aligned : align < 2 ^ 32)
    (positive : 0 < align) (enough : ys.length < fuel) :
    (∃ after, o.memalignFrom align size true fuel (first ys none) = some (after, 0)) ↔
      ∀ y ∈ ys, ¬ (y.2.status = .free ∧ size + skip y.2.pa align ≤ y.2.length) := by
  induction ys generalizing xs fuel with
  | nil =>
    obtain ⟨fuel, rfl⟩ := Nat.exists_eq_succ_of_ne_zero (show fuel ≠ 0 by omega)
    exact ⟨fun _ => by simp, fun _ => ⟨o, rfl⟩⟩
  | cons y ys ih =>
    obtain ⟨r, c⟩ := y
    obtain ⟨fuel, rfl⟩ := Nat.exists_eq_succ_of_ne_zero (show fuel ≠ 0 by omega)
    have holds := tidy.holds
    have here : (r, c) ∈ xs ++ (r, c) :: ys := by simp
    have moved : Tidy buf o ((xs ++ [(r, c)]) ++ ys) := by simpa using tidy
    have rest := ih moved (Nat.lt_of_succ_lt_succ enough)
    rw [List.forall_mem_cons]
    by_cases fit : c.status = .free ∧ size ≤ c.length
    · obtain ⟨total, exact⟩ := curOfs_fits tidy here aligned positive fit.2
      by_cases short : c.length < size + skip c.pa align
      · -- With what is skipped, the node is too small after all.
        have step : o.memalignFrom align size true (fuel + 1) (first ((r, c) :: ys) none) =
            o.memalignFrom align size true fuel (first ys none) := by
          simp [memalignFrom, holds.look, fit, positive.ne', total, short]
        rw [step, rest]
        exact ⟨fun none => ⟨fun both => Nat.not_le_of_lt short both.2, none⟩, And.right⟩
      · -- The user gets the aligned part, with what is left over or without it.
        have skipped := exact (by omega)
        rw [skipped] at total
        have room : c.status = .free ∧ size + skip c.pa align ≤ c.length := ⟨fit.1, by omega⟩
        constructor
        · intro refused
          obtain ⟨after, answer⟩ := refused
          by_cases little : toInt32 (c.length - (size + skip c.pa align)) < 1024
          · obtain ⟨list, written, _, _⟩ := holds.setBuf fun d => d.take (skip c.pa align) d.length
            have named := tidy.take_usrVa here (skip c.pa align) c.length (by omega)
            simp only [memalignFrom, first_cons, holds.look, Option.bind_eq_bind, Option.bind_some,
              if_pos fit, if_neg positive.ne', skipped, total, if_neg short, if_pos little,
              written] at answer
            exact absurd (Prod.mk.inj (Option.some.inj answer)).2 named
          · have cut : o.split r c (skip c.pa align) (size + skip c.pa align) = some (after, 0) := by
              simpa [memalignFrom, holds.look, fit, positive.ne', skipped, total, short, little]
                using answer
            have named := tidy.take_usrVa here (skip c.pa align) (size + skip c.pa align) (by omega)
            exact absurd (split_addr cut).symm named
        · intro none
          exact absurd room none.1
    · -- The walk goes on behind the node.
      have step : o.memalignFrom align size true (fuel + 1) (first ((r, c) :: ys) none) =
          o.memalignFrom align size true fuel (first ys none) := by
        simp [memalignFrom, holds.look, fit]
      rw [step, rest]
      refine ⟨fun none => ⟨fun both => fit ⟨both.1, ?_⟩, none⟩, And.right⟩
      exact Nat.le_of_add_right_le both.2

/-- The range lies in the memory and meets no busy node. -/
def Room (buf : SocMemBuf) (o : Oram) (r : Region) : Prop :=
  Vacant Buf.virtual buf.vaddr (buf.vaddr + buf.size) (o.list.cells.map Prod.snd) r

/-- A range of the memory lies in a free node, at the same distance in both address spaces. -/
theorem Tidy.room_iff (tidy : Tidy buf o cells) {r : Region} (bytes : 0 < r.size) :
    o.Room buf r ↔ ∃ x ∈ cells, x.2.status = .free ∧ ∃ d, r.start = x.2.va + d ∧
      d + r.size ≤ x.2.length ∧ r.start - buf.vaddr + buf.paddr = x.2.pa + d := by
  rw [Room, tidy.holds.cells_eq, tidy.virtual.vacant_iff bytes]
  have shift := tiles_shift tidy.virtual.tiles tidy.physical.tiles fun _ _ => rfl
  constructor
  · intro given
    obtain ⟨c, member, idle, inside⟩ := given
    obtain ⟨x, place, rfl⟩ := List.mem_map.mp member
    have free : x.2.status = .free := by
      by_contra busy
      rw [Buf.busy_iff.mpr busy] at idle
      cases idle
    have same : x.2.va + buf.paddr = x.2.pa + buf.vaddr := shift x.2 member
    have low := (tidy.bounds (p := x.1) (b := x.2) place).1
    obtain ⟨left, right⟩ := inside
    simp only [Buf.virtual, Buf.view] at left right
    exact ⟨x, place, free, r.start - x.2.va, by omega, by omega, by omega⟩
  · intro given
    obtain ⟨x, place, free, d, start, fits, _⟩ := given
    refine ⟨x.2, List.mem_map_of_mem place, Buf.idle free, ?_, ?_⟩
    · show x.2.va ≤ r.start
      omega
    · show r.start + r.size ≤ x.2.va + x.2.length
      omega

/-- A request for bytes is refused when the nodes have no room for it. -/
theorem Tidy.malloc_null (tidy : Tidy buf o cells) (bytes : 0 < size) :
    (∃ after, o.malloc size true = some (after, 0)) ↔
      ¬ ∃ r : Region, r.size = size ∧ o.Room buf r := by
  have whole : Tidy buf o ([] ++ cells) := tidy
  have bound := tidy.holds.length_le
  rw [Oram.malloc, tidy.holds.head, mallocFrom_null whole (by omega)]
  constructor
  · intro none given
    obtain ⟨r, rfl, room⟩ := given
    obtain ⟨x, member, free, d, _, fits, _⟩ := (tidy.room_iff bytes).mp room
    exact none x member ⟨free, by omega⟩
  · intro none x member fit
    refine none ⟨⟨x.2.va, size⟩, rfl, (tidy.room_iff bytes).mpr ⟨x, member, fit.1, 0, rfl, ?_, ?_⟩⟩
    · simpa using fit.2
    · have shift := tiles_shift tidy.virtual.tiles tidy.physical.tiles (fun _ _ => rfl) x.2
        (List.mem_map_of_mem member)
      have same : x.2.va + buf.paddr = x.2.pa + buf.vaddr := shift
      have low := (tidy.bounds (p := x.1) (b := x.2) member).1
      show x.2.va - buf.vaddr + buf.paddr = x.2.pa + 0
      omega

/-- A request for aligned bytes is refused when the nodes have no aligned room for it. -/
theorem Tidy.memalign_null (tidy : Tidy buf o cells) (aligned : align < 2 ^ 32)
    (positive : 0 < align) (bytes : 0 < size) :
    (∃ after, o.memalign align size true = some (after, 0)) ↔
      ¬ ∃ r : Region, r.size = size ∧ o.Room buf r ∧
        (r.start - buf.vaddr + buf.paddr) % align = 0 := by
  have whole : Tidy buf o ([] ++ cells) := tidy
  have bound := tidy.holds.length_le
  rw [Oram.memalign, tidy.holds.head, memalignFrom_null whole aligned positive (by omega)]
  constructor
  · intro none given
    obtain ⟨r, rfl, room, multiple⟩ := given
    obtain ⟨x, member, free, d, _, fits, place⟩ := (tidy.room_iff bytes).mp room
    rw [place] at multiple
    have first := skip_le positive multiple
    exact none x member ⟨free, by omega⟩
  · intro none x member fit
    have shift := tiles_shift tidy.virtual.tiles tidy.physical.tiles (fun _ _ => rfl) x.2
      (List.mem_map_of_mem member)
    have same : x.2.va + buf.paddr = x.2.pa + buf.vaddr := shift
    have low := (tidy.bounds (p := x.1) (b := x.2) member).1
    have place : x.2.va + skip x.2.pa align - buf.vaddr + buf.paddr = x.2.pa + skip x.2.pa align := by
      omega
    refine none ⟨⟨x.2.va + skip x.2.pa align, size⟩, rfl, ?_, ?_⟩
    · exact (tidy.room_iff bytes).mpr
        ⟨x, member, fit.1, skip x.2.pa align, rfl, by simpa [Nat.add_comm] using fit.2, place⟩
    · show (x.2.va + skip x.2.pa align - buf.vaddr + buf.paddr) % align = 0
      rw [place]
      exact skip_aligned positive

end Oram

namespace OramUse

/--
The on-chip memory is never fragmented beyond the blocks that are held: in every state that any calls
lead to, and as long as there is memory for a node, `oram_malloc` and `oram_memalign` answer `NULL` to
a request for bytes exactly when no range of the size, at an aligned physical address in the case of
`oram_memalign`, is left between the busy nodes.
-/
theorem null_iff_no_room (buf : SocMemBuf) (calls : List OramCall) :
    Runs.Always step (fun use => ∀ size align : UInt32, 0 < size.toNat →
      ((∃ after, use.oram.malloc size.toNat true = some (after, 0)) ↔
        ¬ ∃ r : Region, r.size = size.toNat ∧ use.oram.Room buf r) ∧
      (0 < align.toNat →
        ((∃ after, use.oram.memalign align.toNat size.toNat true = some (after, 0)) ↔
          ¬ ∃ r : Region, r.size = size.toNat ∧ use.oram.Room buf r ∧
            (r.start - buf.vaddr + buf.paddr) % align.toNat = 0))) (init buf) calls := by
  have always : Runs.Always step (fun use => ∃ cells, use.oram.Tidy buf cells) (init buf) calls := by
    refine Runs.always_of_preserved (fun use call after given taken => ?_) ⟨_, Oram.tidy_init⟩
    obtain ⟨cells, tidy⟩ := given
    obtain ⟨result, returned, cases⟩ := step_cases call tidy
    cases taken.symm.trans returned
    rcases cases with ⟨_, oram, addr, outcome, rfl⟩ | ⟨addr, oram, rfl, outcome, rfl⟩
    · exact outcome.tidy tidy
    · exact outcome.tidy tidy
  refine always.mono fun use given size align bytes => ?_
  obtain ⟨cells, tidy⟩ := given
  exact ⟨tidy.malloc_null bytes, fun positive => tidy.memalign_null align.toNat_lt positive bytes⟩

end OramUse

end Aip
