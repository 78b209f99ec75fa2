import Aip.Lib.Blocks

/-! Where a cut stretch of addresses has room: a vacant range lies in one of the free blocks. -/

namespace Blocks

open Tiling

variable {α : Type*} (v : View α)

/-- The range lies in the stretch and shares no address with a block that is handed out. -/
structure Vacant (low high : Nat) (xs : List α) (r : Region) : Prop where
  lower : low ≤ r.start
  upper : r.start + r.size ≤ high
  apart : ∀ x ∈ xs, v.busy x = true → r.Apart (v.region x)

variable {v} {low high : Nat} {xs : List α} {x : α} {r : Region}

/-- Behind a block there is no less room for a range that starts behind it. -/
theorem Vacant.behind (vacant : Vacant v low high (x :: xs) r)
    (start : low + (v.region x).size ≤ r.start) :
    Vacant v (low + (v.region x).size) high xs r :=
  ⟨start, vacant.upper, fun y member => vacant.apart y (List.mem_cons_of_mem x member)⟩

/-- A range that is not in the first block, nor behind it, meets the block behind the first. -/
theorem not_vacant_across (tiles : Tiles v.region low (x :: xs) high)
    (single : (x :: xs).IsChain fun x y => v.busy x = true ∨ v.busy y = true)
    (free : v.busy x = false) (early : r.start < low + (v.region x).size)
    (late : low + (v.region x).size < r.start + r.size) : ¬ Vacant v low high (x :: xs) r := by
  intro vacant
  have upper := vacant.upper
  cases xs with
  | nil =>
    -- The first block is the last one, so nothing in the stretch is behind it.
    have fills : low + (v.region x).size = high := tiles.2
    omega
  | cons y ys =>
    -- The block behind a free one is handed out, and starts inside the range.
    have linked := (List.isChain_cons_cons.mp single).1
    rw [free] at linked
    have busy : v.busy y = true := linked.resolve_left Bool.false_ne_true
    have start : (v.region y).start = low + (v.region x).size := tiles.2.1
    have apart := vacant.apart y (by simp) busy
    simp only [Region.Apart] at apart
    omega

/-- A vacant range with at least one address lies in a free block of the tiling. -/
theorem Vacant.inside (tiles : Tiles v.region low xs high)
    (single : xs.IsChain fun x y => v.busy x = true ∨ v.busy y = true)
    (vacant : Vacant v low high xs r) (bytes : 0 < r.size) :
    ∃ x ∈ xs, v.busy x = false ∧ r.Inside (v.region x) := by
  induction xs generalizing low with
  | nil =>
    -- An empty tiling covers nothing.
    have lower := vacant.lower
    have upper := vacant.upper
    have none : low = high := tiles
    omega
  | cons x xs ih =>
    have lower := vacant.lower
    obtain ⟨start, rest⟩ := tiles
    by_cases later : low + (v.region x).size ≤ r.start
    · obtain ⟨y, member, free, inside⟩ := ih rest single.tail (vacant.behind later)
      exact ⟨y, List.mem_cons_of_mem x member, free, inside⟩
    cases status : v.busy x with
    | true =>
      have apart := vacant.apart x List.mem_cons_self status
      simp only [Region.Apart] at apart
      omega
    | false =>
      by_cases fits : r.start + r.size ≤ low + (v.region x).size
      · exact ⟨x, List.mem_cons_self, status, by rw [start]; exact lower, by rw [start]; exact fits⟩
      · exact absurd vacant
          (not_vacant_across ⟨start, rest⟩ single status (by omega) (by omega))

/-- In a cut, the vacant ranges are those inside the free blocks. -/
theorem Cut.vacant_iff (cut : Cut v low high xs) (bytes : 0 < r.size) :
    Vacant v low high xs r ↔ ∃ x ∈ xs, v.busy x = false ∧ r.Inside (v.region x) := by
  constructor
  · exact fun vacant => vacant.inside cut.tiles cut.single bytes
  · intro given
    obtain ⟨x, member, free, inside⟩ := given
    obtain ⟨lower, upper⟩ := cut.tiles.within member
    have ⟨left, right⟩ := inside
    refine ⟨by omega, by omega, fun y listed busy => ?_⟩
    -- A block that is handed out is at another place of the list.
    obtain ⟨before, after, rfl⟩ := List.append_of_mem member
    have elsewhere : y ∈ before ++ after := by
      rcases List.mem_append.mp listed with front | behind
      · exact List.mem_append_left _ front
      · rcases List.mem_cons.mp behind with same | back
        · rw [same, free] at busy
          cases busy
        · exact List.mem_append_right _ back
    exact ((cut.tiles.elsewhere elsewhere).symm).of_inside inside ⟨Nat.le_refl _, Nat.le_refl _⟩

/-- Two tilings by blocks of the same sizes put each block at the same distance from their ends. -/
theorem tiles_shift {f g : α → Region} {low' high' : Nat} (tiles : Tiles f low xs high)
    (others : Tiles g low' xs high') (sizes : ∀ x ∈ xs, (f x).size = (g x).size) :
    ∀ x ∈ xs, (f x).start + low' = (g x).start + low := by
  induction xs generalizing low low' with
  | nil => simp
  | cons x xs ih =>
    obtain ⟨first, rest⟩ := tiles
    obtain ⟨first', rest'⟩ := others
    have size := sizes x List.mem_cons_self
    intro y member
    rcases List.mem_cons.mp member with rfl | behind
    · omega
    · have later := ih rest rest' (fun z place => sizes z (List.mem_cons_of_mem x place)) y behind
      omega

section Alignment

variable {start align size length d : Nat}

/-- The bytes from an address to the next multiple of an alignment. -/
def skip (start align : Nat) : Nat := if start % align = 0 then 0 else align - start % align

/-- Fewer bytes are skipped than the alignment has. -/
theorem skip_lt (start : Nat) (positive : 0 < align) : skip start align < align := by
  rw [skip]
  split
  · exact positive
  · omega

/-- At the end of the skipped bytes there is a multiple. -/
theorem skip_aligned (positive : 0 < align) : (start + skip start align) % align = 0 := by
  have small := Nat.mod_lt start positive
  rw [skip]
  split
  · assumption
  · have parts := Nat.div_add_mod start align
    have whole : start + (align - start % align) = align * (start / align + 1) := by
      rw [Nat.mul_add]
      omega
    rw [whole, Nat.mul_mod_right]

/-- No multiple comes earlier. -/
theorem skip_le (positive : 0 < align) (multiple : (start + d) % align = 0) :
    skip start align ≤ d := by
  have small := Nat.mod_lt start positive
  rw [skip]
  split
  · exact Nat.zero_le d
  · -- The remainder and the distance add up to a positive multiple of the alignment.
    rename_i misfit
    have sum : (start % align + d) % align = 0 := by rw [Nat.mod_add_mod, multiple]
    have reaches := Nat.le_of_dvd (by omega) (Nat.dvd_of_mod_eq_zero sum)
    omega

/-- An aligned range fits into a stretch when it does behind the skipped bytes. -/
theorem exists_aligned_iff (positive : 0 < align) :
    (∃ r : Region, r.size = size ∧ r.start % align = 0 ∧ r.Inside ⟨start, length⟩) ↔
      size + skip start align ≤ length := by
  constructor
  · intro given
    obtain ⟨r, rfl, multiple, left, right⟩ := given
    dsimp only at left right
    have first : skip start align ≤ r.start - start :=
      skip_le positive (by rw [Nat.add_sub_cancel' left]; exact multiple)
    omega
  · intro fits
    refine ⟨⟨start + skip start align, size⟩, rfl, skip_aligned positive, ?_, ?_⟩
    · exact Nat.le_add_right _ _
    · dsimp only
      omega

end Alignment

end Blocks
