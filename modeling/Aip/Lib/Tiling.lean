import Mathlib.Data.List.Chain
import Aip.Lib.Region

/-! Lists whose elements cover a stretch of addresses one after the other, without a gap. -/

namespace Tiling

variable {α : Type*} (region : α → Region)

/-- The elements cover the addresses from `low` up to `high` in the order of the list. -/
def Tiles : Nat → List α → Nat → Prop
  -- Each element starts where the one before it ends.
  | low, [], high => low = high
  | low, x :: xs, high => (region x).start = low ∧ Tiles (low + (region x).size) xs high

variable {region} {low mid high : Nat} {xs ys run before after : List α} {x y z : α}

/-- Two lists cover a stretch when they meet somewhere inside it. -/
theorem tiles_append : Tiles region low (xs ++ ys) high ↔
    ∃ mid, Tiles region low xs mid ∧ Tiles region mid ys high := by
  -- The first element moves the lower end of both sides alike.
  induction xs generalizing low with
  | nil => simp [Tiles]
  | cons x xs ih => simp [Tiles, ih, and_assoc]

/-- The lower and the upper end differ by the sizes of what lies between them. -/
theorem Tiles.sum (tiles : Tiles region low xs high) :
    low + (xs.map fun x => (region x).size).sum = high := by
  induction xs generalizing low with
  | nil => simpa [Tiles] using tiles
  | cons x xs ih =>
    have rest := ih tiles.2
    simp only [List.map_cons, List.sum_cons]
    omega

/-- A list that covers a stretch may be exchanged for another one that covers the same. -/
theorem Tiles.exchange (tiles : Tiles region low (before ++ run ++ after) high)
    (covers : ∀ start stop, stop ≤ high → Tiles region start run stop →
      Tiles region start xs stop) : Tiles region low (before ++ xs ++ after) high := by
  -- The two seams around the exchanged part stay where they are.
  obtain ⟨stop, front, back⟩ := tiles_append.mp tiles
  obtain ⟨start, first, middle⟩ := tiles_append.mp front
  have bound : stop ≤ high := by
    have sum := back.sum
    omega
  exact tiles_append.mpr
    ⟨stop, tiles_append.mpr ⟨start, first, covers start stop bound middle⟩, back⟩

/-- Every element lies between the two ends. -/
theorem Tiles.within (tiles : Tiles region low xs high) (member : x ∈ xs) :
    low ≤ (region x).start ∧ (region x).start + (region x).size ≤ high := by
  -- The element splits the list, and both parts have a length.
  obtain ⟨before, after, rfl⟩ := List.append_of_mem member
  obtain ⟨mid, front, start, back⟩ := tiles_append.mp tiles
  have left := front.sum
  have right := back.sum
  omega

/-- What is in front of an element covers the addresses up to it. -/
theorem Tiles.front (tiles : Tiles region low (before ++ x :: after) high) :
    Tiles region low before (region x).start := by
  obtain ⟨mid, first, start, _⟩ := tiles_append.mp tiles
  exact start ▸ first

/-- What is behind an element covers the addresses from its end on. -/
theorem Tiles.behind (tiles : Tiles region low (before ++ x :: after) high) :
    Tiles region ((region x).start + (region x).size) after high := by
  obtain ⟨mid, _, start, rest⟩ := tiles_append.mp tiles
  exact start ▸ rest

/-- An element ends where any later one starts, or before. -/
theorem Tiles.ordered (tiles : Tiles region low xs high) :
    xs.Pairwise fun x y => (region x).start + (region x).size ≤ (region y).start := by
  -- All later elements lie in the stretch behind the first one.
  induction xs generalizing low with
  | nil => exact List.Pairwise.nil
  | cons x xs ih =>
    obtain ⟨start, rest⟩ := tiles
    refine List.pairwise_cons.mpr ⟨?_, ih rest⟩
    intro y member
    have := (rest.within member).1
    omega

/-- Different places of the list cover different addresses. -/
theorem Tiles.apart (tiles : Tiles region low xs high) :
    xs.Pairwise fun x y => (region x).Apart (region y) :=
  tiles.ordered.imp fun ordered => Or.inl ordered

/-- Elements at other places of the list cover other addresses. -/
theorem Tiles.elsewhere (tiles : Tiles region low (before ++ x :: after) high)
    (member : y ∈ before ++ after) : (region y).Apart (region x) := by
  -- The other place is in front of this one or behind it.
  have pairs := tiles.apart
  rw [List.pairwise_append] at pairs
  obtain ⟨_, behind, across⟩ := pairs
  rcases List.mem_append.mp member with left | right
  · exact across y left x List.mem_cons_self
  · exact ((List.pairwise_cons.mp behind).1 y right).symm

/-- What a list covers depends on the regions of its elements alone. -/
theorem tiles_congr (same : xs.map region = ys.map region) :
    Tiles region low xs high ↔ Tiles region low ys high := by
  -- Both lists are read in step.
  induction xs generalizing low ys with
  | nil =>
    cases ys with
    | nil => exact Iff.rfl
    | cons y ys => simp at same
  | cons x xs ih =>
    cases ys with
    | nil => simp at same
    | cons y ys =>
      rw [List.map_cons, List.map_cons, List.cons.injEq] at same
      simp only [Tiles, same.1, ih same.2]

/-- One element that starts like a list and has its whole size may take its place. -/
theorem Tiles.merge (tiles : Tiles region low (x :: xs) high)
    (start : (region z).start = (region x).start)
    (size : (region z).size = ((x :: xs).map fun y => (region y).size).sum) :
    Tiles region low [z] high := by
  refine ⟨start.trans tiles.1, ?_⟩
  show low + (region z).size = high
  rw [size, tiles.sum]

/-- One element covers a stretch when it starts at the lower end and fills it. -/
theorem tiles_singleton : Tiles region low [x] high ↔
    (region x).start = low ∧ low + (region x).size = high := Iff.rfl

end Tiling
