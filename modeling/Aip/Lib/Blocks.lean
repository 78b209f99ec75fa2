import Aip.Lib.Matching
import Aip.Lib.Splice
import Aip.Lib.Tiling

/-! A stretch of addresses cut into blocks, some of them handed out under a key. -/

namespace Blocks

open Tiling

/-- What a block covers, whether it is handed out, and the address it is known by. -/
structure View (α : Type*) where
  region : α → Region
  busy : α → Bool
  key : α → Nat

variable {α : Type*} (v : View α)

/-- The blocks fill the stretch, and no two neighbours are both free. -/
structure Cut (low high : Nat) (xs : List α) : Prop where
  tiles : Tiles v.region low xs high
  filled : xs ≠ []
  single : xs.IsChain fun x y => v.busy x = true ∨ v.busy y = true

/-- A block holds a range when it covers the range and is known by its start. -/
def Fits (x : α) (r : Region) : Prop := r.start = v.key x ∧ r.Inside (v.region x)

/-- The busy blocks of a cut hold the live ranges, one each. -/
structure Held (low high : Nat) (xs : List α) (live : List Region) : Prop
    extends Cut v low high xs where
  matched : Matching.Matched v.busy (Fits v) xs live

variable {v} {low high : Nat} {xs before after front back : List α} {x y z : α}
  {live : List Region} {r : Region}

/-- One free block that covers everything is a cut. -/
theorem Cut.init (start : (v.region x).start = low) (size : low + (v.region x).size = high) :
    Cut v low high [x] where
  tiles := tiles_singleton.mpr ⟨start, size⟩
  filled := List.cons_ne_nil x []
  single := List.isChain_singleton x

/-- Neighbours stay apart when a free block gives way to a busy one and what is left of it. -/
theorem chain_take
    (chain : (before ++ x :: after).IsChain fun x y => v.busy x = true ∨ v.busy y = true)
    (free : v.busy x = false) (busy : v.busy y = true)
    (rest : front = [] ∨ ∃ z, front = [z] ∧ v.busy z = false) :
    (before ++ (y :: front) ++ after).IsChain fun x y => v.busy x = true ∨ v.busy y = true := by
  rw [List.append_assoc]
  rcases rest with none | some
  · subst none
    exact Splice.isChain_replace chain (fun w _ => Or.inr busy) (fun w _ => Or.inl busy)
  · -- The neighbour behind was next to a free block, so it is busy.
    obtain ⟨z, rfl, _⟩ := some
    apply Splice.isChain_split chain (fun w _ => Or.inr busy) (Or.inl busy)
    intro w linked
    rw [free] at linked
    exact Or.inr (linked.resolve_left Bool.false_ne_true)

/-- Neighbours stay apart when a run of blocks between busy ones becomes one block. -/
theorem chain_join
    (chain : (before ++ front ++ after).IsChain fun x y => v.busy x = true ∨ v.busy y = true)
    (prev : ∀ w ∈ before.getLast?, v.busy w = true)
    (next : ∀ w ∈ after.head?, v.busy w = true) :
    (before ++ z :: after).IsChain fun x y => v.busy x = true ∨ v.busy y = true := by
  -- Both new neighbours are busy, and the two sides are parts of the old chain.
  rw [List.append_assoc, List.isChain_append] at chain
  obtain ⟨left, right, _⟩ := chain
  exact Splice.isChain_around.mpr ⟨left, fun w member => Or.inl (prev w member),
    fun w member => Or.inr (next w member), (List.isChain_append.mp right).2.1⟩

/-- A free block may be replaced by a busy one and perhaps a free one behind it. -/
theorem Cut.take (cut : Cut v low high (before ++ x :: after)) (free : v.busy x = false)
    (covers : Tiles v.region (v.region x).start (y :: front)
      ((v.region x).start + (v.region x).size))
    (busy : v.busy y = true) (rest : front = [] ∨ ∃ z, front = [z] ∧ v.busy z = false) :
    Cut v low high (before ++ (y :: front) ++ after) where
  tiles := by
    -- The new blocks cover what the old one did.
    have tiles := cut.tiles
    rw [List.append_cons] at tiles
    apply tiles.exchange
    intro start stop _ alone
    obtain ⟨first, last⟩ := tiles_singleton.mp alone
    rw [← first, ← last, ← first]
    exact covers
  filled := by simp
  single := chain_take cut.single free busy rest

/-- A run of blocks between busy neighbours may be joined into one. -/
theorem Cut.join (cut : Cut v low high (before ++ front ++ after))
    (covers : ∀ start stop, stop ≤ high → Tiles v.region start front stop →
      Tiles v.region start [z] stop)
    (prev : ∀ w ∈ before.getLast?, v.busy w = true)
    (next : ∀ w ∈ after.head?, v.busy w = true) : Cut v low high (before ++ z :: after) where
  tiles := by
    rw [List.append_cons]
    exact cut.tiles.exchange covers
  filled := by simp
  single := chain_join cut.single prev next

/-- One free block that covers everything holds nothing. -/
theorem Held.init (start : (v.region x).start = low) (size : low + (v.region x).size = high)
    (free : v.busy x = false) : Held v low high [x] [] where
  toCut := Cut.init start size
  matched := Matching.Matched.init (by simpa using free)

/-- The live ranges share no address. -/
theorem Held.apart (held : Held v low high xs live) : live.Pairwise Region.Apart := by
  -- Each lies in a block of its own, and the blocks are apart.
  obtain ⟨ranges, same, fit⟩ := held.matched
  have blocks : (xs.filter v.busy).Pairwise fun x y => (v.region x).Apart (v.region y) :=
    held.tiles.apart.sublist List.filter_sublist
  apply (same.pairwise_iff fun apart => apart.symm).mp
  exact Matching.pairwise_forall₂ blocks fit fun apart first second =>
    apart.of_inside first.2 second.2

/-- The live ranges start at addresses of their own when the blocks have keys of their own. -/
theorem Held.distinct (held : Held v low high xs live)
    (keys : xs.Pairwise fun x y => v.key x ≠ v.key y) :
    live.Pairwise fun r r' => r.start ≠ r'.start := by
  obtain ⟨ranges, same, fit⟩ := held.matched
  have blocks := keys.sublist (List.filter_sublist (p := v.busy))
  apply (same.pairwise_iff fun other => other.symm).mp
  refine Matching.pairwise_forall₂ blocks fit fun other first second => ?_
  rw [first.1, second.1]
  exact other

/-- Searching by key finds a busy block when free blocks keep no key outside themselves. -/
theorem Held.first (held : Held v low high xs live) (solid : ∀ r ∈ live, 0 < r.size)
    (member : r ∈ live)
    (stale : ∀ y ∈ xs, v.busy y = false → v.key y = r.start →
      (v.region y).start ≤ r.start ∧ r.start < (v.region y).start + (v.region y).size) :
    ∃ x, (xs.find? fun y => v.key y = r.start) = some x ∧ v.busy x = true := by
  -- The block that holds the range is the only one that covers its first address.
  obtain ⟨x, place, busy, key, inside⟩ := held.matched.holder member
  have long := solid r member
  simp only [Region.Inside] at inside
  obtain ⟨before, after, rfl⟩ := List.append_of_mem place
  refine ⟨x, ?_, busy⟩
  rw [List.find?_eq_some_iff_append]
  refine ⟨by simpa using key.symm, before, after, rfl, fun y other => ?_⟩
  have present : y ∈ before ++ x :: after := List.mem_append_left _ other
  simp only [Bool.not_eq_true', decide_eq_false_iff_not]
  intro same
  have covered : (v.region y).start ≤ r.start ∧
      r.start < (v.region y).start + (v.region y).size := by
    cases status : v.busy y with
    | false => exact stale y present status same
    | true =>
      obtain ⟨r', listed, start, within⟩ := held.matched.partner present status
      have wide := solid r' listed
      simp only [Region.Inside] at within
      omega
  exact (held.tiles.elsewhere (List.mem_append_left after other)).elim r.start covered (by omega)

/-- A free block may be handed out, with what is left of it as a free block behind it. -/
theorem Held.take (held : Held v low high (before ++ x :: after) live) (free : v.busy x = false)
    (covers : Tiles v.region (v.region x).start (y :: front)
      ((v.region x).start + (v.region x).size))
    (busy : v.busy y = true) (rest : front = [] ∨ ∃ z, front = [z] ∧ v.busy z = false)
    (fits : Fits v y r) : Held v low high (before ++ (y :: front) ++ after) (r :: live) where
  toCut := held.toCut.take free covers busy rest
  matched := by
    -- The rest, if there is one, is free, so only the first of the new blocks has a user.
    refine held.matched.take free busy (fun w member => ?_) fits
    rcases rest with none | ⟨z, rfl, idle⟩
    · simp [none] at member
    · rw [List.mem_singleton.mp member]
      exact idle

/-- The first live range with the key of a block may be given up with the block. -/
theorem Held.split (held : Held v low high (before ++ (front ++ x :: back) ++ after) live)
    (busy : v.busy x = true) (earlier : ∀ w ∈ before, v.key w ≠ v.key x) :
    ∃ some u more, live = some ++ u :: more ∧
      (live.eraseP fun r => r.start = v.key x) = some ++ more ∧
      (∀ w ∈ before, ¬ Fits v w u) ∧
      ∀ w ∈ after, Fits v w u → ∀ r ∈ live, Fits v x r → Fits v w r := by
  -- What the user gives up starts at the same address as what the block held.
  obtain ⟨own, listed, holds⟩ := held.matched.partner (x := x) (by simp) busy
  obtain ⟨given, some, more, _, starts, split, erased⟩ :=
    List.exists_of_eraseP (p := fun r : Region => decide (r.start = v.key x)) listed
      (by simpa using holds.1)
  rw [decide_eq_true_eq] at starts
  refine ⟨some, given, more, split, erased, fun w member has => ?_, fun w member has r _ fits => ?_⟩
  · exact earlier w member (has.1.symm.trans starts)
  · -- A later block with the same key starts where this one ends, or behind.
    have ordered := held.tiles.ordered
    rw [show before ++ (front ++ x :: back) ++ after = (before ++ front) ++ x :: (back ++ after)
      by simp] at ordered
    have apart := (List.pairwise_cons.mp (List.pairwise_append.mp ordered).2.1).1 w
      (List.mem_append_right back member)
    simp only [Fits, Region.Inside] at has fits ⊢
    omega

/-- The first block with its key may be freed and joined with the free ones around it. -/
theorem Held.release (held : Held v low high (before ++ (front ++ x :: back) ++ after) live)
    (busy : v.busy x = true) (idle : ∀ y ∈ front ++ back, v.busy y = false)
    (covers : ∀ start stop, stop ≤ high → Tiles v.region start (front ++ x :: back) stop →
      Tiles v.region start [z] stop)
    (free : v.busy z = false) (prev : ∀ w ∈ before.getLast?, v.busy w = true)
    (next : ∀ w ∈ after.head?, v.busy w = true) (earlier : ∀ w ∈ before, v.key w ≠ v.key x) :
    Held v low high (before ++ z :: after) (live.eraseP fun r => r.start = v.key x) where
  toCut := held.toCut.join covers prev next
  matched := by
    obtain ⟨some, u, more, split, erased, first, last⟩ := held.split busy earlier
    rw [erased]
    exact held.matched.release busy idle free split first last

/-- The seam between a busy block and the free one behind it may move, and with it the range. -/
theorem Held.renew (held : Held v low high (before ++ (x :: back) ++ after) live)
    (busy : v.busy x = true) (idle : ∀ y ∈ back, v.busy y = false)
    (covers : ∀ start stop, stop ≤ high → Tiles v.region start (x :: back) stop →
      Tiles v.region start (y :: front) stop)
    (same : (y :: front).map v.busy = (x :: back).map v.busy) (free : v.busy z = false)
    (earlier : ∀ w ∈ before, v.key w ≠ v.key x) (fits : Fits v y r) :
    Held v low high (before ++ (y :: front) ++ after)
      (r :: live.eraseP fun r => r.start = v.key x) where
  tiles := held.tiles.exchange covers
  filled := by simp
  single := by
    -- Busy and free blocks follow each other as before.
    refine Splice.isChain_of_map (S := fun p q => p = true ∨ q = true) ?_ held.single
    rw [List.map_append, List.map_append, List.map_append, List.map_append, same]
  matched := by
    have around : Held v low high (before ++ ([] ++ x :: back) ++ after) live := held
    obtain ⟨some, u, more, split, erased, first, last⟩ := around.split busy earlier
    rw [List.map_cons, List.map_cons, List.cons.injEq] at same
    rw [erased]
    refine around.matched.renew busy (by simpa using idle) free split first last
      (same.1.trans busy) (fun w member => ?_) fits
    have kinds : v.busy w ∈ back.map v.busy := same.2 ▸ List.mem_map_of_mem member
    obtain ⟨y, place, kind⟩ := List.mem_map.mp kinds
    exact kind.symm.trans (idle y place)

/-- An address that no block is known by is the start of no live range. -/
theorem Held.unknown (held : Held v low high xs live) {address : Nat}
    (absent : ∀ x ∈ xs, v.busy x = true → v.key x ≠ address) :
    (live.eraseP fun r => r.start = address) = live := by
  apply List.eraseP_of_forall_not
  intro r member
  obtain ⟨x, place, busy, key, _⟩ := held.matched.holder member
  simpa [key] using absent x place busy

/-- When nothing is live, one free block covers the whole stretch. -/
theorem Held.restored (held : Held v low high xs []) :
    ∃ x, xs = [x] ∧ v.busy x = false ∧ (v.region x).start = low ∧
      low + (v.region x).size = high := by
  -- No block can be busy, and two neighbours cannot both be free.
  have idle : ∀ x ∈ xs, v.busy x = false := by
    have none := List.length_eq_zero_iff.mp held.matched.count
    simpa using none
  have single := held.single
  have tiles := held.tiles
  match xs, held.filled with
  | [x], _ => exact ⟨x, rfl, idle x List.mem_cons_self, tiles_singleton.mp tiles⟩
  | x :: y :: rest, _ =>
    have linked := (List.isChain_cons_cons.mp single).1
    rw [idle x (by simp), idle y (by simp)] at linked
    simp at linked

end Blocks
