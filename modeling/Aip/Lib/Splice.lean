import Mathlib.Algebra.Order.Ring.Int
import Mathlib.Algebra.Order.Ring.Nat
import Mathlib.Data.List.Chain
import Mathlib.Data.List.TakeWhile

/-! Relations along a list, seen from one of its places. -/

namespace Splice

variable {α : Type*} {R : α → α → Prop} {before after : List α} {x y z : α}

/-- A chain through a place is a chain on both sides that is linked to the place. -/
theorem isChain_around : (before ++ x :: after).IsChain R ↔
    before.IsChain R ∧ (∀ w ∈ before.getLast?, R w x) ∧ (∀ w ∈ after.head?, R x w) ∧
      after.IsChain R := by
  -- The links of the place are the last link of the front and the first one of the back.
  rw [List.isChain_append, List.isChain_cons]
  simp only [List.head?_cons, Option.mem_some_iff, forall_eq']
  tauto

/-- A relation between all pairs is one on both sides, across the place, and with the place. -/
theorem pairwise_around : (before ++ x :: after).Pairwise R ↔
    before.Pairwise R ∧ (∀ w ∈ before, R w x) ∧ (∀ w ∈ after, R x w) ∧ after.Pairwise R ∧
      ∀ w ∈ before, ∀ v ∈ after, R w v := by
  -- The pairs across the place are those with the place and those over it.
  rw [List.pairwise_append, List.pairwise_cons]
  simp only [List.mem_cons, forall_eq_or_imp]
  constructor
  · intro given
    obtain ⟨left, ⟨next, right⟩, across⟩ := given
    exact ⟨left, fun w member => (across w member).1, next, right,
      fun w member => (across w member).2⟩
  · intro given
    obtain ⟨left, prev, next, right, across⟩ := given
    exact ⟨left, ⟨next, right⟩, fun w member => ⟨prev w member, across w member⟩⟩

/-- An element that links where the old one did may take its place. -/
theorem isChain_replace (chain : (before ++ x :: after).IsChain R) (prev : ∀ w, R w x → R w z)
    (next : ∀ w, R x w → R z w) : (before ++ z :: after).IsChain R := by
  -- Only the two links of the place are touched.
  obtain ⟨left, linked, links, right⟩ := isChain_around.mp chain
  exact isChain_around.mpr ⟨left, fun w member => prev w (linked w member),
    fun w member => next w (links w member), right⟩

/-- Two neighbours may be joined by an element that links like the outer sides of both. -/
theorem isChain_join (chain : (before ++ x :: y :: after).IsChain R) (prev : ∀ w, R w x → R w z)
    (next : ∀ w, R y w → R z w) : (before ++ z :: after).IsChain R := by
  -- The link between the two neighbours disappears.
  obtain ⟨left, linked, _, rest⟩ := isChain_around.mp chain
  obtain ⟨links, right⟩ := List.isChain_cons.mp rest
  exact isChain_around.mpr ⟨left, fun w member => prev w (linked w member),
    fun w member => next w (links w member), right⟩

/-- An element may be split into two linked ones that link like its two sides. -/
theorem isChain_split (chain : (before ++ z :: after).IsChain R) (prev : ∀ w, R w z → R w x)
    (inner : R x y) (next : ∀ w, R z w → R y w) : (before ++ x :: y :: after).IsChain R := by
  -- The inner link is the only new one.
  obtain ⟨left, linked, links, right⟩ := isChain_around.mp chain
  refine isChain_around.mpr ⟨left, fun w member => prev w (linked w member), ?_,
    List.isChain_cons.mpr ⟨fun w member => next w (links w member), right⟩⟩
  intro w member
  rw [List.head?_cons, Option.mem_some_iff] at member
  exact member ▸ inner

/-- Which links hold between elements of two kinds is seen from the kinds alone. -/
theorem isChain_of_map {β : Type*} {kind : α → β} {S : β → β → Prop} {xs ys : List α}
    (same : ys.map kind = xs.map kind) (chain : xs.IsChain fun x y => S (kind x) (kind y)) :
    ys.IsChain fun x y => S (kind x) (kind y) := by
  rw [← List.isChain_map kind] at chain ⊢
  rwa [same]

/-- An element that is related where the old one was may take its place. -/
theorem pairwise_replace (pairs : (before ++ x :: after).Pairwise R)
    (prev : ∀ w ∈ before, R w x → R w z) (next : ∀ w ∈ after, R x w → R z w) :
    (before ++ z :: after).Pairwise R := by
  -- The pairs without the place are as they were.
  obtain ⟨left, linked, links, right, across⟩ := pairwise_around.mp pairs
  exact pairwise_around.mpr ⟨left, fun w member => prev w member (linked w member),
    fun w member => next w member (links w member), right, across⟩

/-- Two neighbours may be joined by an element that is related where they both were. -/
theorem pairwise_join (pairs : (before ++ x :: y :: after).Pairwise R)
    (prev : ∀ w ∈ before, R w x → R w y → R w z) (next : ∀ w ∈ after, R x w → R y w → R z w) :
    (before ++ z :: after).Pairwise R := by
  obtain ⟨left, linked, links, rest, across⟩ := pairwise_around.mp pairs
  obtain ⟨second, right⟩ := List.pairwise_cons.mp rest
  refine pairwise_around.mpr ⟨left, fun w member => ?_, fun w member => ?_, right,
    fun w member v later => across w member v (List.mem_cons_of_mem _ later)⟩
  · -- An element before the pair was related to both of them.
    exact prev w member (linked w member) (across w member y List.mem_cons_self)
  · -- So was an element behind it.
    exact next w member (links w (List.mem_cons_of_mem _ member)) (second w member)

/-- An element may be split into two that are related to each other and where it was. -/
theorem pairwise_split (pairs : (before ++ z :: after).Pairwise R)
    (prev : ∀ w ∈ before, R w z → R w x ∧ R w y) (inner : R x y)
    (next : ∀ w ∈ after, R z w → R x w ∧ R y w) : (before ++ x :: y :: after).Pairwise R := by
  obtain ⟨left, linked, links, right, across⟩ := pairwise_around.mp pairs
  refine pairwise_around.mpr ⟨left, fun w member => (prev w member (linked w member)).1, ?_,
    List.pairwise_cons.mpr ⟨fun w member => (next w member (links w member)).2, right⟩, ?_⟩
  · -- The first half is related to the second and to whatever the whole was related to.
    intro w member
    rcases List.mem_cons.mp member with rfl | later
    · exact inner
    · exact (next w later (links w later)).1
  · -- An element before the place is related to both halves and to all behind them.
    intro w member v listed
    rcases List.mem_cons.mp listed with rfl | later
    · exact (prev w member (linked w member)).2
    · exact across w member v later

/-- A list begins with all it has of a kind before the first element of another kind. -/
theorem exists_run_ahead (kind : α → Bool) (xs : List α) : ∃ run rest, xs = run ++ rest ∧
    (∀ x ∈ run, kind x = true) ∧ ∀ x ∈ rest.head?, kind x = false := by
  refine ⟨xs.takeWhile kind, xs.dropWhile kind, List.takeWhile_append_dropWhile.symm,
    fun x member => List.mem_takeWhile_imp member, fun x member => ?_⟩
  have stop := List.head?_dropWhile_not kind xs
  rw [Option.mem_def] at member
  simpa [member] using stop

/-- A list ends with all it has of a kind after the last element of another kind. -/
theorem exists_run_behind (kind : α → Bool) (xs : List α) : ∃ rest run, xs = rest ++ run ∧
    (∀ x ∈ run, kind x = true) ∧ ∀ x ∈ rest.getLast?, kind x = false := by
  -- Read backwards, the list begins with the run.
  obtain ⟨run, rest, same, all, stop⟩ := exists_run_ahead kind xs.reverse
  refine ⟨rest.reverse, run.reverse, ?_, ?_, ?_⟩
  · rw [← List.reverse_append, ← same, List.reverse_reverse]
  · simpa using all
  · simpa using stop

/-- Where no two neighbours are of the other kind, a list ends with at most one of them. -/
theorem exists_last (kind : α → Bool) {xs : List α}
    (chain : xs.IsChain fun x y => kind x = true ∨ kind y = true) :
    ∃ rest run, xs = rest ++ run ∧ (run = [] ∨ ∃ w, run = [w] ∧ kind w = false) ∧
      ∀ w ∈ rest.getLast?, kind w = true := by
  rcases List.eq_nil_or_concat xs with none | ⟨rest, x, same⟩
  · exact ⟨[], [], none, Or.inl rfl, by simp⟩
  · rw [List.concat_eq_append] at same
    subst same
    cases status : kind x with
    | true => exact ⟨rest ++ [x], [], by simp, Or.inl rfl, by simpa using status⟩
    | false =>
      -- The one in front of it is of the kind.
      refine ⟨rest, [x], rfl, Or.inr ⟨x, rfl, status⟩, fun w member => ?_⟩
      have link := (List.isChain_append.mp chain).2.2 w member x rfl
      rw [status] at link
      exact link.resolve_right Bool.false_ne_true

/-- Where no two neighbours are of the other kind, a list begins with at most one of them. -/
theorem exists_first (kind : α → Bool) {xs : List α}
    (chain : xs.IsChain fun x y => kind x = true ∨ kind y = true) :
    ∃ run rest, xs = run ++ rest ∧ (run = [] ∨ ∃ w, run = [w] ∧ kind w = false) ∧
      ∀ w ∈ rest.head?, kind w = true := by
  -- If the first element is of the other kind, its neighbour is not.
  cases xs with
  | nil => exact ⟨[], [], rfl, Or.inl rfl, by simp⟩
  | cons x rest =>
    cases status : kind x with
    | true => exact ⟨[], x :: rest, rfl, Or.inl rfl, by simpa using status⟩
    | false =>
      refine ⟨[x], rest, rfl, Or.inr ⟨x, rfl, status⟩, fun w member => ?_⟩
      have link := (List.isChain_cons.mp chain).1 w member
      rw [status] at link
      exact link.resolve_left Bool.false_ne_true

end Splice
