import Mathlib.Algebra.Order.Ring.Int
import Mathlib.Algebra.Order.Ring.Nat
import Mathlib.Data.List.Perm.Basic

/-! Two lists whose elements belong together, one to one, in whatever order the second one has. -/

namespace Matching

variable {α β : Type*} {M : α → β → Prop} {R : α → α → Prop} {S : β → β → Prop} {xs ys : List α}
  {us vs : List β} {u : β} {x : α}

/-- What is matched with two lists one after the other falls into two parts. -/
theorem forall₂_append (matched : List.Forall₂ M (xs ++ ys) us) :
    ∃ vs ws, us = vs ++ ws ∧ List.Forall₂ M xs vs ∧ List.Forall₂ M ys ws := by
  -- The elements of the first list are taken off one by one.
  induction xs generalizing us with
  | nil => exact ⟨[], us, rfl, List.Forall₂.nil, matched⟩
  | cons x xs ih =>
    obtain ⟨v, tail, here, rest, rfl⟩ := List.forall₂_cons_left_iff.mp matched
    obtain ⟨vs, ws, rfl, first, second⟩ := ih rest
    exact ⟨v :: vs, ws, rfl, List.Forall₂.cons here first, second⟩

/-- An element of the second list is matched with a place of the first. -/
theorem forall₂_around (matched : List.Forall₂ M xs (us ++ u :: vs)) :
    ∃ before x after, xs = before ++ x :: after ∧ List.Forall₂ M before us ∧ M x u ∧
      List.Forall₂ M after vs := by
  obtain ⟨before, rest, rfl, first, second⟩ := forall₂_append matched.flip
  obtain ⟨x, after, here, last, rfl⟩ := List.forall₂_cons_left_iff.mp second
  exact ⟨before, x, after, rfl, first.flip, here, last.flip⟩

/-- Every element of the second list is matched with one of the first. -/
theorem forall₂_right (matched : List.Forall₂ M xs us) (member : u ∈ us) : ∃ x ∈ xs, M x u := by
  obtain ⟨front, back, rfl⟩ := List.append_of_mem member
  obtain ⟨before, x, after, rfl, _, here, _⟩ := forall₂_around matched
  exact ⟨x, by simp, here⟩

/-- Every element of the first list is matched with one of the second. -/
theorem forall₂_left (matched : List.Forall₂ M xs us) (member : x ∈ xs) : ∃ u ∈ us, M x u :=
  forall₂_right matched.flip member

/-- What a list is mapped to, where no element fails, is matched with it. -/
theorem forall₂_mapM {f : α → Option β} (mapped : xs.mapM f = some us) :
    List.Forall₂ (fun x u => f x = some u) xs us := by
  -- The first element is mapped to the first result, and the rest to the rest.
  induction xs generalizing us with
  | nil =>
    rw [List.mapM_nil] at mapped
    cases mapped
    exact List.Forall₂.nil
  | cons x xs ih =>
    rw [List.mapM_cons] at mapped
    cases here : f x with
    | none => simp [here] at mapped
    | some u =>
      cases tail : xs.mapM f with
      | none => simp [here, tail] at mapped
      | some rest =>
        simp only [here, tail, Option.bind_eq_bind, Option.bind_some, Option.pure_def,
          Option.some.injEq] at mapped
        subst mapped
        exact List.Forall₂.cons here (ih tail)

/-- A list is mapped where no element fails. -/
theorem mapM_exists {f : α → Option β} (each : ∀ x ∈ xs, ∃ u, f x = some u) :
    ∃ us, xs.mapM f = some us := by
  induction xs with
  | nil => exact ⟨[], rfl⟩
  | cons x xs ih =>
    obtain ⟨u, here⟩ := each x List.mem_cons_self
    obtain ⟨us, tail⟩ := ih fun y member => each y (List.mem_cons_of_mem x member)
    exact ⟨u :: us, by rw [List.mapM_cons, here, tail]; rfl⟩

/-- Pairs of the first list that are related make their matches related. -/
theorem pairwise_forall₂ (pairs : xs.Pairwise R) (matched : List.Forall₂ M xs us)
    (carries : ∀ {x y u v}, R x y → M x u → M y v → S u v) : us.Pairwise S := by
  induction matched with
  | nil => exact List.Pairwise.nil
  | cons here rest ih =>
    obtain ⟨first, others⟩ := List.pairwise_cons.mp pairs
    refine List.pairwise_cons.mpr ⟨fun v member => ?_, ih others⟩
    obtain ⟨y, place, there⟩ := forall₂_right rest member
    exact carries (first y place) here there

/--
An element leaves a matching together with a partner of the user's choice.

Nothing in front of the element may have the partner as a match, and what has it behind the element
must be content with the one that the element leaves over.
-/
theorem forall₂_leave {live some more : List β} (matched : List.Forall₂ M (xs ++ x :: ys) us)
    (same : us.Perm live) (split : live = some ++ u :: more) (earlier : ∀ w ∈ xs, ¬ M w u)
    (later : ∀ w ∈ ys, M w u → ∀ v ∈ live, M x v → M w v) :
    ∃ vs, vs.Perm (some ++ more) ∧ List.Forall₂ M (xs ++ ys) vs := by
  obtain ⟨left, tail, rfl, first, second⟩ := forall₂_append matched
  obtain ⟨own, right, holds, rest, rfl⟩ := List.forall₂_cons_left_iff.mp second
  have moved : (own :: (left ++ right)).Perm (u :: (some ++ more)) := by
    rw [split] at same
    exact List.perm_middle.symm.trans (same.trans List.perm_middle)
  have listed : u ∈ own :: (left ++ right) := moved.mem_iff.mpr List.mem_cons_self
  rcases List.mem_cons.mp listed with equal | other
  · subst equal
    exact ⟨left ++ right, moved.cons_inv, List.rel_append first rest⟩
  rcases List.mem_append.mp other with inLeft | inRight
  · obtain ⟨w, place, has⟩ := forall₂_right first inLeft
    exact (earlier w place has).elim
  · -- A later element had the partner and takes over the other one.
    obtain ⟨here, there, rfl⟩ := List.append_of_mem inRight
    obtain ⟨ahead, w, behind, rfl, front, has, back⟩ := forall₂_around rest
    have content : M w own := later w (by simp) has own (same.mem_iff.mp (by simp)) holds
    refine ⟨left ++ (here ++ own :: there), ?_,
      List.rel_append first (List.rel_append front (List.Forall₂.cons content back))⟩
    have swap : (u :: (left ++ (here ++ own :: there))).Perm
        (own :: (left ++ (here ++ u :: there))) := by
      rw [← List.append_assoc, ← List.append_assoc]
      refine (List.perm_middle.cons u).trans ((List.Perm.swap own u _).trans ?_)
      exact List.perm_middle.symm.cons own
    exact (swap.trans moved).cons_inv

/-- The elements of a kind belong to those of the second list, one to one. -/
def Matched (kind : α → Bool) (M : α → β → Prop) (xs : List α) (live : List β) : Prop :=
  ∃ held, held.Perm live ∧ List.Forall₂ M (xs.filter kind) held

variable {kind : α → Bool} {live some more : List β} {before after front back : List α} {y z : α}

/-- Whatever is in the second list belongs to an element of the kind. -/
theorem Matched.holder (matched : Matched kind M xs live) (member : u ∈ live) :
    ∃ x ∈ xs, kind x = true ∧ M x u := by
  obtain ⟨held, same, fit⟩ := matched
  obtain ⟨x, place, holds⟩ := forall₂_right fit (same.mem_iff.mpr member)
  obtain ⟨present, has⟩ := List.mem_filter.mp place
  exact ⟨x, present, has, holds⟩

/-- An element of the kind has something that belongs to it. -/
theorem Matched.partner (matched : Matched kind M xs live) (member : x ∈ xs)
    (has : kind x = true) : ∃ u ∈ live, M x u := by
  obtain ⟨held, same, fit⟩ := matched
  obtain ⟨u, place, holds⟩ := forall₂_left fit (List.mem_filter.mpr ⟨member, has⟩)
  exact ⟨u, same.mem_iff.mp place, holds⟩

/-- There are as many elements of the kind as the second list has. -/
theorem Matched.count (matched : Matched kind M xs live) :
    (xs.filter kind).length = live.length := by
  obtain ⟨held, same, fit⟩ := matched
  exact fit.length_eq.trans same.length_eq

/-- A list without elements of the kind is matched with nothing. -/
theorem Matched.init (none : ∀ x ∈ xs, kind x = false) : Matched kind M xs [] := by
  have empty : xs.filter kind = [] := by simpa using none
  exact ⟨[], List.Perm.nil, empty ▸ List.Forall₂.nil⟩

/-- An element that was not of the kind gives way to one that is, with its partner. -/
theorem Matched.take (matched : Matched kind M (before ++ x :: after) live)
    (idle : kind x = false) (taken : kind y = true) (rest : ∀ z ∈ front, kind z = false)
    (fits : M y u) : Matched kind M (before ++ (y :: front) ++ after) (u :: live) := by
  -- The new partner goes where the new element stands.
  obtain ⟨held, same, fit⟩ := matched
  simp only [List.filter_append, List.filter_cons, idle, Bool.false_eq_true, if_false] at fit
  obtain ⟨left, right, rfl, first, second⟩ := forall₂_append fit
  refine ⟨left ++ u :: right, List.perm_middle.trans (same.cons u), ?_⟩
  have none : front.filter kind = [] := by simpa using rest
  simp only [List.filter_append, List.filter_cons, taken, if_true, none, List.append_assoc,
    List.cons_append, List.nil_append]
  exact List.rel_append first (List.Forall₂.cons fits second)

/-- An element of the kind gives way to one that is not, with a partner of the user's choice. -/
theorem Matched.release (matched : Matched kind M (before ++ (front ++ x :: back) ++ after) live)
    (taken : kind x = true) (idle : ∀ y ∈ front ++ back, kind y = false) (free : kind z = false)
    (split : live = some ++ u :: more) (earlier : ∀ w ∈ before, ¬ M w u)
    (later : ∀ w ∈ after, M w u → ∀ v ∈ live, M x v → M w v) :
    Matched kind M (before ++ z :: after) (some ++ more) := by
  -- Among the elements between, only the one given up is of the kind.
  obtain ⟨held, same, fit⟩ := matched
  have noneFront : front.filter kind = [] := by
    simpa using fun y member => idle y (List.mem_append_left back member)
  have noneBack : back.filter kind = [] := by
    simpa using fun y member => idle y (List.mem_append_right front member)
  simp only [List.filter_append, List.filter_cons, taken, if_true, noneFront, noneBack,
    List.nil_append, List.append_assoc, List.cons_append] at fit
  obtain ⟨left, fewer, rest⟩ := forall₂_leave fit same split
    (fun w member => earlier w (List.mem_filter.mp member).1)
    (fun w member => later w (List.mem_filter.mp member).1)
  refine ⟨left, fewer, ?_⟩
  simp only [List.filter_append, List.filter_cons, free, Bool.false_eq_true, if_false]
  exact rest

/-- An element of the kind gives way to another one that has a partner of its own. -/
theorem Matched.renew (matched : Matched kind M (before ++ (front ++ x :: back) ++ after) live)
    {run : List α} {v : β} (taken : kind x = true) (idle : ∀ y ∈ front ++ back, kind y = false)
    (free : kind z = false) (split : live = some ++ u :: more) (earlier : ∀ w ∈ before, ¬ M w u)
    (later : ∀ w ∈ after, M w u → ∀ v ∈ live, M x v → M w v) (held : kind y = true)
    (rest : ∀ w ∈ run, kind w = false) (fits : M y v) :
    Matched kind M (before ++ (y :: run) ++ after) (v :: (some ++ more)) :=
  -- For a moment an element that is not of the kind stands between the two.
  (matched.release taken idle free split earlier later).take free held rest fits

end Matching
