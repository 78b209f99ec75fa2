import Mathlib.Algebra.Order.Ring.Int
import Mathlib.Algebra.Order.Ring.Nat
import Mathlib.Data.List.Basic

/-! Elements written down in parts, one behind another, the small ones at the end or in place. -/

namespace Groups

section Loops

variable {α β : Type*} {f : List β → α → Option (List β)} {cut : α → Option (List β)}

/-- A loop that appends what each element gives has collected all of it. -/
theorem foldlM_appends (appends : ∀ out x, f out x = (cut x).map (out ++ ·)) (xs : List α)
    (out : List β) : xs.foldlM f out = (xs.mapM cut).map (out ++ ·.flatten) := by
  -- The induction is on the elements, for all that has been collected before.
  induction xs generalizing out with
  | nil => simp
  | cons x xs ih =>
    rw [List.foldlM_cons, appends]
    cases given : cut x with
    | none => simp [given]
    | some items =>
      cases rest : xs.mapM cut with
      | none => simp [given, ih, rest]
      | some lists => simp [given, ih, rest]

/-- A loop that appends what some elements give, and puts the others aside. -/
theorem foldlM_picks (appends : ∀ out x, f out x = (cut x).map (out ++ ·)) (large : α → Bool)
    (xs : List α) (out : List β) (aside : List α) :
    xs.foldlM (fun (out, aside) x =>
        if large x then (f out x).map (·, aside) else some (out, aside ++ [x])) (out, aside) =
      ((xs.filter large).mapM cut).map fun lists =>
        (out ++ lists.flatten, aside ++ xs.filter (!large ·)) := by
  -- As before, with a second list that grows where the first one does not.
  induction xs generalizing out aside with
  | nil => simp
  | cons x xs ih =>
    rw [List.foldlM_cons]
    cases is : large x with
    | false => simp [is, ih]
    | true =>
      simp only [if_true]
      rw [appends]
      cases given : cut x with
      | none => simp [is, given]
      | some items =>
        simp only [Option.map_some, Option.bind_eq_bind, Option.bind_some, ih]
        cases rest : (xs.filter large).mapM cut with
        | none => simp [is, given, rest]
        | some lists => simp [is, given, rest]

/-- Where every element gives something, all of it is collected. -/
theorem mapM_some {xs : List α} (given : ∀ x ∈ xs, (cut x).isSome) :
    xs.mapM cut = some (xs.map fun x => (cut x).getD []) := by
  induction xs with
  | nil => rfl
  | cons x xs ih =>
    obtain ⟨items, is⟩ := Option.isSome_iff_exists.mp (given x List.mem_cons_self)
    simp [is, ih fun y mem => given y (List.mem_cons_of_mem x mem)]

/-- What is collected has been given by every element. -/
theorem mapM_isSome {xs : List α} : (xs.mapM cut).isSome ↔ ∀ x ∈ xs, (cut x).isSome := by
  -- One element without a result leaves the whole list without one.
  constructor
  · intro some
    induction xs with
    | nil => exact fun _ mem => by cases mem
    | cons x xs ih =>
      cases given : cut x with
      | none => simp [given] at some
      | some items =>
        cases rest : xs.mapM cut with
        | none => simp [given, rest] at some
        | some lists => exact List.forall_mem_cons.mpr ⟨by simp [given], ih (by simp [rest])⟩
  · intro given
    simp [mapM_some given]

end Loops

variable {α β : Type*} (large : α → Bool) (parts : α → List β) (whole : α → β)

/-- The large elements in parts, and behind them the others as one item each. -/
def largeFirst (xs : List α) : List β :=
  (xs.filter large).flatMap parts ++ (xs.filter (!large ·)).map whole

/-- No large element stands behind one that is not. -/
def LargeAhead (xs : List α) : Prop := xs.Pairwise fun a b => large b = true → large a = true

variable {large parts} {xs : List α} {origin : β → Prop}

/-- Without large elements there is one item for each. -/
theorem largeFirst_small (parts : α → List β) (small : ∀ x ∈ xs, large x = false) :
    largeFirst large parts whole xs = xs.map whole := by
  -- The filter for large elements keeps none, the other one keeps all.
  have none : xs.filter large = [] := by
    rw [List.filter_eq_nil_iff]
    intro x mem
    rw [small x mem]
    exact Bool.false_ne_true
  have all : xs.filter (!large ·) = xs := by
    rw [List.filter_eq_self]
    intro x mem
    simp [small x mem]
  simp [largeFirst, none, all]

/-- A large element is written where it stands. -/
theorem largeFirst_large {x : α} (is : large x = true) :
    largeFirst large parts whole (x :: xs) = parts x ++ largeFirst large parts whole xs := by
  simp [largeFirst, is]

/-- There are at least as many items as elements, and more if one of them is large. -/
theorem length_largeFirst (several : ∀ x ∈ xs, large x = true → 2 ≤ (parts x).length) :
    xs.length + (xs.filter large).length ≤ (largeFirst large parts whole xs).length := by
  -- The induction is on the elements; a large one adds two items at least.
  induction xs with
  | nil => simp
  | cons x xs ih =>
    have rest := ih fun y mem => several y (List.mem_cons_of_mem x mem)
    cases is : large x with
    | true =>
      have two := several x List.mem_cons_self is
      rw [largeFirst_large whole is, List.filter_cons_of_pos is, List.length_append]
      simp only [List.length_cons]
      omega
    | false =>
      simp only [largeFirst, is, List.filter_cons, Bool.false_eq_true, if_false, Bool.not_false,
        if_true, List.map_cons, List.length_append, List.length_cons] at rest ⊢
      omega

/-- One item for each element is the right list exactly when none is large. -/
theorem map_eq_largeFirst_iff (several : ∀ x ∈ xs, large x = true → 2 ≤ (parts x).length) :
    xs.map whole = largeFirst large parts whole xs ↔ ∀ x ∈ xs, large x = false := by
  -- With a large element the right list is longer.
  constructor
  · intro same
    have more := length_largeFirst whole several
    rw [← same, List.length_map] at more
    have none : xs.filter large = [] := List.eq_nil_of_length_eq_zero (by omega)
    intro x mem
    simpa using List.filter_eq_nil_iff.mp none x mem
  · exact fun small => (largeFirst_small whole parts small).symm

/--
The parts of the elements, with a mark on the first part of each and not on the second.

It keeps the parts of a large element from being taken for the first parts of others.
-/
structure Marked (large : α → Bool) (parts : α → List β) (origin : β → Prop) (xs : List α) :
    Prop where
  several : ∀ x ∈ xs, large x = true →
    ∃ first second rest, parts x = first :: second :: rest ∧ origin first ∧ ¬ origin second
  single : ∀ x ∈ xs, large x = false → ∃ only, parts x = [only] ∧ origin only

namespace Marked

theorem of_cons {x : α} (marked : Marked large parts origin (x :: xs)) :
    Marked large parts origin xs :=
  ⟨fun y mem => marked.several y (List.mem_cons_of_mem x mem),
    fun y mem => marked.single y (List.mem_cons_of_mem x mem)⟩

/-- Every element has a first part, with the mark on it. -/
theorem head (marked : Marked large parts origin xs) {x : α} (mem : x ∈ xs) :
    ∃ first rest, parts x = first :: rest ∧ origin first := by
  cases is : large x with
  | true =>
    obtain ⟨first, second, rest, cut, on, _⟩ := marked.several x mem is
    exact ⟨first, second :: rest, cut, on⟩
  | false =>
    obtain ⟨only, cut, on⟩ := marked.single x mem is
    exact ⟨only, [], cut, on⟩

/-- A small element in front leaves no room for a large one behind it. -/
theorem front {x : α} (marked : Marked large parts origin (x :: xs)) (is : large x = false)
    (same : (x :: xs).flatMap parts = largeFirst large parts whole (x :: xs)) :
    ∀ y ∈ xs, large y = false := by
  by_contra some
  push Not at some
  obtain ⟨y, mem, huge⟩ := some
  obtain ⟨only, part, _⟩ := marked.single x List.mem_cons_self is
  cases ahead : xs.filter large with
  | nil => exact huge (by simpa using List.filter_eq_nil_iff.mp ahead y mem)
  | cons z zs =>
    have among : z ∈ xs.filter large := ahead ▸ List.mem_cons_self
    obtain ⟨member, is'⟩ := List.mem_filter.mp among
    obtain ⟨first, second, more, cut, _, off⟩ :=
      marked.several z (List.mem_cons_of_mem x member) is'
    rw [largeFirst, List.filter_cons_of_neg (by simp [is]), ahead, List.flatMap_cons,
      List.flatMap_cons, part, cut] at same
    -- Behind the only part comes the first part of an element, and not a second one.
    obtain ⟨_, next⟩ := List.cons.inj same
    cases xs with
    | nil => cases mem
    | cons w ws =>
      obtain ⟨item, left, start, on⟩ := marked.of_cons.head List.mem_cons_self
      rw [List.flatMap_cons, start] at next
      exact off ((List.cons.inj next).1 ▸ on)

end Marked

/--
All elements in parts, in their order, are the right list exactly when the large ones stand ahead
and the others have the item as their only part.
-/
theorem flatMap_eq_largeFirst_iff (marked : Marked large parts origin xs) :
    xs.flatMap parts = largeFirst large parts whole xs ↔
      LargeAhead large xs ∧ ∀ x ∈ xs, large x = false → parts x = [whole x] := by
  -- The induction is on the elements; from the first small one on nothing may be large.
  induction xs with
  | nil => simp [largeFirst, LargeAhead]
  | cons x xs ih =>
    have tail := ih marked.of_cons
    cases is : large x with
    | true =>
      rw [largeFirst_large whole is, List.flatMap_cons, List.append_cancel_left_eq, tail]
      simp [LargeAhead, is]
    | false =>
      obtain ⟨only, part, _⟩ := marked.single x List.mem_cons_self is
      constructor
      · intro same
        have small := marked.front whole is same
        have every : ∀ y ∈ x :: xs, large y = false := List.forall_mem_cons.mpr ⟨is, small⟩
        rw [largeFirst_small whole parts every, List.flatMap_cons, part, List.map_cons] at same
        obtain ⟨rfl, rest⟩ := List.cons.inj same
        have others := (tail.mp (rest.trans (largeFirst_small whole parts small).symm)).2
        refine ⟨List.pairwise_of_forall_mem_list fun y _ z mem huge => ?_,
          List.forall_mem_cons.mpr ⟨fun _ => part, others⟩⟩
        rw [every z mem] at huge
        cases huge
      · rintro ⟨ahead, one⟩
        have small : ∀ y ∈ x :: xs, large y = false := by
          intro y mem
          rcases List.mem_cons.mp mem with rfl | later
          · exact is
          · cases huge : large y with
            | false => rfl
            | true => exact absurd ((List.pairwise_cons.mp ahead).1 y later huge) (by simp [is])
        rw [largeFirst_small whole parts small, List.map_eq_flatMap, List.flatMap_def,
          List.flatMap_def, List.map_congr_left fun y mem => one y mem (small y mem)]

end Groups
