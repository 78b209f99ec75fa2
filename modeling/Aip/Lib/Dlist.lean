import Mathlib.Algebra.Order.Ring.Int
import Mathlib.Algebra.Order.Ring.Nat
import Mathlib.Data.List.Chain
import Mathlib.Data.List.Perm.Subperm

/-! Doubly linked lists on a heap of nodes, and the sequence that the links of such a list spell. -/

namespace Dlist

/-- A node carries a value and the addresses of its neighbours. -/
structure Node (α : Type*) where
  val : α
  prev : Option Nat
  next : Option Nat
  deriving DecidableEq, Repr

/-- A heap of nodes by address, in which released addresses stay empty. -/
abbrev Arena (α : Type*) := List (Option (Node α))

variable {α : Type*}

/-- The node at an address, if there is one. -/
def look (heap : Arena α) (p : Nat) : Option (Node α) := heap[p]?.join

/-- The heap after a write to the node at an address. -/
def update (heap : Arena α) (p : Nat) (write : Node α → Node α) : Arena α :=
  heap.modify p (Option.map write)

/-- The heap without the node at an address. -/
def release (heap : Arena α) (p : Nat) : Arena α := heap.set p none

/-- The heap with a new node behind all others. -/
def create (heap : Arena α) (node : Node α) : Arena α := heap ++ [some node]

/-- The address of the first entry, or what follows the list when there is none. -/
def first (cells : List (Nat × α)) (after : Option Nat) : Option Nat :=
  (cells.head?.map Prod.fst).or after

/-- The address of the last entry, or what precedes the list when there is none. -/
def last (cells : List (Nat × α)) (before : Option Nat) : Option Nat :=
  (cells.getLast?.map Prod.fst).or before

/-- The list in which the entry at an address is replaced by others. -/
def replaced (cells : List (Nat × α)) (p : Nat) (others : Nat × α → List (Nat × α)) :
    List (Nat × α) :=
  cells.flatMap fun x => if x.1 = p then others x else [x]

/-- The links of the heap spell the entries in their order, between two outer neighbours. -/
def Linked (heap : Arena α) : Option Nat → List (Nat × α) → Option Nat → Prop
  | _, [], _ => True
  | before, (p, a) :: rest, after =>
    look heap p = some ⟨a, before, first rest after⟩ ∧ Linked heap (some p) rest after

variable {heap other : Arena α} {p q : Nat} {a b : α} {node : Node α} {write : Node α → Node α}
  {before after : Option Nat} {xs ys : List (Nat × α)}

@[simp] theorem first_nil : first ([] : List (Nat × α)) after = after := rfl

@[simp] theorem first_cons : first ((p, a) :: xs) after = some p := rfl

@[simp] theorem last_nil : last ([] : List (Nat × α)) before = before := rfl

@[simp] theorem last_concat : last (xs ++ [(p, a)]) before = some p := by
  simp [last]

/-- The first address of a joined list is that of its front part, if it has one. -/
theorem first_append : first (xs ++ ys) after = first xs (first ys after) := by
  cases xs with
  | nil => rfl
  | cons x xs => cases x; rfl

/-- The last address of a joined list is that of its back part, if it has one. -/
theorem last_append : last (xs ++ ys) before = last ys (last xs before) := by
  cases ys using List.reverseRecOn with
  | nil => simp
  | append_singleton ys y =>
    cases y
    rw [← List.append_assoc, last_concat, last_concat]

/-- A list with a first entry ends in the same place whatever precedes it. -/
theorem last_cons : last ((p, a) :: xs) before = last xs (some p) := by
  rw [← List.singleton_append, last_append]
  rfl

/-- Only nodes below the end of the heap can be read. -/
theorem look_lt (found : look heap p = some node) : p < heap.length := by
  by_contra beyond
  rw [look, List.getElem?_eq_none (by omega)] at found
  cases found

/-- A write changes the node it is addressed to and no other. -/
theorem look_update : look (update heap p write) q =
    if q = p then (look heap q).map write else look heap q := by
  simp only [look, update, List.getElem?_modify]
  by_cases same : q = p
  · subst same
    cases heap[q]? <;> simp
  · simp only [if_neg same, if_neg (Ne.symm same)]
    cases heap[q]? <;> rfl

/-- A released address is empty, and the others are as they were. -/
theorem look_release : look (release heap p) q = if q = p then none else look heap q := by
  simp only [look, release, List.getElem?_set]
  by_cases same : q = p
  · subst same
    by_cases inside : q < heap.length <;> simp [inside]
  · rw [if_neg same, if_neg (Ne.symm same)]

/-- A new node is found at the end of the heap, and the others are as they were. -/
theorem look_create : look (create heap node) q =
    if q = heap.length then some node else look heap q := by
  -- The heap grows at its end, so an address is old, new or out of it.
  simp only [look, create]
  by_cases same : q = heap.length
  · subst same
    simp
  · rw [if_neg same]
    by_cases inside : q < heap.length
    · rw [List.getElem?_append_left inside]
    · rw [List.getElem?_eq_none (by simp; omega), List.getElem?_eq_none (by omega)]

/-- Nodes that read the same spell the same entries. -/
theorem Linked.congr (linked : Linked heap before xs after)
    (same : ∀ x ∈ xs, look other x.1 = look heap x.1) : Linked other before xs after := by
  -- The entries are read one by one.
  induction xs generalizing before with
  | nil => trivial
  | cons x xs ih =>
    obtain ⟨p, a⟩ := x
    obtain ⟨here, rest⟩ := linked
    refine ⟨(same (p, a) List.mem_cons_self).trans here, ih rest ?_⟩
    exact fun x member => same x (List.mem_cons_of_mem _ member)

/-- A joined list is spelled when both parts are and the links across the seam agree. -/
theorem linked_append : Linked heap before (xs ++ ys) after ↔
    Linked heap before xs (first ys after) ∧ Linked heap (last xs before) ys after := by
  -- The induction hands the address of each entry on as what precedes the next one.
  induction xs generalizing before with
  | nil => simp [Linked]
  | cons x xs ih =>
    obtain ⟨p, a⟩ := x
    simp only [List.cons_append, Linked, first_append, ih, last_cons, and_assoc]

/-- An entry inside a list is linked to the last one in front and the first one behind. -/
theorem linked_around : Linked heap before (xs ++ (p, a) :: ys) after ↔
    Linked heap before xs (some p) ∧
      look heap p = some ⟨a, last xs before, first ys after⟩ ∧ Linked heap (some p) ys after := by
  rw [linked_append]
  rfl

/-- A write to a node that is not on the list leaves the list alone. -/
theorem Linked.away (linked : Linked heap before xs after) (fresh : ∀ x ∈ xs, x.1 ≠ p) :
    Linked (update heap p write) before xs after := by
  apply linked.congr
  intro x member
  rw [look_update, if_neg (fresh x member)]

/-- What the list ends with may be redirected by a write to its last node. -/
theorem Linked.redirect_next (linked : Linked heap before (xs ++ [(p, a)]) after)
    (fresh : ∀ x ∈ xs, x.1 ≠ p) (target : Option Nat) :
    Linked (update heap p fun n => { n with next := target }) before (xs ++ [(p, a)]) target := by
  -- Only the last node is written to.
  obtain ⟨front, here, _⟩ := linked_around.mp linked
  refine linked_around.mpr ⟨front.away fresh, ?_, trivial⟩
  rw [look_update, if_pos rfl, here]
  rfl

/-- What the list starts after may be redirected by a write to its first node. -/
theorem Linked.redirect_prev (linked : Linked heap before ((p, a) :: xs) after)
    (fresh : ∀ x ∈ xs, x.1 ≠ p) (target : Option Nat) :
    Linked (update heap p fun n => { n with prev := target }) target ((p, a) :: xs) after := by
  -- Only the first node is written to.
  obtain ⟨here, back⟩ := linked
  refine ⟨?_, back.away fresh⟩
  rw [look_update, if_pos rfl, here]
  rfl

/-- Distinct addresses on both sides of an entry are distinct from its own. -/
theorem distinct_around (distinct : ((xs ++ (p, a) :: ys).map Prod.fst).Nodup) :
    (∀ x ∈ xs, x.1 ≠ p) ∧ (∀ y ∈ ys, y.1 ≠ p) ∧ ∀ x ∈ xs, ∀ y ∈ ys, x.1 ≠ y.1 := by
  -- The addresses are split where the entry stands.
  rw [List.map_append, List.nodup_append] at distinct
  obtain ⟨_, behind, across⟩ := distinct
  refine ⟨fun x member => ?_, fun y member same => ?_, fun x left y right => ?_⟩
  · exact across x.1 (List.mem_map_of_mem member) p (by simp)
  · have present := List.mem_map_of_mem (f := Prod.fst) member
    rw [same] at present
    exact (List.nodup_cons.mp behind).1 present
  · exact across x.1 (List.mem_map_of_mem left) y.1 (by simp [List.mem_map_of_mem right])

/-- Distinct addresses behind the first entry are distinct from its own. -/
theorem distinct_behind (distinct : (((p, a) :: xs).map Prod.fst).Nodup) : ∀ x ∈ xs, x.1 ≠ p := by
  intro x member same
  apply (List.nodup_cons.mp distinct).1
  exact List.mem_map.mpr ⟨x, member, same⟩

/-- A new address may be put in front of distinct ones. -/
theorem distinct_front (distinct : (xs.map Prod.fst).Nodup) (fresh : ∀ x ∈ xs, x.1 ≠ q) :
    (((q, b) :: xs).map Prod.fst).Nodup := by
  refine List.nodup_cons.mpr ⟨fun present => ?_, distinct⟩
  obtain ⟨x, member, same⟩ := List.mem_map.mp present
  exact fresh x member same

/-- A new address may be put anywhere into a list with distinct addresses. -/
theorem distinct_insert (distinct : ((xs ++ ys).map Prod.fst).Nodup)
    (fresh : ∀ x ∈ xs ++ ys, x.1 ≠ q) : ((xs ++ (q, b) :: ys).map Prod.fst).Nodup := by
  -- Up to order, the new address stands in front.
  exact ((List.perm_middle.map Prod.fst).nodup_iff).mpr (distinct_front distinct fresh)

/-- An address may be taken out of a list with distinct addresses. -/
theorem distinct_remove (distinct : ((xs ++ (q, b) :: ys).map Prod.fst).Nodup) :
    ((xs ++ ys).map Prod.fst).Nodup := by
  have shorter := (List.Sublist.refl xs).append (List.sublist_cons_self (q, b) ys)
  exact List.Nodup.sublist (shorter.map Prod.fst) distinct

/-- A list that does not have the address is left as it is. -/
theorem replaced_away {others : Nat × α → List (Nat × α)} (away : ∀ x ∈ xs, x.1 ≠ p) :
    replaced xs p others = xs := by
  induction xs with
  | nil => rfl
  | cons x xs ih =>
    -- The first entry is kept, and so are those behind it.
    have rest : replaced xs p others = xs := ih fun y member => away y (by simp [member])
    rw [replaced, List.flatMap_cons, if_neg (away x List.mem_cons_self)]
    exact congrArg (x :: ·) rest

/-- The entry at an address is replaced where it stands. -/
theorem replaced_around {others : Nat × α → List (Nat × α)}
    (distinct : ((xs ++ (p, a) :: ys).map Prod.fst).Nodup) :
    replaced (xs ++ (p, a) :: ys) p others = xs ++ others (p, a) ++ ys := by
  -- No other entry has the address.
  obtain ⟨front, back, _⟩ := distinct_around distinct
  have kept : replaced xs p others = xs := replaced_away front
  have rest : replaced ys p others = ys := replaced_away back
  calc replaced (xs ++ (p, a) :: ys) p others
      = replaced xs p others ++ (others (p, a) ++ replaced ys p others) := by simp [replaced]
    _ = xs ++ others (p, a) ++ ys := by rw [kept, rest, List.append_assoc]

/-- A linked list with distinct addresses has no more entries than the heap has cells. -/
theorem Linked.length_le (linked : Linked heap before xs after)
    (distinct : (xs.map Prod.fst).Nodup) : xs.length ≤ heap.length := by
  -- Every entry is read at an address below the end of the heap.
  have below : xs.map Prod.fst ⊆ List.range heap.length := by
    intro p member
    obtain ⟨x, place, rfl⟩ := List.mem_map.mp member
    obtain ⟨front, back, rfl⟩ := List.append_of_mem place
    exact List.mem_range.mpr (look_lt (linked_around.mp linked).2.1)
  have counted := (distinct.subperm below).length_le
  simpa using counted

end Dlist
