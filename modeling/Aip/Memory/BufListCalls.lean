import Aip.Memory.BufList

/-! What each operation on a buffer list does to its nodes, and the two ends it does not serve. -/

namespace Aip

open Dlist

namespace BufList

/-- A call of an operation that changes the list, with the nodes it is handed. -/
inductive ListCall where
  | addHead (node : Nat)
  | addTail (node : Nat)
  | insertAfter (current node : Nat)
  | insertBefore (current node : Nat)
  | removeNode (node : Nat)
  deriving DecidableEq, Repr

/-- The list after a call, unless the call crashes. -/
def perform (list : BufList) : ListCall → Option BufList
  | .addHead node => list.addHead node
  | .addTail node => list.addTail node
  | .insertAfter current node => list.insertAfter current node
  | .insertBefore current node => list.insertBefore current node
  | .removeNode node => list.removeNode node

/-- The entry of a node that stands on the heap. -/
def entry (list : BufList) (node : Nat) : List (Nat × Buf) :=
  ((Dlist.look list.heap node).map fun n => (node, n.val)).toList

/-- The sequence of nodes that a call is asked for. -/
def asked (list : BufList) (cells : List (Nat × Buf)) : ListCall → List (Nat × Buf)
  | .addHead node => list.entry node ++ cells
  | .addTail node => cells ++ list.entry node
  | .insertAfter current node => replaced cells current fun x => x :: list.entry node
  | .insertBefore current node => replaced cells current fun x => list.entry node ++ [x]
  | .removeNode node => replaced cells node fun _ => []

/-- The node is one of the list. -/
def Member (cells : List (Nat × Buf)) (node : Nat) : Prop := ∃ x ∈ cells, x.1 = node

/-- The node stands on the heap and is not on the list. -/
def Fresh (list : BufList) (cells : List (Nat × Buf)) (node : Nat) : Prop :=
  (Dlist.look list.heap node).isSome ∧ ∀ x ∈ cells, x.1 ≠ node

/-- A call is about members of the list, and hands in a node that is not on it yet. -/
def Permitted (list : BufList) (cells : List (Nat × Buf)) : ListCall → Prop
  | .addHead node | .addTail node => Fresh list cells node
  | .insertAfter current node | .insertBefore current node =>
    Member cells current ∧ Fresh list cells node
  | .removeNode node => Member cells node

/-- The call leaves a list that consists of the nodes it is asked for. -/
def Lists (list : BufList) (cells : List (Nat × Buf)) (call : ListCall) : Prop :=
  ∃ after, list.perform call = some after ∧ Holds after (list.asked cells call)

/-- The call finds a node at the end it works on, and leaves one on the list. -/
def Anchored (cells : List (Nat × Buf)) : ListCall → Prop
  | .addHead _ | .addTail _ => cells ≠ []
  | .insertAfter _ _ | .insertBefore _ _ => True
  | .removeNode _ => cells.length ≠ 1

variable {list : BufList} {xs ys cells : List (Nat × Buf)} {p q : Nat} {a b : Buf} {node : BufNode}

/-- A fresh node has an entry. -/
theorem Fresh.entry (fresh : Fresh list cells q) :
    ∃ node, Dlist.look list.heap q = some node ∧ list.entry q = [(q, node.val)] := by
  -- The node stands on the heap, and its entry is read from there.
  obtain ⟨node, found⟩ := Option.isSome_iff_exists.mp fresh.1
  refine ⟨node, found, ?_⟩
  rw [BufList.entry, found]
  rfl

/-- A member stands somewhere on the list. -/
theorem Member.split (member : Member cells p) : ∃ xs a ys, cells = xs ++ (p, a) :: ys := by
  obtain ⟨x, inside, rfl⟩ := member
  obtain ⟨xs, ys, rfl⟩ := List.append_of_mem inside
  exact ⟨xs, x.2, ys, rfl⟩

/-- A node is put in front of the head. -/
theorem Holds.addHead (holds : Holds list ((p, a) :: ys)) (found : Dlist.look list.heap q = some node)
    (fresh : ∀ x ∈ (p, a) :: ys, x.1 ≠ q) :
    ∃ after, list.addHead q = some after ∧ Holds after ((q, node.val) :: (p, a) :: ys) := by
  have pq : p ≠ q := fresh (p, a) (by simp)
  have back := distinct_behind holds.distinct
  have there : Dlist.look list.heap p = some ⟨a, none, first ys none⟩ := holds.linked.1
  have head : list.head = some p := holds.head
  have ends : list.tail = last ((q, node.val) :: (p, a) :: ys) none := by
    rw [holds.tail, last_cons, last_cons, last_cons]
  have distinct : (((q, node.val) :: (p, a) :: ys).map Prod.fst).Nodup :=
    distinct_front holds.distinct fresh
  -- The new node is written twice before the old head is told about it.
  refine ⟨⟨update (update (update list.heap q fun n => { n with prev := none }) q
    fun n => { n with next := some p }) p fun n => { n with prev := some q }, some q, list.tail⟩, by
    simp [BufList.addHead, head, setNext, setPrev, store, look_update, found, there, pq],
    ⟨rfl, ends, ⟨?_, ?_⟩, distinct⟩⟩
  · simp [look_update, found, pq.symm]
  · exact ((holds.linked.away fresh).away fresh).redirect_prev back _

/-- A node is put behind the tail, as if it were inserted after it. -/
theorem Holds.addTail (holds : Holds list (xs ++ [(p, a)])) (found : Dlist.look list.heap q = some node)
    (fresh : ∀ x ∈ xs ++ [(p, a)], x.1 ≠ q) :
    ∃ after, list.addTail q = some after ∧ Holds after (xs ++ [(p, a), (q, node.val)]) := by
  -- The tail has no node behind it, so inserting there hands the node on.
  have same : list.insertAfter p q = list.addTail q := by
    rw [BufList.insertAfter, holds.look]
    rfl
  rw [← same]
  exact holds.insertAfter found fresh

/-- Inserting before a node puts the new one in front of it. -/
theorem Holds.insertBefore (holds : Holds list (xs ++ (p, a) :: ys))
    (found : Dlist.look list.heap q = some node) (fresh : ∀ x ∈ xs ++ (p, a) :: ys, x.1 ≠ q) :
    ∃ after, list.insertBefore p q = some after ∧
      Holds after (xs ++ (q, node.val) :: (p, a) :: ys) := by
  cases xs using List.reverseRecOn with
  | nil =>
    -- In front of the head, the node becomes the head.
    have same : list.insertBefore p q = list.addHead q := by
      rw [BufList.insertBefore, holds.look]
      rfl
    rw [same]
    exact holds.addHead found fresh
  | append_singleton zs z =>
    -- Elsewhere the same four links are written as for the node in front.
    obtain ⟨r, c⟩ := z
    have around : Holds list (zs ++ (r, c) :: (p, a) :: ys) := by simpa using holds
    have same : list.insertBefore p q = list.insertAfter r q := by
      rw [BufList.insertBefore, holds.look, BufList.insertAfter, around.look, last_concat]
      rfl
    obtain ⟨after, inserted, kept⟩ := around.insertAfter found fun x member =>
      fresh x (by simpa using member)
    refine ⟨after, same.trans inserted, ?_⟩
    simpa using kept

/-- The head is unlinked from the node behind it. -/
theorem Holds.unlinkHead (holds : Holds list ((p, a) :: (q, b) :: ys)) :
    ∃ after, list.removeNode p = some after ∧ Holds after ((q, b) :: ys) := by
  have head : list.head = some p := holds.head
  obtain ⟨here, there, behind⟩ := holds.linked
  have distinct : (((q, b) :: ys).map Prod.fst).Nodup := (List.nodup_cons.mp holds.distinct).2
  have back := distinct_behind distinct
  -- Only the new head is written to.
  refine ⟨⟨update list.heap q fun n => { n with prev := none }, some q, list.tail⟩, by
    simp [BufList.removeNode, head, removeHead, here, setPrev, store, there],
    rfl, ?_, ?_, distinct⟩
  · rw [holds.tail, last_cons, last_cons, last_cons]
  · exact Linked.redirect_prev ⟨there, behind⟩ back none

/-- A member of a list of two or more is unlinked. -/
theorem Holds.unlink (holds : Holds list (xs ++ (p, a) :: ys)) (more : xs ++ ys ≠ []) :
    ∃ after, list.removeNode p = some after ∧ Holds after (xs ++ ys) := by
  cases xs using List.reverseRecOn with
  | nil =>
    cases ys with
    | nil => exact absurd rfl more
    | cons y ys => exact holds.unlinkHead
  | append_singleton zs z =>
    -- Behind the head, the node in front is redirected.
    obtain ⟨r, c⟩ := z
    have around : Holds list (zs ++ (r, c) :: (p, a) :: ys) := by simpa using holds
    obtain ⟨after, removed, kept⟩ := around.unlinkNode
    exact ⟨after, removed, by simpa using kept⟩

/-- The only node of a list cannot be unlinked: the node behind it is followed without a check. -/
theorem Holds.unlink_only (holds : Holds list [(p, a)]) : list.removeNode p = none := by
  have head : list.head = some p := holds.head
  have here : Dlist.look list.heap p = some ⟨a, none, none⟩ := holds.linked.1
  simp [BufList.removeNode, head, removeHead, here]

/-- A node put in front of an empty list is left off it. -/
theorem Holds.addHead_empty (holds : Holds list []) {after : BufList}
    (added : list.addHead q = some after) : after.head = none := by
  -- The list is set up with the null head it had.
  have head : list.head = none := holds.head
  rw [BufList.addHead, setPrev, store] at added
  cases found : Dlist.look list.heap q with
  | none => simp [found] at added
  | some node =>
    simp only [found, head, Option.bind_eq_bind, Option.bind_some, Option.pure_def] at added
    rw [← Option.some.inj added]
    rfl

/-- The only node of a list, and an empty list at its ends, are not served. -/
theorem Holds.unanchored (holds : Holds list cells) {call : ListCall}
    (permitted : Permitted list cells call) (loose : ¬ Anchored cells call) :
    ¬ Lists list cells call := by
  rintro ⟨after, performed, kept⟩
  cases call with
  | addHead node =>
    -- The list has no head afterwards, although the node was to be it.
    have empty : cells = [] := not_not.mp loose
    subst empty
    obtain ⟨_, _, entry⟩ := permitted.entry
    have head : after.head = some node := by rw [kept.head, asked, entry]; rfl
    rw [holds.addHead_empty performed] at head
    cases head
  | addTail node =>
    -- There is no tail to hang the node on.
    have empty : cells = [] := not_not.mp loose
    subst empty
    have tail : list.tail = none := holds.tail
    simp [perform, BufList.addTail, tail] at performed
  | insertAfter current node => exact loose trivial
  | insertBefore current node => exact loose trivial
  | removeNode node =>
    have single : cells.length = 1 := not_not.mp loose
    obtain ⟨⟨p, a⟩, rfl⟩ := List.length_eq_one_iff.mp single
    obtain ⟨x, inside, rfl⟩ := permitted
    rw [List.mem_singleton.mp inside, perform, holds.unlink_only] at performed
    cases performed

/-- A call that finds a node to work on leaves the list it is asked for. -/
theorem Holds.anchored (holds : Holds list cells) {call : ListCall}
    (permitted : Permitted list cells call) (anchored : Anchored cells call) :
    Lists list cells call := by
  cases call with
  | addHead node =>
    obtain ⟨n, found, entry⟩ := permitted.entry
    rw [Lists, asked, entry]
    cases cells with
    | nil => exact absurd rfl anchored
    | cons x cells => exact holds.addHead found permitted.2
  | addTail node =>
    obtain ⟨n, found, entry⟩ := permitted.entry
    rw [Lists, asked, entry]
    cases cells using List.reverseRecOn with
    | nil => exact absurd rfl anchored
    | append_singleton xs x =>
      obtain ⟨after, added, kept⟩ := holds.addTail found permitted.2
      exact ⟨after, added, by simpa using kept⟩
  | insertAfter current node =>
    -- The entry of the current node is replaced by itself and the new one.
    obtain ⟨n, found, entry⟩ := permitted.2.entry
    obtain ⟨xs, a, ys, rfl⟩ := permitted.1.split
    rw [Lists, asked, entry, replaced_around holds.distinct]
    obtain ⟨after, inserted, kept⟩ := holds.insertAfter found permitted.2.2
    exact ⟨after, inserted, by simpa using kept⟩
  | insertBefore current node =>
    obtain ⟨n, found, entry⟩ := permitted.2.entry
    obtain ⟨xs, a, ys, rfl⟩ := permitted.1.split
    rw [Lists, asked, entry, replaced_around holds.distinct]
    obtain ⟨after, inserted, kept⟩ := holds.insertBefore found permitted.2.2
    exact ⟨after, inserted, by simpa using kept⟩
  | removeNode node =>
    -- The entry of the node is replaced by nothing.
    obtain ⟨xs, a, ys, rfl⟩ := Member.split permitted
    rw [Lists, asked, replaced_around holds.distinct]
    have more : xs ++ ys ≠ [] := by
      intro empty
      obtain ⟨rfl, rfl⟩ := List.append_eq_nil_iff.mp empty
      exact anchored rfl
    obtain ⟨after, removed, kept⟩ := holds.unlink more
    exact ⟨after, removed, by simpa using kept⟩

/-- A call leaves the list it is asked for exactly when it finds a node to work on: the ends of an
empty list and the only node of a list are not served. -/
theorem lists_iff (holds : Holds list cells) (call : ListCall)
    (permitted : Permitted list cells call) :
    Lists list cells call ↔ Anchored cells call := by
  refine ⟨fun done => ?_, holds.anchored permitted⟩
  by_contra loose
  exact holds.unanchored permitted loose done

/-- A free buffer of no bytes, for the concrete lists below. -/
def blank : Buf := ⟨0, 0, 0, 0, 0, 0, .free⟩

/-- A heap of two nodes, of which the first is the only one on the list. -/
def single : BufList := ⟨[some ⟨blank, none, none⟩, some ⟨blank, none, none⟩], some 0, some 0⟩

/-- The second node is inserted after the only one on the list. -/
theorem lists_single : Lists single [(0, blank)] (.insertAfter 0 1) := by
  have holds : Holds single [(0, blank)] := ⟨rfl, rfl, ⟨rfl, trivial⟩, by simp⟩
  exact (lists_iff holds (.insertAfter 0 1)
    ⟨⟨(0, blank), by simp, rfl⟩, rfl, by simp⟩).mpr trivial

/-- An empty list next to a node on the heap. -/
def vacant : BufList := ⟨[some ⟨blank, none, none⟩], none, none⟩

/-- The empty list is well formed and the call is permitted, but the node that is put in front of
the list is left off it. -/
theorem addHead_lost : Holds vacant [] ∧ Permitted vacant [] (.addHead 0) ∧
    ¬ Lists vacant [] (.addHead 0) := by
  refine ⟨⟨rfl, rfl, trivial, by simp⟩, ⟨rfl, by simp⟩, ?_⟩
  rintro ⟨after, performed, kept⟩
  -- The list comes back as it was, with a null head.
  have same : after = vacant := (Option.some.inj performed).symm
  have head := kept.head
  rw [same] at head
  cases head

end BufList

end Aip
