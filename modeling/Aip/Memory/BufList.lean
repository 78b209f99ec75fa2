import Aip.Lib.Dlist

/-! The buffer list of the on-chip memory, `buf_list.cc`: nodes with links on the C heap. -/

namespace Aip

open Dlist

/-- `BufStatus_t`. -/
inductive BufStatus where
  | free
  | busy
  deriving DecidableEq, Repr

/-- The fields of a `BufNode` other than its links. -/
structure Buf where
  va : Nat
  pa : Nat
  usrVa : Nat
  usrPa : Nat
  offset : Int
  length : Nat
  status : BufStatus
  deriving DecidableEq, Repr

/-- `BufNode`. -/
abbrev BufNode := Node Buf

/-- `BufList` together with the heap that its nodes live on. -/
structure BufList where
  heap : Arena Buf
  head : Option Nat
  tail : Option Nat
  deriving DecidableEq, Repr

namespace BufList

/-- A write through a pointer, which crashes where there is no node. -/
def store (list : BufList) (node : Nat) (write : BufNode → BufNode) : Option BufList :=
  match look list.heap node with
  | none => none
  | some _ => some { list with heap := update list.heap node write }

/-- `node->prev = prev`. -/
def setPrev (list : BufList) (node : Nat) (prev : Option Nat) : Option BufList :=
  list.store node fun n => { n with prev := prev }

/-- `node->next = next`. -/
def setNext (list : BufList) (node : Nat) (next : Option Nat) : Option BufList :=
  list.store node fun n => { n with next := next }

/-- Assignments to other fields of a node. -/
def setBuf (list : BufList) (node : Nat) (write : Buf → Buf) : Option BufList :=
  list.store node fun n => { n with val := write n.val }

/-- `create_bufnode` and the assignments to all fields but the links. -/
def createNode (list : BufList) (buf : Buf) : BufList :=
  { list with heap := create list.heap ⟨buf, none, none⟩ }

/-- `delete_bufnode`. -/
def deleteNode (list : BufList) (node : Nat) : BufList :=
  { list with heap := release list.heap node }

/-- `buflist_init`. -/
def init (list : BufList) (head : Option Nat) : BufList := { list with head := head, tail := head }

/-- `buflist_add_head`. -/
def addHead (list : BufList) (node : Nat) : Option BufList := do
  let list ← list.setPrev node none
  match list.head with
  -- The list is set up with its own null head, and the node is not put on it.
  | none => return list.init list.head
  | some head =>
    let list ← list.setNext node (some head)
    let list ← list.setPrev head (some node)
    return { list with head := some node }

/-- `buflist_add_tail`. -/
def addTail (list : BufList) (node : Nat) : Option BufList := do
  let tail ← list.tail
  let list ← list.setNext tail (some node)
  let list ← list.setPrev node (some tail)
  let list ← list.setNext node none
  return { list with tail := some node }

/-- `buflist_insert_after`. -/
def insertAfter (list : BufList) (current node : Nat) : Option BufList := do
  let n ← look list.heap current
  match n.next with
  | none => list.addTail node
  | some next =>
    let list ← list.setNext current (some node)
    let list ← list.setPrev node (some current)
    let list ← list.setNext node (some next)
    list.setPrev next (some node)

/-- `buflist_insert_before`. -/
def insertBefore (list : BufList) (current node : Nat) : Option BufList := do
  let n ← look list.heap current
  match n.prev with
  | none => list.addHead node
  | some prev =>
    let list ← list.setNext prev (some node)
    let list ← list.setPrev node (some prev)
    let list ← list.setNext node (some current)
    list.setPrev current (some node)

/-- `buflist_remove_head`, which follows `next` without a check. -/
def removeHead (list : BufList) : Option BufList :=
  match list.head with
  | none => some list
  | some head => do
    let next ← (← look list.heap head).next
    let list ← list.setPrev next none
    return { list with head := some next }

/-- `buflist_remove_tail`, which follows `prev` without a check. -/
def removeTail (list : BufList) : Option BufList :=
  match list.tail with
  | none => some list
  | some tail => do
    let prev ← (← look list.heap tail).prev
    let list ← list.setNext prev none
    return { list with tail := some prev }

/-- `buflist_remove_node`. -/
def removeNode (list : BufList) (node : Nat) : Option BufList :=
  if some node = list.head then list.removeHead
  else if some node = list.tail then list.removeTail
  else do
    let n ← look list.heap node
    let list ←
      match n.prev with
      | some prev => list.setNext prev n.next
      | none => some list
    match n.next with
    | some next => list.setPrev next n.prev
    | none => some list

/-- The loop of `buflist_find_node`, which looks at the address alone. -/
def findFrom (list : BufList) (usrVa : Nat) : Nat → Option Nat → Option (Option Nat)
  -- A walk takes no more steps than the heap has nodes.
  | 0, _ => none
  | _ + 1, none => some none
  | fuel + 1, some node => do
    let n ← look list.heap node
    if n.val.usrVa = usrVa then some (some node) else list.findFrom usrVa fuel n.next

/-- `buflist_find_node`. -/
def findNode (list : BufList) (usrVa : Nat) : Option (Option Nat) :=
  list.findFrom usrVa (list.heap.length + 1) list.head

/-- The backward loop of `buflist_merge_node`. -/
def backward (list : BufList) : Nat → Nat → Option Nat → Option Nat
  | 0, _, _ => none
  | _ + 1, start, none => some start
  | fuel + 1, start, some cur => do
    let n ← look list.heap cur
    if n.val.status = .free then list.backward fuel cur n.prev else some start

/-- The forward loop of `buflist_merge_node`; it adds up lengths on 32 bits. -/
def forward : Nat → BufList → Nat → Option Nat → Option (BufList × Nat)
  | 0, _, _, _ => none
  | _ + 1, list, length, none => some (list, length)
  | fuel + 1, list, length, some cur => do
    let n ← look list.heap cur
    if n.val.status = .free then
      let list ← list.removeNode cur
      forward fuel (list.deleteNode cur) ((length + n.val.length) % 2 ^ 32) n.next
    else some (list, length)

/-- `buflist_merge_node`. -/
def mergeNode (list : BufList) (node : Nat) : Option BufList := do
  let n ← look list.heap node
  if n.val.status ≠ .free then return list
  let start ← list.backward (list.heap.length + 1) node n.prev
  let s ← look list.heap start
  let (list, length) ← forward (list.heap.length + 1) list s.val.length s.next
  list.setBuf start fun buf => { buf with length := length }

/-- The nodes met on the way along `next` from a pointer. -/
def cellsFrom (list : BufList) : Nat → Option Nat → List (Nat × Buf)
  | 0, _ => []
  | _ + 1, none => []
  | fuel + 1, some node =>
    match look list.heap node with
    | none => []
    | some n => (node, n.val) :: list.cellsFrom fuel n.next

/-- The nodes from head to tail. -/
def cells (list : BufList) : List (Nat × Buf) := list.cellsFrom (list.heap.length + 1) list.head

/-- The list consists of these nodes in this order, and head, tail and links all say so. -/
structure Holds (list : BufList) (cells : List (Nat × Buf)) : Prop where
  head : list.head = first cells none
  tail : list.tail = last cells none
  linked : Linked list.heap none cells none
  distinct : (cells.map Prod.fst).Nodup

variable {list : BufList} {xs ys cells : List (Nat × Buf)} {p q : Nat} {a b : Buf} {node : BufNode}

/-- Reading a node on the list finds its value and its neighbours. -/
theorem Holds.look (holds : Holds list (xs ++ (p, a) :: ys)) :
    look list.heap p = some ⟨a, last xs none, first ys none⟩ :=
  (linked_around.mp holds.linked).2.1

/-- A write to a node that exists does not crash. -/
theorem store_some {write : BufNode → BufNode} (found : Dlist.look list.heap p = some node) :
    list.store p write = some { list with heap := update list.heap p write } := by
  simp [store, found]

/-- Writing the fields of a node changes its entry and nothing else. -/
theorem Holds.setBuf (holds : Holds list (xs ++ (p, a) :: ys)) (write : Buf → Buf) :
    ∃ after, list.setBuf p write = some after ∧ Holds after (xs ++ (p, write a) :: ys) ∧
      ∀ r, r ≠ p → Dlist.look after.heap r = Dlist.look list.heap r := by
  -- The links of the node are not part of what is written.
  obtain ⟨awayFront, awayBack, _⟩ := distinct_around holds.distinct
  obtain ⟨front, here, back⟩ := linked_around.mp holds.linked
  refine ⟨_, store_some here, ⟨?_, ?_, ?_, ?_⟩, fun r other => by rw [look_update, if_neg other]⟩
  · rw [holds.head, first_append, first_append]
    rfl
  · rw [holds.tail, last_append, last_append, last_cons, last_cons]
  · refine linked_around.mpr ⟨front.away awayFront, ?_, back.away awayBack⟩
    rw [look_update, if_pos rfl, here]
    rfl
  · simpa using holds.distinct

/-- A new node on the heap is not on the list yet. -/
theorem Holds.createNode (holds : Holds list cells) :
    Holds (list.createNode b) cells ∧
      Dlist.look (list.createNode b).heap list.heap.length = some ⟨b, none, none⟩ ∧
      ∀ x ∈ cells, x.1 ≠ list.heap.length := by
  -- All nodes of the list lie below the end of the old heap.
  have below : ∀ x ∈ cells, x.1 ≠ list.heap.length := by
    intro x member
    obtain ⟨front, back, rfl⟩ := List.append_of_mem member
    have inside := look_lt (linked_around.mp holds.linked).2.1
    omega
  refine ⟨⟨holds.head, holds.tail, holds.linked.congr ?_, holds.distinct⟩, ?_, below⟩
  · intro x member
    rw [BufList.createNode, look_create, if_neg (below x member)]
  · rw [BufList.createNode, look_create, if_pos rfl]

/-- Inserting a node puts it behind the current one. -/
theorem Holds.insertAfter (holds : Holds list (xs ++ (p, a) :: ys))
    (found : Dlist.look list.heap q = some node) (fresh : ∀ x ∈ xs ++ (p, a) :: ys, x.1 ≠ q) :
    ∃ after, list.insertAfter p q = some after ∧
      Holds after (xs ++ (p, a) :: (q, node.val) :: ys) := by
  obtain ⟨awayFront, awayBack, across⟩ := distinct_around holds.distinct
  obtain ⟨front, here, back⟩ := linked_around.mp holds.linked
  have pq : p ≠ q := fresh (p, a) (by simp)
  have freshFront : ∀ x ∈ xs ++ [(p, a)], x.1 ≠ q := fun x member => fresh x (by
    simp only [List.mem_append, List.mem_cons, List.not_mem_nil, or_false] at member ⊢
    tauto)
  have freshBack : ∀ x ∈ ys, x.1 ≠ q := fun x member => fresh x (by simp [member])
  have distinct : ((xs ++ (p, a) :: (q, node.val) :: ys).map Prod.fst).Nodup := by
    have old : (((xs ++ [(p, a)]) ++ ys).map Prod.fst).Nodup := by simpa using holds.distinct
    have inserted := distinct_insert (b := node.val) old
      (fun x member => fresh x (by simpa using member))
    simpa using inserted
  -- The front part now leads to the new node, and the back part is not written to yet.
  have lead := (linked_around.mpr ⟨front, here, trivial⟩ : Linked list.heap none (xs ++ [(p, a)])
    (first ys none)).redirect_next awayFront (some q)
  have keep : Linked (update list.heap p fun n => { n with next := some q }) (some p) ys none :=
    back.away awayBack
  cases ys with
  | nil =>
    -- The new node becomes the tail.
    have tail : list.tail = some p := by rw [holds.tail, last_concat]
    refine ⟨_, by simp [BufList.insertAfter, here, addTail, tail, setNext, setPrev, store,
      look_update, found, pq.symm]; rfl, ⟨?_, ?_, ?_, distinct⟩⟩
    · rw [holds.head, first_append, first_append]
      rfl
    · rw [last_append, last_cons, last_cons, last_nil]
    · rw [List.append_cons]
      refine linked_append.mpr ⟨(lead.away freshFront).away freshFront, ?_, trivial⟩
      simp [look_update, found, pq.symm]
  | cons y zs =>
    -- The old neighbour is told about the new node.
    obtain ⟨r, c⟩ := y
    obtain ⟨next, _⟩ := back
    have rq : r ≠ q := freshBack (r, c) (by simp)
    have pr : r ≠ p := awayBack (r, c) (by simp)
    have frontR : ∀ x ∈ xs ++ [(p, a)], x.1 ≠ r := by
      intro x member
      rcases List.mem_append.mp member with left | right
      · exact across x left (r, c) (by simp)
      · rw [List.mem_singleton.mp right]
        exact pr.symm
    have backR : ∀ x ∈ zs, x.1 ≠ r := by
      have whole : (((xs ++ [(p, a)]) ++ (r, c) :: zs).map Prod.fst).Nodup := by
        simpa using holds.distinct
      exact (distinct_around whole).2.1
    refine ⟨_, by simp [BufList.insertAfter, here, setNext, setPrev, store,
      look_update, found, next, pq.symm, rq, pr]; rfl, ⟨?_, ?_, ?_, distinct⟩⟩
    · rw [holds.head, first_append, first_append]
      rfl
    · rw [holds.tail, last_append, last_append, last_cons, last_cons, last_cons, last_cons,
        last_cons]
    · rw [List.append_cons]
      refine linked_append.mpr ⟨((lead.away freshFront).away freshFront).away frontR, ?_, ?_⟩
      · simp [look_update, found, pq.symm, rq.symm]
      · exact ((keep.away freshBack).away freshBack).redirect_prev backR _

/-- A node that is not on the list may be deleted. -/
theorem Holds.deleteNode (holds : Holds list cells) (away : ∀ x ∈ cells, x.1 ≠ p) :
    Holds (list.deleteNode p) cells := by
  refine ⟨holds.head, holds.tail, holds.linked.congr ?_, holds.distinct⟩
  intro x member
  rw [BufList.deleteNode, look_release, if_neg (away x member)]

/-- Unlinking a node other than the head joins its two neighbours. -/
theorem Holds.unlinkNode (holds : Holds list (xs ++ (p, a) :: (q, b) :: ys)) :
    ∃ after, list.removeNode q = some after ∧ Holds after (xs ++ (p, a) :: ys) := by
  have whole : xs ++ (p, a) :: (q, b) :: ys = (xs ++ [(p, a)]) ++ (q, b) :: ys := by simp
  have distinct : ((xs ++ (p, a) :: ys).map Prod.fst).Nodup := by
    have shorter := distinct_remove (whole ▸ holds.distinct)
    simpa using shorter
  obtain ⟨awayFront, awayBack, across⟩ := distinct_around holds.distinct
  obtain ⟨frontQ, backQ, _⟩ := distinct_around (whole ▸ holds.distinct)
  obtain ⟨front, here, gone, back⟩ := linked_around.mp holds.linked
  have pq : p ≠ q := frontQ (p, a) (by simp)
  have notHead : ¬ some q = list.head := by
    rw [holds.head]
    intro same
    cases xs with
    | nil => exact pq (Option.some.inj same).symm
    | cons x xs => exact frontQ x (by simp) (Option.some.inj same).symm
  -- The node in front is redirected past the removed one.
  have lead := (linked_around.mpr ⟨front, here, trivial⟩ : Linked list.heap none (xs ++ [(p, a)])
    (some q)).redirect_next awayFront (first ys none)
  have head : list.head = first (xs ++ (p, a) :: ys) none := by
    rw [holds.head, first_append, first_append]
    rfl
  cases ys with
  | nil =>
    -- The removed node is the tail, and the one in front takes its place.
    have tail : list.tail = some q := by rw [holds.tail, whole, last_concat]
    refine ⟨⟨update list.heap p fun n => { n with next := none }, list.head, some p⟩, by
      simp [BufList.removeNode, notHead, tail, removeTail, gone, setNext, store, here],
      ⟨head, ?_, ?_, distinct⟩⟩
    · rw [last_concat]
    · exact lead
  | cons y zs =>
    -- The node behind the removed one is told about the one in front of it.
    obtain ⟨r, c⟩ := y
    obtain ⟨next, behind⟩ := back
    have rq : r ≠ q := backQ (r, c) (by simp)
    have pr : r ≠ p := awayBack (r, c) (by simp)
    have notTail : ¬ some q = list.tail := by
      rw [holds.tail, whole, last_append, last_cons, last_cons]
      intro same
      cases zs using List.reverseRecOn with
      | nil => exact rq (Option.some.inj same).symm
      | append_singleton zs z =>
        rw [last_concat] at same
        exact backQ z (by simp) (Option.some.inj same).symm
    have frontR : ∀ x ∈ xs ++ [(p, a)], x.1 ≠ r := by
      intro x member
      rcases List.mem_append.mp member with left | right
      · exact across x left (r, c) (by simp)
      · rw [List.mem_singleton.mp right]
        exact pr.symm
    have backR : ∀ x ∈ zs, x.1 ≠ r := by
      have around : (((xs ++ [(p, a)]) ++ (r, c) :: zs).map Prod.fst).Nodup := by
        simpa using distinct
      exact (distinct_around around).2.1
    have keep : Linked (update list.heap p fun n => { n with next := some r }) (some q)
        ((r, c) :: zs) none :=
      Linked.away ⟨next, behind⟩ fun x member => awayBack x (List.mem_cons_of_mem _ member)
    refine ⟨⟨update (update list.heap p fun n => { n with next := some r }) r
      fun n => { n with prev := some p }, list.head, list.tail⟩, by
      simp [BufList.removeNode, notHead, notTail, gone, setNext, setPrev, store, here,
        look_update, next, pr], ⟨head, ?_, ?_, distinct⟩⟩
    · rw [holds.tail, last_append, last_append, last_cons, last_cons, last_cons, last_cons,
        last_cons]
    · rw [List.append_cons]
      refine linked_append.mpr ⟨lead.away frontR, ?_⟩
      rw [last_concat]
      exact keep.redirect_prev backR _

/-- Removing a node other than the head takes it out of the list and off the heap. -/
theorem Holds.removeNode (holds : Holds list (xs ++ (p, a) :: (q, b) :: ys)) :
    ∃ after, list.removeNode q = some after ∧
      Holds (after.deleteNode q) (xs ++ (p, a) :: ys) := by
  -- The unlinked node is none of those that stay.
  have whole : xs ++ (p, a) :: (q, b) :: ys = (xs ++ [(p, a)]) ++ (q, b) :: ys := by simp
  obtain ⟨front, back, _⟩ := distinct_around (whole ▸ holds.distinct)
  obtain ⟨after, unlinked, kept⟩ := holds.unlinkNode
  refine ⟨after, unlinked, kept.deleteNode fun x member => ?_⟩
  simp only [List.mem_append, List.mem_cons] at member
  rcases member with left | same | right
  · exact front x (by simp [left])
  · exact front x (by simp [same])
  · exact back x right

/-- The list has no more nodes than the heap. -/
theorem Holds.length_le (holds : Holds list cells) : cells.length ≤ list.heap.length :=
  holds.linked.length_le holds.distinct

/-- The search loop returns the first node from its start on that has the address. -/
theorem Holds.findFrom (usrVa : Nat) {fuel : Nat} (holds : Holds list (xs ++ ys))
    (enough : ys.length < fuel) : list.findFrom usrVa fuel (first ys none) =
      some ((ys.find? fun x => x.2.usrVa = usrVa).map Prod.fst) := by
  -- Each turn of the loop moves one node from what is ahead to what is behind.
  induction ys generalizing xs fuel with
  | nil =>
    cases fuel with
    | zero => simp at enough
    | succ fuel => rfl
  | cons y ys ih =>
    obtain ⟨r, c⟩ := y
    cases fuel with
    | zero => simp at enough
    | succ fuel =>
      have moved : Holds list ((xs ++ [(r, c)]) ++ ys) := by simpa using holds
      have rest := ih moved (Nat.lt_of_succ_lt_succ enough)
      by_cases same : c.usrVa = usrVa
      · simp [BufList.findFrom, holds.look, same]
      · simp [BufList.findFrom, holds.look, same, rest]

/-- The search returns the first node of the list that has the address. -/
theorem Holds.findNode (holds : Holds list cells) (usrVa : Nat) :
    list.findNode usrVa = some ((cells.find? fun x => x.2.usrVa = usrVa).map Prod.fst) := by
  have bound := holds.length_le
  rw [BufList.findNode, holds.head]
  have whole : Holds list ([] ++ cells) := holds
  exact whole.findFrom usrVa (by omega)

/-- The walk along `next` meets what is ahead of it. -/
theorem Holds.cellsFrom {fuel : Nat} (holds : Holds list (xs ++ ys)) (enough : ys.length < fuel) :
    list.cellsFrom fuel (first ys none) = ys := by
  -- The induction is on what is ahead, and each node met moves to what is behind.
  induction ys generalizing xs fuel with
  | nil =>
    cases fuel with
    | zero => simp at enough
    | succ fuel => rfl
  | cons y ys ih =>
    obtain ⟨r, c⟩ := y
    cases fuel with
    | zero => simp at enough
    | succ fuel =>
      have moved : Holds list ((xs ++ [(r, c)]) ++ ys) := by simpa using holds
      simp [BufList.cellsFrom, holds.look, ih moved (Nat.lt_of_succ_lt_succ enough)]

/-- The nodes from head to tail are the ones that the list consists of. -/
theorem Holds.cells_eq (holds : Holds list cells) : list.cells = cells := by
  have bound := holds.length_le
  rw [BufList.cells, holds.head]
  have whole : Holds list ([] ++ cells) := holds
  exact whole.cellsFrom (by omega)

variable {run : List (Nat × Buf)}

/-- The backward loop stops at the first node of the free run that it starts in. -/
theorem Holds.backward {fuel start : Nat} (holds : Holds list (xs ++ run ++ ys))
    (free : ∀ x ∈ run, x.2.status = .free) (stop : ∀ x ∈ xs.getLast?, x.2.status ≠ .free)
    (enough : run.length + 1 < fuel) :
    list.backward fuel start (last (xs ++ run) none) = first run (some start) := by
  -- The run is walked from its end, and its last node becomes the next start.
  induction run using List.reverseRecOn generalizing fuel start ys with
  | nil =>
    obtain ⟨fuel, rfl⟩ := Nat.exists_eq_succ_of_ne_zero (show fuel ≠ 0 by omega)
    cases xs using List.reverseRecOn with
    | nil => rfl
    | append_singleton xs x =>
      obtain ⟨r, c⟩ := x
      have busy : c.status ≠ .free := stop (r, c) (by simp)
      have place : Holds list (xs ++ (r, c) :: ys) := by simpa using holds
      have found := place.look
      simp [BufList.backward, found, busy]
  | append_singleton run x ih =>
    obtain ⟨r, c⟩ := x
    obtain ⟨fuel, rfl⟩ := Nat.exists_eq_succ_of_ne_zero (show fuel ≠ 0 by omega)
    have idle : c.status = .free := free (r, c) (by simp)
    have place : Holds list (xs ++ run ++ (r, c) :: ys) := by simpa using holds
    have found := place.look
    rw [List.length_append, List.length_singleton] at enough
    have shorter : run.length + 1 < fuel := by omega
    have rest : list.backward fuel r (last (xs ++ run) none) = first run (some r) :=
      ih place (fun x member => free x (by simp [member])) shorter
    rw [← List.append_assoc, last_concat, first_append]
    simpa [BufList.backward, found, idle] using rest

/-- The forward loop deletes the free run behind the start and adds up its lengths. -/
theorem Holds.forward {fuel length : Nat} (holds : Holds list (xs ++ (p, a) :: (run ++ ys)))
    (free : ∀ x ∈ run, x.2.status = .free) (stop : ∀ x ∈ ys.head?, x.2.status ≠ .free)
    (enough : run.length + 1 < fuel)
    (fits : length + (run.map fun x => x.2.length).sum < 2 ^ 32) :
    ∃ after, BufList.forward fuel list length (first (run ++ ys) none) =
      some (after, length + (run.map fun x => x.2.length).sum) ∧
      Holds after (xs ++ (p, a) :: ys) := by
  induction run generalizing fuel length list with
  | nil =>
    -- The loop ends in front of a busy node or at the end of the list.
    obtain ⟨fuel, rfl⟩ := Nat.exists_eq_succ_of_ne_zero (show fuel ≠ 0 by omega)
    refine ⟨list, ?_, holds⟩
    cases ys with
    | nil => rfl
    | cons y ys =>
      obtain ⟨r, c⟩ := y
      have busy : c.status ≠ .free := stop (r, c) (by simp)
      have place : Holds list ((xs ++ [(p, a)]) ++ (r, c) :: ys) := by simpa using holds
      have found := place.look
      simp [BufList.forward, found, busy]
  | cons x run ih =>
    obtain ⟨r, c⟩ := x
    obtain ⟨fuel, rfl⟩ := Nat.exists_eq_succ_of_ne_zero (show fuel ≠ 0 by omega)
    have idle : c.status = .free := free (r, c) (by simp)
    have place : Holds list ((xs ++ [(p, a)]) ++ (r, c) :: (run ++ ys)) := by simpa using holds
    have found := place.look
    obtain ⟨removed, taken, shorter⟩ := holds.removeNode
    simp only [List.map_cons, List.sum_cons] at fits ⊢
    have turns : run.length + 1 < fuel := Nat.lt_of_succ_lt_succ enough
    have room : length + c.length + (run.map fun x => x.2.length).sum < 2 ^ 32 := by omega
    obtain ⟨after, looped, kept⟩ := ih shorter
      (fun x member => free x (List.mem_cons_of_mem _ member)) turns room
    refine ⟨after, ?_, kept⟩
    have small : (length + c.length) % 2 ^ 32 = length + c.length := Nat.mod_eq_of_lt (by omega)
    rw [← Nat.add_assoc, ← looped]
    simp only [List.cons_append, first_cons, BufList.forward, found, taken, Option.bind_eq_bind,
      Option.bind_some, if_pos idle, small]

/-- Merging replaces the whole free run around a node by its first node. -/
theorem Holds.mergeNode {s : Nat} {b : Buf} {rest : List (Nat × Buf)}
    (holds : Holds list (xs ++ ((s, b) :: rest ++ ys))) (member : (p, a) ∈ (s, b) :: rest)
    (free : ∀ x ∈ (s, b) :: rest, x.2.status = .free)
    (prev : ∀ x ∈ xs.getLast?, x.2.status ≠ .free) (next : ∀ x ∈ ys.head?, x.2.status ≠ .free)
    (fits : (((s, b) :: rest).map fun x => x.2.length).sum < 2 ^ 32) :
    ∃ after, list.mergeNode p = some after ∧ Holds after (xs ++
      (s, { b with length := (((s, b) :: rest).map fun x => x.2.length).sum }) :: ys) := by
  -- The node splits the run into what is walked backward and the rest.
  obtain ⟨run, more, split⟩ := List.append_of_mem member
  have idle : a.status = .free := free (p, a) member
  have bound := holds.length_le
  have sizes : run.length + more.length = rest.length := by
    have lengths := congrArg List.length split
    simp only [List.length_cons, List.length_append] at lengths
    omega
  simp only [List.length_append, List.length_cons] at bound
  have around : Holds list (xs ++ run ++ (p, a) :: (more ++ ys)) := by
    have same := holds
    rw [split] at same
    simpa using same
  have start : list.backward (list.heap.length + 1) p (last (xs ++ run) none) = some s := by
    rw [around.backward (fun x inside => free x (by rw [split]; simp [inside])) prev (by omega)]
    have head : first run (some p) = first ((s, b) :: rest) none := by rw [split, first_append]; rfl
    exact head
  -- From the first node of the run, the loop runs to its end.
  simp only [List.map_cons, List.sum_cons] at fits ⊢
  have cells : Holds list (xs ++ (s, b) :: (rest ++ ys)) := holds
  have turns : rest.length + 1 < list.heap.length + 1 := by omega
  obtain ⟨joined, looped, kept⟩ := cells.forward
    (fun x inside => free x (List.mem_cons_of_mem _ inside)) next turns fits
  obtain ⟨after, written, done, _⟩ := kept.setBuf fun buf =>
    { buf with length := b.length + (rest.map fun x => x.2.length).sum }
  refine ⟨after, ?_, done⟩
  have here := around.look
  have there := cells.look
  simp only [BufList.mergeNode, here, idle, start, there, looped, Option.bind_eq_bind,
    Option.bind_some, ne_eq, not_true_eq_false, if_false]
  exact written

end BufList

end Aip
