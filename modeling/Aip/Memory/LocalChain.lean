import Aip.Lib.Blocks
import Aip.Lib.Chain
import Aip.Memory.LocalMemMgr

/-! The blocks of the older allocator as a chain of headers that tile the heap. -/

namespace Aip

open Words Chain Tiling

/-- Where the first block of a heap starts. -/
def HeapArea.first (area : HeapArea) : Nat := area.heap + LocalMem.minFreeBytes

/-- Where the last block of a heap ends. -/
def HeapArea.last (area : HeapArea) : Nat := (area.heap + area.size) / 4 * 4

/-- A block with its header, and the address that its user was given. -/
structure LocalBlock where
  start : Nat
  size : Nat
  busy : Bool
  user : Nat
  deriving DecidableEq, Repr

namespace LocalBlock

/-- The addresses of a block, its header included. -/
def region (b : LocalBlock) : Region := ⟨b.start, b.size⟩

/-- The status word of a block. -/
def status (b : LocalBlock) : Nat :=
  if b.busy then LocalMem.statusReserved else LocalMem.statusFree

/-- A block as the general laws see it. -/
def view : Blocks.View LocalBlock := ⟨region, busy, user⟩

/-- A block has room for its header and starts at a word. -/
def Sized (b : LocalBlock) : Prop := LocalMem.sizeHeader ≤ b.size ∧ b.start % 4 = 0

/-- The user's address lies behind the header, and the word in front of it leads back there. -/
def Keyed (m : Mem) (b : LocalBlock) : Prop :=
  b.start + LocalMem.sizeHeader ≤ b.user ∧ b.user ≤ b.start + b.size ∧
    (b.busy = true → LocalMem.localGetalign m b.user = b.user - (b.start + LocalMem.sizeHeader))

end LocalBlock

namespace LocalMem

/-- The headers in the memory say what the blocks are. -/
structure Chained (area : HeapArea) (m : Mem) (blocks : List LocalBlock) : Prop where
  first : localFirst m area.heap = area.first
  last : localLast m area.heap = area.last
  linked : Linked (localNext m) (localPrev m) 0 (blocks.map LocalBlock.start) 0
  status : ∀ b ∈ blocks, localStatus m b.start = b.status
  sized : ∀ b ∈ blocks, b.Sized

variable {area : HeapArea} {m m' : Mem} {blocks before after run more : List LocalBlock}
  {b x y : LocalBlock} {i v low high : Nat}

/-- The bounds of a heap in numbers. -/
theorem area_bounds (area : HeapArea) :
    area.heap + 64 = area.first ∧ area.first + 16 ≤ area.last ∧ area.last < 2 ^ 32 ∧
      area.first % 4 = 0 ∧ area.last % 4 = 0 := by
  have aligned := area.aligned
  have enough := area.enough
  have inside := area.inside
  have first : area.first = area.heap + 64 := rfl
  have last : area.last = (area.heap + area.size) / 4 * 4 := rfl
  omega

/-- The link to the block in front is in the first bytes of a header. -/
theorem prev_congr (same : ∀ a, i ≤ a → a < i + 4 → m' a = m a) : localPrev m' i = localPrev m i :=
  load_congr same

/-- The link to the block behind follows. -/
theorem next_congr (small : i + 8 ≤ 2 ^ 32) (same : ∀ a, i + 4 ≤ a → a < i + 8 → m' a = m a) :
    localNext m' i = localNext m i := by
  have place : (i + 4) % 2 ^ 32 = i + 4 := Nat.mod_eq_of_lt (by omega)
  rw [localNext, localNext, place]
  exact load_congr fun a _ _ => same a (by omega) (by omega)

/-- The status is in the bytes behind the links. -/
theorem status_congr (small : i + 12 ≤ 2 ^ 32)
    (same : ∀ a, i + 8 ≤ a → a < i + 12 → m' a = m a) : localStatus m' i = localStatus m i := by
  have place : (i + 8) % 2 ^ 32 = i + 8 := Nat.mod_eq_of_lt (by omega)
  rw [localStatus, localStatus, place]
  exact load_congr fun a _ _ => same a (by omega) (by omega)

/-- The memories differ at most in a stretch and in the word that leads back to it from behind. -/
def Kept (m m' : Mem) (low high behind : Nat) : Prop :=
  ∀ a, a < low ∨ high ≤ a → behind = 0 ∨ a < behind ∨ behind + 4 ≤ a → m' a = m a

/-- The memories are the same outside of the heap. -/
def Spares (area : HeapArea) (m m' : Mem) : Prop :=
  ∀ a, a < area.heap ∨ area.heap + area.size ≤ a → m' a = m a

/-- A stretch of blocks and a link back to it lie in the heap. -/
theorem Kept.spares {behind : Nat} (kept : Kept m m' low high behind) (bottom : area.first ≤ low)
    (top : high ≤ area.last) (link : behind = 0 ∨ area.first ≤ behind ∧ behind + 16 ≤ area.last) :
    Spares area m m' := by
  have bounds := area_bounds area
  have last : area.last = (area.heap + area.size) / 4 * 4 := rfl
  -- The stretch and the word behind it lie in the heap.
  intro a outside
  exact kept a (by omega) (by omega)

/-- The words of the heap stay where their bytes do. -/
theorem heap_congr (area : HeapArea)
    (same : ∀ a, area.heap ≤ a → a < area.heap + 8 → m' a = m a) :
    localFirst m' area.heap = localFirst m area.heap ∧
      localLast m' area.heap = localLast m area.heap := by
  have bounds := area_bounds area
  have second : (area.heap + 4) % 2 ^ 32 = area.heap + 4 := Nat.mod_eq_of_lt (by omega)
  rw [localLast, localLast, second]
  exact ⟨load_congr fun a _ _ => same a (by omega) (by omega),
    load_congr fun a _ _ => same a (by omega) (by omega)⟩

/-- A chain stays one where the words of the heap and of its headers stay. -/
theorem Chained.congr (chained : Chained area m blocks)
    (heap : ∀ a, area.heap ≤ a → a < area.heap + 8 → m' a = m a)
    (small : ∀ b ∈ blocks, b.start + 12 ≤ 2 ^ 32)
    (headers : ∀ b ∈ blocks, ∀ a, b.start ≤ a → a < b.start + 12 → m' a = m a) :
    Chained area m' blocks where
  -- Every part of the chain is read from the words named in the hypotheses.
  first := (heap_congr area heap).1.trans chained.first
  last := (heap_congr area heap).2.trans chained.last
  linked := by
    refine chained.linked.congr (fun i member => ?_) (fun i member => ?_)
    · obtain ⟨b, place, rfl⟩ := List.mem_map.mp member
      have bound := small b place
      exact next_congr (by omega) fun a _ _ => headers b place a (by omega) (by omega)
    · obtain ⟨b, place, rfl⟩ := List.mem_map.mp member
      exact prev_congr fun a _ _ => headers b place a (by omega) (by omega)
  status := by
    intro b member
    have same := status_congr (small b member) fun a _ _ =>
      headers b member a (by omega) (by omega)
    exact same.trans (chained.status b member)
  sized := chained.sized

/-- The address of a block is not the one that stands for none. -/
theorem start_pos (tiles : Tiles LocalBlock.region low blocks high) (positive : 0 < low) :
    ∀ b ∈ blocks, b.start ≠ 0 := by
  intro b member
  -- All blocks start at the low end or behind it.
  have bound := (tiles.within member).1
  change low ≤ b.start at bound
  omega

/--
A part of the chain may be exchanged for another one that covers the same stretch.

Only the stretch changes, and the word in which the block behind it points back.
-/
theorem Chained.exchange (chained : Chained area m (before ++ run ++ after))
    (front : Tiles LocalBlock.region area.first before low)
    (back : Tiles LocalBlock.region high after area.last) (ordered : low ≤ high)
    (begins : run.head?.map LocalBlock.start = some low) (same : x.start = low)
    (kept : Kept m m' low high ((after.map LocalBlock.start).headD 0))
    (linked : Linked (localNext m') (localPrev m') ((before.map LocalBlock.start).getLastD 0)
      ((x :: more).map LocalBlock.start) ((after.map LocalBlock.start).headD 0))
    (behind : ∀ i ∈ (after.map LocalBlock.start).head?,
      localPrev m' i = ((x :: more).map LocalBlock.start).getLastD 0)
    (status : ∀ b ∈ x :: more, localStatus m' b.start = b.status)
    (sized : ∀ b ∈ x :: more, b.Sized) : Chained area m' (before ++ (x :: more) ++ after) := by
  have bounds := area_bounds area
  -- The block behind, if there is one, starts where the stretch ends.
  have seam : (after.map LocalBlock.start).headD 0 = 0 ∨
      (after.map LocalBlock.start).headD 0 = high := by
    cases after with
    | nil => exact Or.inl rfl
    | cons y after => exact Or.inr back.1
  have inFront : ∀ a, a < low → m' a = m a := fun a _ => kept a (by omega) (by omega)
  have farBehind : ∀ a, high + 4 ≤ a → m' a = m a := fun a _ => kept a (by omega) (by omega)
  have frontEnd : ∀ b ∈ before, b.start + 16 ≤ low := by
    intro b member
    have bound := (front.within member).2
    have size := (chained.sized b (by simp [member])).1
    change b.start + b.size ≤ low at bound
    change 16 ≤ b.size at size
    omega
  have backStart : ∀ b ∈ after, high ≤ b.start ∧ b.start + 16 ≤ area.last := by
    intro b member
    have bound := back.within member
    have size := (chained.sized b (by simp [member])).1
    change high ≤ b.start ∧ b.start + b.size ≤ area.last at bound
    change 16 ≤ b.size at size
    omega
  have low_le : area.first ≤ low ∧ high ≤ area.last := by
    have frontSum := front.sum
    have backSum := back.sum
    omega
  -- The links of the three parts, one after the other.
  have old := chained.linked
  rw [List.map_append, List.map_append, linked_append, linked_append] at old
  obtain ⟨⟨oldFront, _⟩, oldBack⟩ := old
  have first := heap_congr area fun a _ _ => inFront a (by omega)
  refine ⟨first.1.trans chained.first, first.2.trans chained.last, ?_, ?_, ?_⟩
  · rw [List.map_append, List.map_append, linked_append, linked_append]
    refine ⟨⟨?_, linked⟩, ?_⟩
    · -- The part in front leads to the same address as before.
      have target : (run.map LocalBlock.start).headD ((after.map LocalBlock.start).headD 0) =
          ((x :: more).map LocalBlock.start).headD ((after.map LocalBlock.start).headD 0) := by
        cases run with
        | nil => simp at begins
        | cons y run =>
          have start : y.start = low := by simpa using begins
          exact start.trans same.symm
      rw [← target]
      refine oldFront.congr (fun i member => ?_) (fun i member => ?_)
      · obtain ⟨b, place, rfl⟩ := List.mem_map.mp member
        -- In front of the stretch nothing has been written.
        have bound := frontEnd b place
        exact next_congr (by omega) fun a _ _ => inFront a (by omega)
      · obtain ⟨b, place, rfl⟩ := List.mem_map.mp member
        have bound := frontEnd b place
        exact prev_congr fun a _ _ => inFront a (by omega)
    · -- Only the first block of the part behind points to another one than before.
      refine oldBack.reseat (fun i member => ?_) (fun i member => ?_) (fun i member => ?_)
      · obtain ⟨b, place, rfl⟩ := List.mem_map.mp member
        have bound := backStart b place
        exact next_congr (by omega) fun a _ _ => farBehind a (by omega)
      · rw [behind i member]
        simp [List.getLast?_cons]
      · -- The others lie behind the first one.
        cases after with
        | nil => cases member
        | cons y after =>
          obtain ⟨b, place, rfl⟩ := List.mem_map.mp member
          have bound := (back.2.within place).1
          have size := (chained.sized y (by simp)).1
          change high + y.size ≤ b.start at bound
          change 16 ≤ y.size at size
          exact prev_congr fun a _ _ => farBehind a (by omega)
  · intro b member
    rcases List.mem_append.mp member with early | late
    · rcases List.mem_append.mp early with place | own
      · have bound := frontEnd b place
        have stays : localStatus m' b.start = localStatus m b.start :=
          status_congr (by omega) fun a _ _ => inFront a (by omega)
        exact stays.trans (chained.status b (by simp [place]))
      · exact status b own
    · have bound := backStart b late
      have stays : localStatus m' b.start = localStatus m b.start :=
        status_congr (by omega) fun a _ _ => farBehind a (by omega)
      exact stays.trans (chained.status b (by simp [late]))
  · intro b member
    rcases List.mem_append.mp member with early | late
    · rcases List.mem_append.mp early with place | own
      · exact chained.sized b (by simp [place])
      · exact sized b own
    · exact chained.sized b (by simp [late])

/-- The word in front of an address lies at the address less four. -/
theorem getalign_eq (behind : 4 ≤ i) (small : i < 2 ^ 32) : localGetalign m i = load m (i - 4) := by
  rw [localGetalign, show (i + 2 ^ 32 - 4) % 2 ^ 32 = i - 4 by omega]

/-- A user's address is known where the bytes behind the links and the status stay. -/
theorem keyed_congr (keyed : b.Keyed m) (small : b.start + b.size < 2 ^ 32)
    (same : ∀ a, b.start + 12 ≤ a → a < b.start + b.size → m' a = m a) : b.Keyed m' := by
  obtain ⟨behind, inside, word⟩ := keyed
  change b.start + 16 ≤ b.user at behind
  refine ⟨behind, inside, fun busy => ?_⟩
  -- The word in front of the user is behind the links and the status.
  have old := word busy
  rw [getalign_eq (by omega) (by omega)] at old ⊢
  exact (load_congr fun a _ _ => same a (by omega) (by omega)).trans old

/-- What splitting a block leaves behind: two headers, and a link back from behind. -/
structure Divided (m m' : Mem) (addr place old high : Nat) : Prop where
  prev : localPrev m' addr = localPrev m addr
  next : localNext m' addr = place
  status : localStatus m' addr = statusReserved
  newPrev : localPrev m' place = addr
  newNext : localNext m' place = old
  newStatus : localStatus m' place = statusFree
  behind : old ≠ 0 → localPrev m' old = place
  kept : Kept m m' addr high old

/-- The links and the status lie at fixed places of a header. -/
theorem header_eq (small : i + 12 ≤ 2 ^ 32) : localNext m i = load m (i + 4) ∧
    localStatus m i = load m (i + 8) ∧ setLocalNext m i v = store m (i + 4) v ∧
      setLocalStatus m i v = store m (i + 8) v := by
  have next : (i + 4) % 2 ^ 32 = i + 4 := Nat.mod_eq_of_lt (by omega)
  have status : (i + 8) % 2 ^ 32 = i + 8 := Nat.mod_eq_of_lt (by omega)
  rw [localNext, localStatus, setLocalNext, setLocalStatus, next, status]
  exact ⟨rfl, rfl, rfl, rfl⟩

/-- The stores of `splitNode`, one after the other. -/
theorem splitNode_eq {addr nbytes place old : Nat} (spot : place = addr + 16 + nbytes)
    (small : place + 12 ≤ 2 ^ 32) (follows : localNext m addr = old) :
    splitNode m addr nbytes =
      let m' := store (store (store (store (store m (addr + 4) place) (addr + 8) statusReserved)
        (place + 4) old) place addr) (place + 8) statusFree
      if old ≠ 0 then store m' old place else m' := by
  -- Addresses on 32 bits are those of the words, and a link read back is the one stored.
  have old_lt : old < 2 ^ 32 := follows ▸ load_lt m _
  have target : (addr + sizeHeader + nbytes) % 2 ^ 32 = place := by
    change (addr + 16 + nbytes) % 2 ^ 32 = place
    omega
  have new : localNext (store m (addr + 4) place) addr = place := by
    rw [(header_eq (v := 0) (by omega)).1]
    exact load_store (by omega)
  simp only [splitNode, target, follows, (header_eq (i := addr) (by omega)).2.2.1,
    (header_eq (i := addr) (by omega)).2.2.2, new, (header_eq (i := place) small).2.2.1,
    (header_eq (i := place) small).2.2.2, setLocalPrev]
  have again : localNext (store (store (store (store (store m (addr + 4) place) (addr + 8)
      statusReserved) (place + 4) old) place addr) (place + 8) statusFree) place = old := by
    rw [(header_eq (v := 0) small).1, load_store_apart (by omega), load_store_apart (by omega),
      load_store old_lt]
  rw [again]

/-- The block behind, if there is one, is made to point back to a block. -/
theorem link_back (m : Mem) {behind place : Nat} (small : place < 2 ^ 32)
    (linked : m' = if behind ≠ 0 then store m behind place else m) :
    (behind ≠ 0 → localPrev m' behind = place) ∧
      ∀ a, behind = 0 ∨ a < behind ∨ behind + 4 ≤ a → m' a = m a := by
  -- There is a store exactly if there is a block behind.
  subst linked
  -- The last block has nothing behind it.
  by_cases none : behind = 0
  · rw [if_neg (by simp [none])]
    exact ⟨fun some => absurd none some, fun _ _ => rfl⟩
  · rw [if_pos none]
    exact ⟨fun _ => load_store small, fun a outside => store_outside (by omega)⟩

/-- Splitting a block that is long enough. -/
theorem splitNode_spec {addr old : Nat} (nbytes high : Nat) (follows : localNext m addr = old)
    (room : addr + 16 + nbytes + 12 ≤ high) (small : high ≤ 2 ^ 32)
    (seam : old = 0 ∨ high ≤ old) :
    Divided m (splitNode m addr nbytes) addr (addr + 16 + nbytes) old high := by
  have old_lt : old < 2 ^ 32 := follows ▸ load_lt m _
  have one : statusReserved < 2 ^ 32 := by decide
  have zero : statusFree < 2 ^ 32 := by decide
  -- The second header is far enough behind the first one.
  generalize spot : addr + 16 + nbytes = place at room ⊢
  have stores := splitNode_eq (m := m) spot.symm (by omega) follows
  generalize splitNode m addr nbytes = m' at stores ⊢
  obtain ⟨back, rest⟩ := link_back _ (by omega) stores
  -- Below the end of the block, only the words of the two headers have been written.
  have loads : ∀ a, a + 4 ≤ high → load m' a = load (store (store (store (store (store m (addr + 4)
      place) (addr + 8) statusReserved) (place + 4) old) place addr) (place + 8) statusFree) a :=
    fun a _ => load_congr fun x _ _ => rest x (by omega)
  obtain ⟨nextA, statusA, _, _⟩ := header_eq (m := m') (v := 0) (i := addr) (by omega)
  obtain ⟨nextN, statusN, _, _⟩ := header_eq (m := m') (v := 0) (i := place) (by omega)
  refine ⟨?_, ?_, ?_, ?_, ?_, ?_, back, ?_⟩
  · rw [localPrev, loads addr (by omega)]
    simp (disch := omega) only [load_store_apart, localPrev]
  · rw [nextA, loads _ (by omega)]
    simp (disch := omega) only [load_store_apart, load_store]
  · rw [statusA, loads _ (by omega)]
    simp (disch := omega) only [load_store_apart, load_store]
  · rw [localPrev, loads place (by omega), load_store_apart (by omega), load_store (by omega)]
  · rw [nextN, loads _ (by omega)]
    simp (disch := omega) only [load_store_apart, load_store]
  · rw [statusN, loads _ (by omega), load_store (by omega)]
  · intro a outside apart
    rw [rest a apart]
    simp (disch := omega) only [store_outside]

/-- Extending a block up to the end of the heap divides it anew. -/
theorem growNode_spec {addr len : Nat} (high : Nat) (last : localNext m (localNext m addr) = 0)
    (status : localStatus m addr = statusReserved) (room : addr + 16 + len + 12 ≤ high)
    (small : high ≤ 2 ^ 32) :
    Divided m (growNode m addr len) addr (addr + 16 + len) 0 high ∧
      ∀ a, addr + 8 ≤ a → a < addr + 16 + len → growNode m addr len a = m a := by
  have zero : statusFree < 2 ^ 32 := by decide
  generalize spot : addr + 16 + len = place at room ⊢
  have target : (addr + len + sizeHeader) % 2 ^ 32 = place := by
    change (addr + len + 16) % 2 ^ 32 = place
    omega
  have new : localNext (store m (addr + 4) place) addr = place := by
    rw [(header_eq (v := 0) (by omega)).1]
    exact load_store (by omega)
  -- The link of the block is stored before the one behind it is read.
  have stores : growNode m addr len =
      store (store (store (store m (addr + 4) place) place addr) (place + 4) 0) (place + 8)
        statusFree := by
    simp only [growNode, target, last, (header_eq (i := addr) (by omega)).2.2.1, new, setLocalPrev,
      (header_eq (i := place) (by omega)).2.2.1, (header_eq (i := place) (by omega)).2.2.2]
  generalize growNode m addr len = m' at stores ⊢
  -- Each word is read back past the stores behind it.
  obtain ⟨nextA, statusA, _, _⟩ := header_eq (m := m') (v := 0) (i := addr) (by omega)
  obtain ⟨nextN, statusN, _, _⟩ := header_eq (m := m') (v := 0) (i := place) (by omega)
  refine ⟨⟨?_, ?_, ?_, ?_, ?_, ?_, fun some => absurd rfl some, ?_⟩, ?_⟩
  · rw [localPrev, stores]
    simp (disch := omega) only [load_store_apart, localPrev]
  · rw [nextA, stores]
    simp (disch := omega) only [load_store_apart, load_store]
  · rw [statusA, stores, ← status, (header_eq (m := m) (v := 0) (i := addr) (by omega)).2.1]
    simp (disch := omega) only [load_store_apart]
  · rw [localPrev, stores]
    simp (disch := omega) only [load_store_apart, load_store]
  · rw [nextN, stores]
    simp (disch := omega) only [load_store_apart, load_store]
  · rw [statusN, stores, load_store zero]
  · intro a outside _
    rw [stores]
    simp (disch := omega) only [store_outside]
  · intro a low high
    rw [stores]
    simp (disch := omega) only [store_outside]

/-- The links of a block lead to its neighbours. -/
theorem Chained.links (chained : Chained area m (before ++ b :: after)) :
    localPrev m b.start = (before.map LocalBlock.start).getLastD 0 ∧
      localNext m b.start = (after.map LocalBlock.start).headD 0 := by
  have linked := chained.linked
  rw [List.map_append, linked_append] at linked
  exact ⟨linked.2.1, linked.2.2.1⟩

/-- A block of the chain is free when its status word says so. -/
theorem Chained.free_iff (chained : Chained area m blocks) (member : b ∈ blocks) :
    localStatus m b.start = statusFree ↔ b.busy = false := by
  rw [chained.status b member, LocalBlock.status]
  cases b.busy <;> decide

/-- The end of a block is where the next one starts, or the end of the heap. -/
theorem freeSize_eq (chained : Chained area m (before ++ b :: after))
    (tiles : Tiles LocalBlock.region area.first (before ++ b :: after) area.last) :
    freeSize m area.heap b.start = b.size - 16 := by
  -- The subtractions on 32 bits do not wrap, since a block has its header.
  have bounds := area_bounds area
  have bound := tiles.within (x := b) (by simp)
  have size := (chained.sized b (by simp)).1
  change area.first ≤ b.start ∧ b.start + b.size ≤ area.last at bound
  change 16 ≤ b.size at size
  have back := tiles.behind
  change Tiles LocalBlock.region (b.start + b.size) after area.last at back
  rw [freeSize, chained.links.2]
  cases after with
  | nil =>
    -- The last block ends with the heap, whose end is stored.
    have stop : b.start + b.size = area.last := back
    have none : (([] : List LocalBlock).map LocalBlock.start).headD 0 = 0 := rfl
    rw [if_pos none, chained.last]
    change (area.last + 2 ^ 32 - b.start + 2 ^ 32 - 16) % 2 ^ 32 = _
    omega
  | cons y after =>
    have start : y.start = b.start + b.size := back.1
    have next : localNext m b.start = y.start := chained.links.2
    change (if y.start = 0 then _ else _) = _
    rw [if_neg (by omega), localSize, next]
    change (y.start + 2 ^ 32 - b.start + 2 ^ 32 - 16) % 2 ^ 32 = _
    omega

/-- The size that is read from the links wraps around for the last block. -/
theorem localSize_eq (chained : Chained area m (before ++ b :: after))
    (tiles : Tiles LocalBlock.region area.first (before ++ b :: after) area.last) :
    localSize m b.start = if after = [] then 2 ^ 32 - b.start - 16 else b.size - 16 := by
  have bounds := area_bounds area
  have bound := tiles.within (x := b) (by simp)
  have size := (chained.sized b (by simp)).1
  change area.first ≤ b.start ∧ b.start + b.size ≤ area.last at bound
  change 16 ≤ b.size at size
  have link := chained.links.2
  cases after with
  | nil =>
    -- The last block has no link to measure from.
    have none : localNext m b.start = 0 := link
    rw [if_pos rfl, localSize, none]
    change (0 + 2 ^ 32 - b.start + 2 ^ 32 - 16) % 2 ^ 32 = _
    omega
  | cons y after =>
    -- In front of another block it is what the allocator takes for the free size.
    have start : y.start = b.start + b.size := tiles.behind.1
    have next : localNext m b.start = y.start := link
    have same := freeSize_eq chained tiles
    rw [freeSize, if_neg (by omega)] at same
    rw [if_neg (List.cons_ne_nil y after), same]

/-- One round of the walk: the block serves the request, or the walk goes on behind it. -/
theorem allocFrom_round {nbytes fuel : Nat} (chained : Chained area m (before ++ b :: after)) :
    allocFrom m area.heap nbytes (fuel + 1) b.start =
      if b.busy = false ∧ (currentNodeAlloc m area.heap b.start nbytes).2 = true then
        some ((currentNodeAlloc m area.heap b.start nbytes).1, (b.start + sizeHeader) % 2 ^ 32)
      else if (after.map LocalBlock.start).headD 0 ≠ 0 then
        allocFrom m area.heap nbytes fuel ((after.map LocalBlock.start).headD 0)
      else some (m, 0) := by
  -- The status says whether the block is tried at all.
  have free := chained.free_iff (b := b) (by simp)
  rw [allocFrom, chained.links.2]
  cases busy : b.busy with
  | false => simp only [if_pos (free.mpr busy), true_and]
  | true =>
    have reserved : localStatus m b.start ≠ statusFree := fun idle => by
      simp [free.mp idle] at busy
    simp only [if_neg reserved, Bool.true_eq_false, false_and, if_false, Bool.false_eq_true]

/--
The walk over the blocks from one of them on.

It ends behind the last block, or at the first free block that can serve the request.
-/
theorem allocFrom_cases (nbytes fuel : Nat) (chained : Chained area m (before ++ b :: after))
    (nonzero : ∀ y ∈ after, y.start ≠ 0) (enough : after.length < fuel) :
    allocFrom m area.heap nbytes fuel b.start = some (m, 0) ∨
      ∃ front y back, b :: after = front ++ y :: back ∧ y.busy = false ∧
        (currentNodeAlloc m area.heap y.start nbytes).2 = true ∧
        allocFrom m area.heap nbytes fuel b.start =
          some ((currentNodeAlloc m area.heap y.start nbytes).1,
            (y.start + sizeHeader) % 2 ^ 32) := by
  -- The induction is on the blocks behind, and the fuel goes down with them.
  induction after generalizing before b fuel with
  | nil =>
    obtain ⟨fuel, rfl⟩ := Nat.exists_eq_succ_of_ne_zero (Nat.ne_zero_of_lt enough)
    rw [Nat.succ_eq_add_one, allocFrom_round chained]
    split
    · next served => exact Or.inr ⟨[], b, [], rfl, served.1, served.2, rfl⟩
    · exact Or.inl rfl
  | cons y after ih =>
    obtain ⟨fuel, rfl⟩ := Nat.exists_eq_succ_of_ne_zero (Nat.ne_zero_of_lt enough)
    rw [Nat.succ_eq_add_one, allocFrom_round chained]
    split
    · next served => exact Or.inr ⟨[], b, y :: after, rfl, served.1, served.2, rfl⟩
    · -- The walk goes on with the next block, in front of which this one has been passed.
      have start : ((y :: after).map LocalBlock.start).headD 0 = y.start := rfl
      rw [start, if_pos (nonzero y (by simp))]
      rw [List.append_cons] at chained
      rcases ih fuel chained (fun z member => nonzero z (by simp [member]))
          (by simpa using enough) with none | ⟨front, z, back, same, rest⟩
      · exact Or.inl none
      · exact Or.inr ⟨b :: front, z, back, by rw [same]; rfl, rest⟩

end LocalMem

end Aip
