import Aip.Memory.LocalChain

/-! What the calls of the older allocator do to the chain of its blocks. -/

namespace Aip

open Words Chain Tiling

namespace LocalMem

variable {area : HeapArea} {m m' : Mem} {blocks before after run front : List LocalBlock}
  {b x y : LocalBlock} {i v low high nbytes size : Nat}

/-- A free block has been handed out, perhaps with a free block behind it for the rest. -/
structure Served (area : HeapArea) (m m' : Mem) (before : List LocalBlock) (b : LocalBlock)
    (after : List LocalBlock) (size : Nat) (front : List LocalBlock) : Prop where
  rest : front = [] ∨ ∃ z, front = [z] ∧ z.busy = false
  keys : ∀ z ∈ front, z.Keyed m'
  fits : size ≤ b.size
  kept : Kept m m' b.start (b.start + b.size) ((after.map LocalBlock.start).headD 0)
  tiles : ∀ user, Tiles LocalBlock.region b.start (⟨b.start, size, true, user⟩ :: front)
    (b.start + b.size)
  chained : ∀ user, Chained area m' (before ++ (⟨b.start, size, true, user⟩ :: front) ++ after)

/-- The first address behind a block is that of the block behind, if there is one. -/
theorem headD_start (back : Tiles LocalBlock.region low after high) :
    (after.map LocalBlock.start).headD 0 = 0 ∨ (after.map LocalBlock.start).headD 0 = low := by
  cases after with
  | nil => exact Or.inl rfl
  | cons y after => exact Or.inr back.1

/-- The block behind, if there is one, lies in the stretch with its header. -/
theorem headD_inside (back : Tiles LocalBlock.region low after high)
    (sized : ∀ y ∈ after, y.Sized) : (after.map LocalBlock.start).headD 0 = 0 ∨
      low ≤ (after.map LocalBlock.start).headD 0 ∧
        (after.map LocalBlock.start).headD 0 + 16 ≤ high := by
  cases after with
  | nil => exact Or.inl rfl
  | cons y after =>
    have bound := back.within (x := y) (by simp)
    have long : 16 ≤ y.size := (sized y (by simp)).1
    change low ≤ y.start ∧ y.start + y.size ≤ high at bound
    refine Or.inr ⟨bound.1, ?_⟩
    change y.start + 16 ≤ high
    omega

/-- The block behind, if there is one, starts where the stretch in front of it ends. -/
theorem head_start (back : Tiles LocalBlock.region low after high)
    (member : i ∈ (after.map LocalBlock.start).head?) :
    i = low ∧ (after.map LocalBlock.start).headD 0 = low := by
  cases after with
  | nil => cases member
  | cons y after =>
    have start : y.start = low := back.1
    have same : y.start = i := Option.some.inj member
    exact ⟨same.symm.trans start, start⟩

/-- The first block of the part behind points to the last one of the part in front. -/
theorem Chained.back (chained : Chained area m (before ++ after))
    (member : i ∈ (after.map LocalBlock.start).head?) :
    localPrev m i = (before.map LocalBlock.start).getLastD 0 := by
  -- The link backwards stands where the two parts meet.
  have linked := chained.linked
  rw [List.map_append, linked_append] at linked
  cases after with
  | nil => cases member
  | cons y after =>
    have same : y.start = i := Option.some.inj member
    exact same ▸ linked.2.1

/-- A stretch that has been divided anew is two blocks of the chain, the second one free. -/
theorem Chained.divided {place rest user : Nat}
    (chained : Chained area m (before ++ (b :: run) ++ after))
    (ahead : Tiles LocalBlock.region area.first before b.start)
    (back : Tiles LocalBlock.region high after area.last) (ordered : b.start ≤ high)
    (divided : Divided m m' b.start place ((after.map LocalBlock.start).headD 0) high)
    (first : 16 ≤ size) (second : 16 ≤ rest) (words : place % 4 = 0) :
    Chained area m'
      (before ++ [⟨b.start, size, true, user⟩, ⟨place, rest, false, place + 16⟩] ++ after) := by
  have bounds := area_bounds area
  have sum := back.sum
  have here : Chained area m (before ++ b :: (run ++ after)) := by simpa using chained
  refine chained.exchange ahead back ordered rfl rfl divided.kept ?_ ?_ ?_ ?_
  · exact ⟨divided.prev.trans here.links.1, divided.next, divided.newPrev, divided.newNext,
      trivial⟩
  · -- The block behind points back to the rest.
    intro i member
    obtain ⟨start, head⟩ := head_start back member
    have positive : 0 < high := by
      have low := ahead.sum
      omega
    rw [start, ← head]
    exact divided.behind (by omega)
  · intro z member
    rcases List.mem_cons.mp member with rfl | later
    · exact divided.status
    · rw [List.mem_singleton.mp later]
      exact divided.newStatus
  · intro z member
    rcases List.mem_cons.mp member with rfl | later
    · exact ⟨first, (chained.sized b (by simp)).2⟩
    · rw [List.mem_singleton.mp later]
      exact ⟨second, words⟩

/-- A block that is long enough is split. -/
theorem Chained.divide (chained : Chained area m (before ++ b :: after))
    (tiles : Tiles LocalBlock.region area.first (before ++ b :: after) area.last)
    (room : nbytes + 96 ≤ b.size) (words : nbytes % 4 = 0) :
    Served area m (splitNode m b.start nbytes) before b after (16 + nbytes)
      [⟨b.start + 16 + nbytes, b.size - (16 + nbytes), false, b.start + 16 + nbytes + 16⟩] := by
  have bounds := area_bounds area
  have bound := tiles.within (x := b) (by simp)
  change area.first ≤ b.start ∧ b.start + b.size ≤ area.last at bound
  have ahead : Tiles LocalBlock.region area.first before b.start := tiles.front
  have back : Tiles LocalBlock.region (b.start + b.size) after area.last := tiles.behind
  have seam := headD_start back
  have word := (chained.sized b (by simp)).2
  have divided := splitNode_spec nbytes (b.start + b.size) chained.links.2 (by omega)
    (by omega) (by omega)
  have alone : Chained area m (before ++ [b] ++ after) := by simpa using chained
  refine ⟨Or.inr ⟨_, rfl, rfl⟩, ?_, by omega, divided.kept, fun user => ⟨rfl, ?_⟩, fun user =>
    alone.divided ahead back (by omega) divided (by omega) (by omega) (by omega)⟩
  · intro z member
    rw [List.mem_singleton.mp member]
    refine ⟨Nat.le_refl _, ?_, fun busy => by cases busy⟩
    dsimp only
    omega
  · refine ⟨(Nat.add_assoc _ _ _), ?_⟩
    change b.start + (16 + nbytes) + (b.size - (16 + nbytes)) = b.start + b.size
    omega

/-- A block that is not too short is taken as a whole. -/
theorem Chained.whole (chained : Chained area m (before ++ b :: after))
    (tiles : Tiles LocalBlock.region area.first (before ++ b :: after) area.last) :
    Served area m (setLocalStatus m b.start statusReserved) before b after b.size [] := by
  have bounds := area_bounds area
  have bound := tiles.within (x := b) (by simp)
  change area.first ≤ b.start ∧ b.start + b.size ≤ area.last at bound
  have ahead : Tiles LocalBlock.region area.first before b.start := tiles.front
  have back : Tiles LocalBlock.region (b.start + b.size) after area.last := tiles.behind
  have seam := headD_start back
  have size := chained.sized b (by simp)
  have long : 16 ≤ b.size := size.1
  have written := (header_eq (m := m) (v := statusReserved) (i := b.start) (by omega)).2.2.2
  have outside : ∀ a, a < b.start + 8 ∨ b.start + 12 ≤ a →
      setLocalStatus m b.start statusReserved a = m a := by
    intro a apart
    rw [written]
    exact store_outside (by omega)
  refine ⟨Or.inl rfl, fun z none => (List.not_mem_nil none).elim, Nat.le_refl _,
    fun a _ _ => outside a (by omega), fun user => ⟨rfl, rfl⟩, fun user => ?_⟩
  have chained' : Chained area m (before ++ [b] ++ after) := by simpa using chained
  refine chained'.exchange ahead back (Nat.le_add_right _ _) rfl rfl
    (fun a _ _ => outside a (by omega)) ?_ ?_ ?_ ?_
  · refine ⟨?_, ?_, trivial⟩
    · exact (prev_congr (i := b.start) fun a _ _ => outside a (by omega)).trans chained.links.1
    · exact (next_congr (i := b.start) (by omega) fun a _ _ => outside a (by omega)).trans
        chained.links.2
  · -- The link back from behind is the one that there was.
    intro i member
    have start := (head_start back member).1
    have link := chained'.back member
    rw [List.map_append, List.map_singleton, List.getLastD_concat] at link
    exact (prev_congr fun a _ _ => outside a (by omega)).trans link
  · intro z member
    rw [List.mem_singleton.mp member]
    change localStatus (setLocalStatus m b.start statusReserved) b.start = statusReserved
    rw [written, (header_eq (v := 0) (by omega)).2.1]
    exact load_store (by decide)
  · intro z member
    rw [List.mem_singleton.mp member]
    exact size

/-- A free block that serves a request is split behind it, or taken as a whole. -/
theorem Chained.serve (chained : Chained area m (before ++ b :: after))
    (tiles : Tiles LocalBlock.region area.first (before ++ b :: after) area.last)
    (served : (currentNodeAlloc m area.heap b.start nbytes).2 = true)
    (small : nbytes + 80 < 2 ^ 32) (words : nbytes % 4 = 0) :
    ∃ front, nbytes + 16 ≤ b.size ∧
      Served area m (currentNodeAlloc m area.heap b.start nbytes).1 before b after
        (16 + if nbytes + 80 ≤ b.size - 16 then nbytes else b.size - 16) front := by
  -- The function compares what is free behind the header with the request and with a split.
  have long : 16 ≤ b.size := (chained.sized b (by simp)).1
  have threshold : (nbytes + sizeHeader + minFreeBytes) % 2 ^ 32 = nbytes + 80 :=
    Nat.mod_eq_of_lt small
  rw [currentNodeAlloc, freeSize_eq chained tiles, threshold] at served ⊢
  by_cases room : nbytes + 80 ≤ b.size - 16
  · rw [if_pos room, if_pos room]
    have enough : nbytes + 96 ≤ b.size := by omega
    dsimp only
    exact ⟨_, by omega, chained.divide tiles enough words⟩
  · rw [if_neg room] at served
    rw [if_neg room, if_neg room]
    by_cases fits : nbytes ≤ b.size - 16
    · have whole : 16 + (b.size - 16) = b.size := by omega
      rw [if_pos fits, whole]
      exact ⟨[], by omega, chained.whole tiles⟩
    · rw [if_neg fits] at served
      cases served

/-- A request so large that the threshold wraps is refused by a block without any room. -/
theorem refused {addr : Nat} (wide : 2 ^ 32 ≤ nbytes + 80) (small : nbytes < 2 ^ 32)
    (rounded : nbytes % 64 = 0) (short : freeSize m area.heap addr < 16) :
    (currentNodeAlloc m area.heap addr nbytes).2 = false := by
  have threshold : (nbytes + sizeHeader + minFreeBytes) % 2 ^ 32 = 16 := by
    change (nbytes + 16 + 64) % 2 ^ 32 = 16
    omega
  rw [currentNodeAlloc, threshold, if_neg (by omega), if_neg (by omega)]

/-- A request that can be rounded without wrapping is rounded up. -/
theorem roundBytes_spec (small : nbytes + 63 < 2 ^ 32) : nbytes ≤ roundBytes nbytes ∧
    roundBytes nbytes < 2 ^ 32 ∧ roundBytes nbytes % 64 = 0 := by
  have same : roundBytes nbytes = (nbytes + 63) % 2 ^ 32 / 64 * 64 := rfl
  omega

/-- What has been rounded up stays. -/
theorem roundBytes_twice : roundBytes (roundBytes nbytes) = roundBytes nbytes := by
  have same : ∀ n, roundBytes n = (n + 63) % 2 ^ 32 / 64 * 64 := fun n => rfl
  rw [same, same]
  omega

/-- An address that can be aligned without wrapping is aligned upwards. -/
theorem alignUp_spec (addr k : Nat) (small : addr + 2 ^ k < 2 ^ 32) :
    addr ≤ alignUp addr (2 ^ k) ∧ alignUp addr (2 ^ k) < addr + 2 ^ k ∧
      alignUp addr (2 ^ k) % 2 ^ k = 0 := by
  -- Adding one unit less one and cutting the low bits off goes up to the next multiple.
  have positive : 0 < 2 ^ k := Nat.two_pow_pos k
  have exponent : k ≤ 32 := by
    apply Nat.le_of_lt
    rw [← Nat.pow_lt_pow_iff_right (show 1 < 2 by decide)]
    omega
  have sum : (addr + 2 ^ k + 2 ^ 32 - 1) % 2 ^ 32 = addr + 2 ^ k - 1 := by omega
  have mask : (2 ^ k + 2 ^ 32 - 1) % 2 ^ 32 = 2 ^ k - 1 := by omega
  have up : alignUp addr (2 ^ k) = (addr + 2 ^ k - 1) / 2 ^ k * 2 ^ k := by
    rw [alignUp, sum, mask]
    exact and_mask (by omega) exponent
  have split := Nat.div_add_mod (addr + 2 ^ k - 1) (2 ^ k)
  have below := Nat.mod_lt (addr + 2 ^ k - 1) positive
  rw [Nat.mul_comm] at split
  rw [up]
  exact ⟨by omega, by omega, Nat.mul_mod_left _ _⟩

/-- What freeing leaves behind: one free header, and a link back from behind. -/
structure Joined (m m' : Mem) (addr behind high : Nat) : Prop where
  prev : localPrev m' addr = localPrev m addr
  next : localNext m' addr = behind
  status : localStatus m' addr = statusFree
  back : behind ≠ 0 → localPrev m' behind = addr
  kept : Kept m m' addr high behind

/-- The stores that join a block with what is behind it. -/
def joinNode (m : Mem) (addr behind : Nat) : Mem :=
  let m := setLocalNext m addr behind
  let m := setLocalStatus m addr statusFree
  if behind ≠ 0 then setLocalPrev m behind addr else m

/-- Joining changes no link of a block further on. -/
theorem next_apart {addr behind : Nat} (apart : addr + 12 ≤ i) (small : i + 8 ≤ 2 ^ 32) :
    localNext (setLocalStatus (setLocalNext m addr behind) addr statusFree) i = localNext m i := by
  apply next_congr small
  intro a _ _
  rw [(header_eq (by omega)).2.2.2, store_outside (by omega), (header_eq (by omega)).2.2.1,
    store_outside (by omega)]

/-- Joining leaves a free block in front of the one behind. -/
theorem joinNode_spec {addr behind : Nat} (room : addr + 12 ≤ high) (small : high ≤ 2 ^ 32)
    (seam : behind = 0 ∨ high ≤ behind) (behind_lt : behind < 2 ^ 32) :
    Joined m (joinNode m addr behind) addr behind high := by
  -- The link forwards, the status and the link back from behind are stored, in this order.
  have zero : statusFree < 2 ^ 32 := by decide
  have stores : joinNode m addr behind = if behind ≠ 0 then
      store (store (store m (addr + 4) behind) (addr + 8) statusFree) behind addr
      else store (store m (addr + 4) behind) (addr + 8) statusFree := by
    simp only [joinNode, (header_eq (i := addr) (by omega)).2.2.1,
      (header_eq (i := addr) (by omega)).2.2.2, setLocalPrev]
  generalize joinNode m addr behind = m' at stores ⊢
  obtain ⟨back, rest⟩ := link_back _ (by omega) stores
  have loads : ∀ a, a + 4 ≤ high → load m' a =
      load (store (store m (addr + 4) behind) (addr + 8) statusFree) a :=
    fun a _ => load_congr fun x _ _ => rest x (by omega)
  obtain ⟨next, status, _, _⟩ := header_eq (m := m') (v := 0) (i := addr) (by omega)
  refine ⟨?_, ?_, ?_, back, ?_⟩
  · rw [localPrev, loads addr (by omega), load_store_apart (by omega), load_store_apart (by omega)]
    rfl
  · rw [next, loads _ (by omega), load_store_apart (by omega), load_store behind_lt]
  · rw [status, loads _ (by omega), load_store zero]
  · intro a outside apart
    rw [rest a apart, store_outside (by omega), store_outside (by omega)]

/-- Setting the status alone joins a block with nothing. -/
theorem setStatus_joined {addr behind : Nat} (room : addr + 12 ≤ high) (small : high ≤ 2 ^ 32)
    (seam : behind = 0 ∨ high ≤ behind) (next : localNext m addr = behind)
    (back : behind ≠ 0 → localPrev m behind = addr) :
    Joined m (setLocalStatus m addr statusFree) addr behind high := by
  -- Only the four bytes of the status change.
  have written := (header_eq (m := m) (v := statusFree) (i := addr) (by omega)).2.2.2
  have outside : ∀ a, a < addr + 8 ∨ addr + 12 ≤ a → setLocalStatus m addr statusFree a = m a := by
    intro a apart
    rw [written]
    exact store_outside (by omega)
  refine ⟨prev_congr fun a _ _ => outside a (by omega), ?_, ?_, fun some => ?_,
    fun a _ _ => outside a (by omega)⟩
  · exact (next_congr (by omega) fun a _ _ => outside a (by omega)).trans next
  · rw [written, (header_eq (v := 0) (by omega)).2.1]
    exact load_store (by decide)
  · exact (prev_congr fun a _ _ => outside a (by omega)).trans (back some)

/-- The block in front is found free when there is a free one. -/
theorem Chained.free_front (chained : Chained area m (before ++ x :: after))
    (nonzero : ∀ w ∈ before, w.start ≠ 0) :
    (localPrev m x.start ≠ 0 ∧ localStatus m (localPrev m x.start) = statusFree) ↔
      ∃ w ∈ before.getLast?, w.busy = false := by
  -- The link backwards is the last block in front, or zero.
  rw [chained.links.1]
  rcases List.eq_nil_or_concat before with none | ⟨rest, w, rfl⟩
  · subst none
    simp
  · have member : w ∈ rest.concat w ++ x :: after := by simp
    have start : w.start ≠ 0 := nonzero w (by simp)
    rw [List.concat_eq_append, List.map_append, List.map_singleton, List.getLastD_concat,
      chained.free_iff member]
    simp [start]

/-- The block behind is found free when there is a free one. -/
theorem Chained.free_behind (chained : Chained area m (before ++ x :: after))
    (nonzero : ∀ w ∈ after, w.start ≠ 0) :
    (localNext m x.start ≠ 0 ∧ localStatus m (localNext m x.start) = statusFree) ↔
      ∃ w ∈ after.head?, w.busy = false := by
  -- The link forwards is the first block behind, or zero.
  rw [chained.links.2]
  cases after with
  | nil => simp
  | cons w rest =>
    have start : w.start ≠ 0 := nonzero w (by simp)
    have free := chained.free_iff (b := w) (by simp)
    simp [start, free]

/-- The four cases of a free, in terms of the block that remains and of the one behind it. -/
theorem localDeallocInner_eq (small : i + 16 < 2 ^ 32)
    (left : localPrev m i ≠ 0 → localPrev m i + 12 ≤ i)
    (right : localNext m i ≠ 0 → i + 12 ≤ localNext m i ∧ localNext m i + 8 ≤ 2 ^ 32) :
    localDeallocInner m (i + 16) =
      if localPrev m i ≠ 0 ∧ localStatus m (localPrev m i) = statusFree then
        if localNext m i ≠ 0 ∧ localStatus m (localNext m i) = statusFree then
          joinNode m (localPrev m i) (localNext m (localNext m i))
        else joinNode m (localPrev m i) (localNext m i)
      else if localNext m i ≠ 0 ∧ localStatus m (localNext m i) = statusFree then
        joinNode m i (localNext m (localNext m i))
      else setLocalStatus m i statusFree := by
  have block : (i + 16 + 2 ^ 32 - sizeHeader) % 2 ^ 32 = i := by
    change (i + 16 + 2 ^ 32 - 16) % 2 ^ 32 = i
    omega
  simp only [localDeallocInner, block]
  by_cases front : localPrev m i ≠ 0 ∧ localStatus m (localPrev m i) = statusFree
  · have before := left front.1
    by_cases behind : localNext m i ≠ 0 ∧ localStatus m (localNext m i) = statusFree
    · -- The links that are read once more lie behind the header that has been written.
      have after := right behind.1
      rw [if_pos ⟨front.1, front.2, behind⟩, if_pos front, if_pos behind, joinNode,
        next_apart (by omega) after.2]
    · rw [if_neg fun both => behind ⟨both.2.2.1, both.2.2.2⟩, if_pos front, if_pos front,
        if_neg behind, joinNode, next_apart before (by omega)]
  · rw [if_neg fun both => front ⟨both.1, both.2.1⟩, if_neg front, if_neg front]
    by_cases behind : localNext m i ≠ 0 ∧ localStatus m (localNext m i) = statusFree
    · have after := right behind.1
      rw [if_pos behind, if_pos behind, joinNode, next_apart after.1 after.2]
    · rw [if_neg behind, if_neg behind]

/-- A block in front ends where this one starts, or before. -/
theorem Chained.prev_le (chained : Chained area m (before ++ x :: after))
    (tiles : Tiles LocalBlock.region area.first (before ++ x :: after) area.last)
    (some : localPrev m x.start ≠ 0) : localPrev m x.start + 16 ≤ x.start := by
  -- The link leads to the last block in front, which has a header.
  have link := chained.links.1
  have ahead : Tiles LocalBlock.region area.first before x.start := tiles.front
  rcases List.eq_nil_or_concat before with none | ⟨rest, w, rfl⟩
  · subst none
    exact absurd link some
  · rw [List.concat_eq_append, List.map_append, List.map_singleton, List.getLastD_concat] at link
    have bound := (ahead.within (x := w) (by simp)).2
    have size : 16 ≤ w.size := (chained.sized w (by simp)).1
    change w.start + w.size ≤ x.start at bound
    omega

/-- A block behind starts where this one ends, and has a header. -/
theorem Chained.next_ge (chained : Chained area m (before ++ x :: after))
    (tiles : Tiles LocalBlock.region area.first (before ++ x :: after) area.last)
    (some : localNext m x.start ≠ 0) :
    localNext m x.start = x.start + x.size ∧ localNext m x.start + 16 ≤ area.last := by
  -- The link leads to the first block behind.
  have link := chained.links.2
  have back : Tiles LocalBlock.region (x.start + x.size) after area.last := tiles.behind
  cases after with
  | nil => exact absurd link some
  | cons y after =>
    have next : localNext m x.start = y.start := link
    have start : y.start = x.start + x.size := back.1
    have bound := (back.within (x := y) (by simp)).2
    have size : 16 ≤ y.size := (chained.sized y (by simp)).1
    change y.start + y.size ≤ area.last at bound
    omega

/-- The free block in front, if there is one, is the one that remains. -/
theorem Chained.remaining (chained : Chained area m (before ++ front ++ x :: after))
    (tiles : Tiles LocalBlock.region area.first (before ++ front ++ x :: after) area.last)
    (ahead : front = [] ∨ ∃ l, front = [l] ∧ l.busy = false)
    (prev : ∀ w ∈ before.getLast?, w.busy = true) :
    ∃ low, Tiles LocalBlock.region area.first before low ∧ low ≤ x.start ∧
      Tiles LocalBlock.region low front x.start ∧
      if localPrev m x.start ≠ 0 ∧ localStatus m (localPrev m x.start) = statusFree then
        localPrev m x.start = low else front = [] ∧ x.start = low := by
  -- What the test finds in front is the block that is joined, or there is none.
  have bounds := area_bounds area
  have whole : Tiles LocalBlock.region area.first (before ++ front) x.start := tiles.front
  obtain ⟨low, first, second⟩ := tiles_append.mp whole
  have sum := second.sum
  refine ⟨low, first, by omega, second, ?_⟩
  have found := chained.free_front fun w member => start_pos whole (by omega) w member
  rcases ahead with none | ⟨l, one, free⟩
  · subst none
    have same : low = x.start := second
    rw [List.append_nil] at found
    rw [if_neg fun both => ?_]
    · exact ⟨rfl, same.symm⟩
    · obtain ⟨w, last, idle⟩ := found.mp both
      rw [prev w last] at idle
      cases idle
  · subst one
    have same : l.start = low := second.1
    rw [if_pos (found.mpr ⟨l, by simp, free⟩), chained.links.1, List.map_append,
      List.map_singleton, List.getLastD_concat, same]

/-- The free block behind, if there is one, is passed over. -/
theorem Chained.passed (chained : Chained area m (before ++ x :: (run ++ after)))
    (tiles : Tiles LocalBlock.region area.first (before ++ x :: (run ++ after)) area.last)
    (behind : run = [] ∨ ∃ r, run = [r] ∧ r.busy = false)
    (next : ∀ w ∈ after.head?, w.busy = true) :
    ∃ high, Tiles LocalBlock.region high after area.last ∧ x.start + x.size ≤ high ∧
      Tiles LocalBlock.region (x.start + x.size) run high ∧
      if localNext m x.start ≠ 0 ∧ localStatus m (localNext m x.start) = statusFree then
        localNext m (localNext m x.start) = (after.map LocalBlock.start).headD 0
      else run = [] ∧ localNext m x.start = (after.map LocalBlock.start).headD 0 := by
  -- As in front, with the end of the joined part instead of its start.
  have bounds := area_bounds area
  have bound := tiles.within (x := x) (by simp)
  change area.first ≤ x.start ∧ x.start + x.size ≤ area.last at bound
  have whole : Tiles LocalBlock.region (x.start + x.size) (run ++ after) area.last := tiles.behind
  obtain ⟨high, first, second⟩ := tiles_append.mp whole
  have sum := first.sum
  refine ⟨high, second, by omega, first, ?_⟩
  have found := chained.free_behind fun w member => start_pos whole (by omega) w member
  rcases behind with none | ⟨r, one, free⟩
  · subst none
    rw [if_neg fun both => ?_]
    · exact ⟨rfl, chained.links.2⟩
    · obtain ⟨w, head, idle⟩ := found.mp both
      rw [next w head] at idle
      cases idle
  · subst one
    have start : localNext m x.start = r.start := chained.links.2
    rw [if_pos (found.mpr ⟨r, rfl, free⟩), start]
    rw [List.append_cons] at chained
    exact chained.links.2

/-- Freeing a block joins it with the free ones around it. -/
theorem Chained.freed (chained : Chained area m (before ++ (front ++ x :: run) ++ after))
    (tiles : Tiles LocalBlock.region area.first (before ++ (front ++ x :: run) ++ after) area.last)
    (ahead : front = [] ∨ ∃ l, front = [l] ∧ l.busy = false)
    (behind : run = [] ∨ ∃ r, run = [r] ∧ r.busy = false)
    (prev : ∀ w ∈ before.getLast?, w.busy = true) (next : ∀ w ∈ after.head?, w.busy = true) :
    ∃ low high, Tiles LocalBlock.region low (front ++ x :: run) high ∧
      Tiles LocalBlock.region high after area.last ∧ Tiles LocalBlock.region area.first before low ∧
      Joined m (localDeallocInner m (x.start + 16)) low ((after.map LocalBlock.start).headD 0)
        high := by
  have bounds := area_bounds area
  have here : before ++ (front ++ x :: run) ++ after = before ++ front ++ x :: (run ++ after) := by
    simp
  rw [here] at chained tiles
  have bound := tiles.within (x := x) (by simp)
  change area.first ≤ x.start ∧ x.start + x.size ≤ area.last at bound
  have size : 16 ≤ x.size := (chained.sized x (by simp)).1
  obtain ⟨low, first, low_le, second, left⟩ := chained.remaining tiles ahead prev
  obtain ⟨high, back, high_ge, third, right⟩ := chained.passed tiles behind next
  have sum := back.sum
  have seam := headD_start back
  have covers : Tiles LocalBlock.region low (front ++ x :: run) high :=
    tiles_append.mpr ⟨x.start, second, rfl, third⟩
  refine ⟨low, high, covers, back, first, ?_⟩
  rw [localDeallocInner_eq (by omega) (fun some => by have := chained.prev_le tiles some; omega)
    (fun some => by have := chained.next_ge tiles some; omega)]
  have linked : (after.map LocalBlock.start).headD 0 < 2 ^ 32 := by omega
  split at left
  · next merged =>
    have apart := chained.prev_le tiles merged.1
    rw [if_pos merged, left]
    rw [left] at apart
    split at right
    · next more =>
      rw [if_pos more, right]
      exact joinNode_spec (by omega) (by omega) (by omega) linked
    · next last =>
      rw [if_neg last, right.2]
      exact joinNode_spec (by omega) (by omega) (by omega) linked
  · next alone =>
    obtain ⟨none, same⟩ := left
    subst none
    rw [if_neg alone]
    split at right
    · next more =>
      rw [if_pos more, right, same]
      exact joinNode_spec (by omega) (by omega) (by omega) linked
    · next last =>
      -- Nothing is joined, and the link back from behind is the one that there was.
      obtain ⟨empty, link⟩ := right
      subst empty
      rw [if_neg last, same]
      apply setStatus_joined (by omega) (by omega) (by omega) (same ▸ link)
      intro some
      have member : (after.map LocalBlock.start).headD 0 ∈ (after.map LocalBlock.start).head? := by
        cases after with
        | nil => exact absurd rfl some
        | cons y after => rfl
      have chained' : Chained area m (before ++ [x] ++ after) := by simpa using chained
      have back := chained'.back member
      rw [List.map_append, List.map_singleton, List.getLastD_concat] at back
      exact back.trans same

/-- The blocks that a free joins are one free block in the chain. -/
theorem Chained.join (chained : Chained area m (before ++ run ++ after)) (filled : run ≠ [])
    (first : Tiles LocalBlock.region area.first before low)
    (covers : Tiles LocalBlock.region low run high)
    (back : Tiles LocalBlock.region high after area.last)
    (joined : Joined m m' low ((after.map LocalBlock.start).headD 0) high) :
    Chained area m' (before ++ [⟨low, high - low, false, low + 16⟩] ++ after) := by
  -- The first header of the run becomes that of the whole run.
  obtain ⟨x, rest, rfl⟩ := List.exists_cons_of_ne_nil filled
  have start : x.start = low := covers.1
  have size := chained.sized x (by simp)
  have long : 16 ≤ x.size := size.1
  have bound := (covers.within (x := x) (by simp)).2
  change x.start + x.size ≤ high at bound
  refine chained.exchange first back (by omega) (by rw [← start]; rfl) rfl joined.kept ?_ ?_ ?_ ?_
  · have old := chained.linked
    rw [List.map_append, List.map_append, linked_append, linked_append] at old
    refine ⟨joined.prev.trans ?_, joined.next, trivial⟩
    rw [← start]
    exact old.1.2.1
  · intro i member
    obtain ⟨same, head⟩ := head_start back member
    rw [same, ← head]
    exact joined.back (by omega)
  · intro b member
    rw [List.mem_singleton.mp member]
    exact joined.status
  · intro b member
    rw [List.mem_singleton.mp member]
    refine ⟨?_, ?_⟩
    · change 16 ≤ high - low
      omega
    · change low % 4 = 0
      rw [← start]
      exact size.2

end LocalMem

end Aip
