import Aip.Lib.Runs
import Aip.Memory.LocalCalls

/-! The blocks of the older allocator stay one chain that tiles the heap. -/

namespace Aip

open Words Tiling Blocks LocalMem

/-- The alignment that a call promises. -/
def LocalCall.align : LocalCall → Nat
  | .alignAlloc align _ => align
  | _ => 4

/-- The bytes that a call looks for; a product is one of unsigned integers. -/
def LocalCall.request : LocalCall → Option Nat
  | .alloc nbytes => some nbytes
  | .calloc size n => some (size * n % 2 ^ 32)
  | .alignAlloc align size => some (size + align)
  | .dealloc _ => none
  | .write _ _ => none

namespace LocalUse

/-- What is expected of the blocks whose headers lie in the memory, and of the live ranges. -/
structure Tagged (area : HeapArea) (use : LocalUse) (blocks : List LocalBlock) : Prop where
  chained : Chained area use.mem blocks
  tiles : Tiles LocalBlock.region area.first blocks area.last
  separated : blocks.IsChain fun b c => ¬ (b.busy = false ∧ c.busy = false)
  keyed : ∀ b ∈ blocks, b.Keyed use.mem
  ranges : ∃ ranges, ranges.Perm use.live ∧ List.Forall₂
    (fun (b : LocalBlock) r => r.start = b.user ∧ r.Inside b.region)
    (blocks.filter fun b => b.busy) ranges
  apart : use.live.Pairwise Region.Apart
  restored : use.live = [] → blocks.map LocalBlock.region = [⟨area.first, area.last - area.first⟩] ∧
    localPrev use.mem area.first = 0 ∧ localNext use.mem area.first = 0 ∧
    localStatus use.mem area.first = statusFree

/-- Every call has returned, and the headers describe blocks as expected. -/
def Ordered (area : HeapArea) (use : LocalUse) : Prop :=
  use.stuck = false ∧ ∃ blocks, Tagged area use blocks

/-- The range that a call hands out starts at a multiple of the alignment. -/
def Aligned (use : LocalUse) (call : LocalCall) (after : LocalUse) : Prop :=
  ∀ r, after.live = r :: use.live → r.start % call.align = 0

/--
What the callers promise.

Sizes can be rounded, alignments are powers of two, and users free and write what they hold.
-/
def Allowed (use : LocalUse) (call : LocalCall) (_ : LocalUse) : Prop :=
  (∀ nbytes, call.request = some nbytes → nbytes + 63 < 2 ^ 32) ∧
    match call with
    | .alignAlloc align _ => ∃ k, 2 ≤ k ∧ align = 2 ^ k
    | .dealloc address => ∃ r ∈ use.live, r.start = address
    | .write address _ => ∃ r ∈ use.live, r.start ≤ address ∧ address < r.start + r.size
    | _ => True

/-- The blocks that are found from the first one on. -/
inductive Reached (m : Mem) (heap : Nat) : Nat → Prop
  | first : Reached m heap (localFirst m heap)
  | next (addr : Nat) : Reached m heap addr → localNext m addr ≠ 0 →
    Reached m heap (localNext m addr)

/-- The rounded size and what is added to it fit into a word, or no free block has any room. -/
def Unwrapped (area : HeapArea) (use : LocalUse) (call : LocalCall) (_ : LocalUse) : Prop :=
  ∀ nbytes, call.request = some nbytes →
    roundBytes nbytes + sizeHeader + minFreeBytes < 2 ^ 32 ∨
      ∀ addr, Reached use.mem area.heap addr → localStatus use.mem addr = statusFree →
        freeSize use.mem area.heap addr < 16

/-- The headers and the words in front of the ranges are right, and busy blocks hold the ranges. -/
structure Sound (area : HeapArea) (use : LocalUse) (blocks : List LocalBlock) : Prop where
  chained : Chained area use.mem blocks
  keyed : ∀ b ∈ blocks, b.Keyed use.mem
  held : Held LocalBlock.view area.first area.last blocks use.live

variable {area : HeapArea} {m m' : Mem} {use after : LocalUse} {call : LocalCall}
  {blocks front back : List LocalBlock} {b x : LocalBlock} {address nbytes : Nat}

/-- A sound state has all that is expected of it. -/
theorem Sound.tagged (sound : Sound area use blocks) : Tagged area use blocks where
  -- The parts of the invariant under the names of the claim.
  chained := sound.chained
  tiles := sound.held.tiles
  separated := by
    -- Of two neighbours one is busy, which is what is expected, said the other way.
    apply sound.held.single.imp
    intro b c linked both
    change b.busy = true ∨ c.busy = true at linked
    rw [both.1, both.2] at linked
    simp at linked
  keyed := sound.keyed
  ranges := sound.held.matched
  apart := sound.held.apart
  restored := by
    intro none
    have held := sound.held
    rw [none] at held
    -- Without live ranges one free block is left, whose header is that of the start.
    obtain ⟨b, rfl, idle, start, size⟩ := held.restored
    change b.busy = false at idle
    change b.start = area.first at start
    change area.first + b.size = area.last at size
    have chained : Chained area use.mem ([] ++ b :: []) := sound.chained
    rw [← start]
    refine ⟨?_, chained.links.1, chained.links.2, (chained.free_iff (by simp)).mpr idle⟩
    have length : b.size = area.last - b.start := by omega
    rw [← length]
    rfl

/-- `Local_HeapInit` writes the bounds of the heap and one header, whether there is room or not. -/
theorem localHeapInit_stores {heap size : Nat} (m : Mem) (aligned : heap % 4 = 0)
    (accepted : 16 ≤ size) (inside : heap + size < 2 ^ 32) (room : heap + 80 ≤ 2 ^ 32) :
    LocalMem.localHeapInit m heap size =
      (store (store (store (store (store m heap (heap + 64)) (heap + 4) ((heap + size) / 4 * 4))
        (heap + 64) 0) (heap + 64 + 4) 0) (heap + 64 + 8) statusFree, 1) := by
  have first : (heap + minFreeBytes) % 2 ^ 32 = heap + 64 := by
    change (heap + 64) % 2 ^ 32 = heap + 64
    omega
  have last : (heap + size) % 2 ^ 32 / 4 * 4 = (heap + size) / 4 * 4 := by
    rw [Nat.mod_eq_of_lt inside]
  have second : (heap + 4) % 2 ^ 32 = heap + 4 := Nat.mod_eq_of_lt (by omega)
  have next : (heap + 64 + 4) % 2 ^ 32 = heap + 64 + 4 := Nat.mod_eq_of_lt (by omega)
  have status : (heap + 64 + 8) % 2 ^ 32 = heap + 64 + 8 := Nat.mod_eq_of_lt (by omega)
  rw [LocalMem.localHeapInit, if_neg (by omega), if_neg (by omega)]
  -- Each store leaves the word alone that says where the first block is.
  have read : ∀ m' : Mem, load m' heap = heap + 64 → localFirst m' heap = heap + 64 :=
    fun m' same => same
  have one : load (store (store m heap (heap + 64)) (heap + 4) ((heap + size) / 4 * 4)) heap =
      heap + 64 := by
    rw [load_store_apart (by omega), load_store (by omega)]
  have two : load (store (store (store m heap (heap + 64)) (heap + 4) ((heap + size) / 4 * 4))
      (heap + 64) 0) heap = heap + 64 := by
    rw [load_store_apart (by omega), one]
  have three : load (store (store (store (store m heap (heap + 64)) (heap + 4)
      ((heap + size) / 4 * 4)) (heap + 64) 0) (heap + 64 + 4) 0) heap = heap + 64 := by
    rw [load_store_apart (by omega), two]
  -- Each store now goes to an address that is known.
  simp only [setLocalFirst, setLocalLast, setLocalPrev, setLocalNext, setLocalStatus, first, last,
    second, read _ one, next, read _ two, read _ three, status]

/-- The stores of `Local_HeapInit` in terms of the area. -/
theorem localHeapInit_eq (area : HeapArea) (m : Mem) :
    LocalMem.localHeapInit m area.heap area.size =
      (store (store (store (store (store m area.heap area.first) (area.heap + 4) area.last)
        area.first 0) (area.first + 4) 0) (area.first + 8) statusFree, 1) := by
  have enough := area.enough
  have inside := area.inside
  exact localHeapInit_stores m area.aligned (by omega) inside (by omega)

/-- The first state is sound. -/
theorem sound_init (area : HeapArea) (m : Mem) : Sound area (init area m)
    [⟨area.first, area.last - area.first, false, area.first + 16⟩] := by
  -- Each word is read back past the stores behind it.
  have bounds := area_bounds area
  have stores : (init area m).mem = _ := congrArg Prod.fst (localHeapInit_eq area m)
  have second : (area.heap + 4) % 2 ^ 32 = area.heap + 4 := Nat.mod_eq_of_lt (by omega)
  obtain ⟨next, status, _, _⟩ := header_eq (m := (init area m).mem) (v := 0) (i := area.first)
    (by omega)
  refine ⟨⟨?_, ?_, ⟨?_, ?_, trivial⟩, ?_, ?_⟩, ?_, ?_⟩
  · rw [localFirst, stores]
    simp (disch := omega) only [load_store_apart, load_store]
  · rw [localLast, second, stores]
    simp (disch := omega) only [load_store_apart, load_store]
  · change load (init area m).mem area.first = 0
    rw [stores]
    simp (disch := omega) only [load_store_apart, load_store]
  · change localNext (init area m).mem area.first = 0
    rw [next, stores]
    simp (disch := omega) only [load_store_apart, load_store]
  · intro b member
    rw [List.mem_singleton.mp member]
    change localStatus (init area m).mem area.first = statusFree
    rw [status, stores]
    exact load_store (by decide)
  · intro b member
    rw [List.mem_singleton.mp member]
    refine ⟨?_, bounds.2.2.2.1⟩
    change 16 ≤ area.last - area.first
    omega
  · intro b member
    rw [List.mem_singleton.mp member]
    refine ⟨Nat.le_refl _, ?_, fun busy => by cases busy⟩
    dsimp only
    omega
  · refine Held.init rfl ?_ rfl
    change area.first + (area.last - area.first) = area.last
    omega

/-- The blocks lie in the heap, one behind the other. -/
theorem Sound.bounds (sound : Sound area use blocks) (member : b ∈ blocks) :
    area.first ≤ b.start ∧ b.start + b.size ≤ area.last ∧ 16 ≤ b.size :=
  have bound := sound.held.tiles.within member
  ⟨bound.1, bound.2, (sound.chained.sized b member).1⟩

/-- What is written into a block behind its header does not concern the other blocks. -/
theorem Sound.elsewhere (sound : Sound area use (front ++ x :: back)) (member : b ∈ front ++ back) :
    b.start + b.size ≤ x.start ∨ x.start + x.size ≤ b.start :=
  sound.held.tiles.elsewhere member

/-- A write into a block behind its header leaves the chain as it is. -/
theorem chained_write (chained : Chained area m (front ++ x :: back))
    (tiles : Tiles LocalBlock.region area.first (front ++ x :: back) area.last)
    (same : ∀ a, a < x.start + 12 ∨ x.start + x.size ≤ a → m' a = m a) :
    Chained area m' (front ++ x :: back) := by
  -- All other headers are outside of the block.
  have bounds := area_bounds area
  have inside : ∀ b ∈ front ++ x :: back,
      area.first ≤ b.start ∧ b.start + b.size ≤ area.last ∧ 16 ≤ b.size := fun b member =>
    have bound := tiles.within member
    ⟨bound.1, bound.2, (chained.sized b member).1⟩
  have own := inside x (by simp)
  refine chained.congr (fun a _ _ => same a (by omega)) ?_ ?_
  · intro b member
    have bound := inside b member
    omega
  · intro b member a low high
    have bound := inside b member
    apply same
    -- A header lies in front of the block, is the header of the block, or lies behind it.
    rcases List.mem_append.mp member with ahead | rest
    · have apart := tiles.elsewhere (List.mem_append_left back ahead)
      change b.start + b.size ≤ x.start ∨ x.start + x.size ≤ b.start at apart
      omega
    · rcases List.mem_cons.mp rest with rfl | behind
      · omega
      · have apart := tiles.elsewhere (List.mem_append_right front behind)
        change b.start + b.size ≤ x.start ∨ x.start + x.size ≤ b.start at apart
        omega

/-- A user may write what the user holds, which lies in the heap. -/
theorem Sound.write (sound : Sound area use blocks) {byte : UInt8}
    (holds : ∃ r ∈ use.live, r.start ≤ address ∧ address < r.start + r.size) :
    Sound area { use with mem := fill use.mem address 1 byte } blocks ∧
      Spares area use.mem (fill use.mem address 1 byte) := by
  have bounds := area_bounds area
  obtain ⟨r, live, low, high⟩ := holds
  -- The range belongs to a busy block, behind the header.
  obtain ⟨x, place, busy, start, inside⟩ := sound.held.matched.holder live
  change r.start = x.user at start
  have bottom : x.start ≤ r.start := inside.1
  have top : r.start + r.size ≤ x.start + x.size := inside.2
  have behind : x.start + 16 ≤ x.user := (sound.keyed x place).1
  have own := sound.bounds place
  obtain ⟨front, back, rfl⟩ := List.append_of_mem place
  have same : ∀ a, a ≠ address → fill use.mem address 1 byte a = use.mem a := fun a other =>
    fill_outside (by omega)
  have last : area.last = (area.heap + area.size) / 4 * 4 := rfl
  refine ⟨⟨?_, ?_, sound.held⟩, fun a _ => same a (by omega)⟩
  · exact chained_write sound.chained sound.held.tiles fun a _ => same a (by omega)
  · -- The word in front of the range is not part of it, and other blocks lie elsewhere.
    intro b member
    have bound := sound.bounds member
    rcases List.mem_append.mp member with ahead | rest
    · have apart := sound.elsewhere (List.mem_append_left back ahead)
      exact keyed_congr (sound.keyed b member) (by omega) fun a _ _ => same a (by omega)
    · rcases List.mem_cons.mp rest with rfl | later
      · obtain ⟨above, within, word⟩ := sound.keyed b member
        refine ⟨above, within, fun busy => ?_⟩
        have old := word busy
        rw [getalign_eq (by omega) (by omega)] at old ⊢
        exact (load_congr fun a _ _ => same a (by omega)).trans old
      · have apart := sound.elsewhere (List.mem_append_right front later)
        exact keyed_congr (sound.keyed b member) (by omega) fun a _ _ => same a (by omega)

/-- The word in front of what a user holds leads to the block. -/
theorem Sound.localDealloc_eq (sound : Sound area use blocks) (place : x ∈ blocks)
    (busy : x.busy = true) :
    LocalMem.localDealloc use.mem x.user = localDeallocInner use.mem (x.start + 16) := by
  -- The distance that is stored leads back to the end of the header.
  have bounds := area_bounds area
  have own := sound.bounds place
  obtain ⟨behind, within, word⟩ := sound.keyed x place
  change x.start + 16 ≤ x.user at behind
  have back : localGetalign use.mem x.user = x.user - (x.start + 16) := word busy
  rw [LocalMem.localDealloc, back]
  congr 1
  omega

/-- One block that covers what a list does may take its place. -/
theorem covers_one {low high start stop : Nat} {run : List LocalBlock} (filled : run ≠ [])
    (covers : Tiles LocalBlock.region low run high) (free : Bool) (user : Nat)
    (tiles : Tiles LocalBlock.region start run stop) :
    Tiles LocalBlock.region start [⟨low, high - low, free, user⟩] stop := by
  -- The run starts where the first of its blocks does.
  obtain ⟨y, rest, rfl⟩ := List.exists_cons_of_ne_nil filled
  have first := covers.sum
  have second := tiles.sum
  have same : low = start := covers.1.symm.trans tiles.1
  refine ⟨same, ?_⟩
  change start + (high - low) = stop
  omega

/-- A live range is held by one of the busy blocks. -/
theorem Sound.found (sound : Sound area use blocks) (holds : ∃ r ∈ use.live, r.start = address) :
    ∃ before x after, blocks = before ++ x :: after ∧ x.busy = true ∧ x.user = address := by
  obtain ⟨r, live, start⟩ := holds
  obtain ⟨x, place, busy, key, _⟩ := sound.held.matched.holder live
  obtain ⟨before, after, rfl⟩ := List.append_of_mem place
  exact ⟨before, x, after, rfl, busy, key.symm.trans start⟩

/-- The addresses of users lie in their own blocks, behind the headers. -/
theorem Sound.keys (sound : Sound area use blocks) :
    blocks.Pairwise fun x y => LocalBlock.view.key x ≠ LocalBlock.view.key y := by
  apply sound.held.tiles.ordered.imp_of_mem
  intro x y first second ordered
  have left := (sound.keyed x first).2.1
  have right : y.start + 16 ≤ y.user := (sound.keyed y second).1
  change x.start + x.size ≤ y.start at ordered
  change x.user ≠ y.user
  omega

/-- No block in front of one has the same address for its user. -/
theorem Sound.earlier (sound : Sound area use (front ++ x :: back)) :
    ∀ w ∈ front, LocalBlock.view.key w ≠ LocalBlock.view.key x := fun w member =>
  (List.pairwise_append.mp sound.keys).2.2 w member x (by simp)

/-- A busy block with the free ones around it, and what freeing its address does to the memory. -/
structure Frees (area : HeapArea) (m : Mem) (address : Nat) (before front : List LocalBlock)
    (x : LocalBlock) (run after : List LocalBlock) (low high : Nat) : Prop where
  busy : x.busy = true
  known : x.user = address
  idle : ∀ y ∈ front ++ run, y.busy = false
  prev : ∀ w ∈ before.getLast?, w.busy = true
  next : ∀ w ∈ after.head?, w.busy = true
  first : Tiles LocalBlock.region area.first before low
  covers : Tiles LocalBlock.region low (front ++ x :: run) high
  rest : Tiles LocalBlock.region high after area.last
  joined : Joined m (LocalMem.localDealloc m address) low ((after.map LocalBlock.start).headD 0) high

/-- What a user holds is freed with the free blocks around it. -/
theorem Sound.frees (sound : Sound area use blocks) (holds : ∃ r ∈ use.live, r.start = address) :
    ∃ before front x run after low high, blocks = before ++ (front ++ x :: run) ++ after ∧
      Frees area use.mem address before front x run after low high := by
  obtain ⟨ahead, x, behind, rfl, busy, known⟩ := sound.found holds
  have inner := sound.localDealloc_eq (x := x) (by simp) busy
  rw [known] at inner
  -- At most one free block lies on either side.
  have sides := Splice.isChain_around.mp sound.held.single
  obtain ⟨before, front, rfl, single, prev⟩ := Splice.exists_last LocalBlock.busy sides.1
  obtain ⟨run, after, rfl, alone, next⟩ := Splice.exists_first LocalBlock.busy sides.2.2.2
  have here : before ++ front ++ x :: (run ++ after) = before ++ (front ++ x :: run) ++ after := by
    simp
  have chained := sound.chained
  have tiles := sound.held.tiles
  rw [here] at chained tiles
  obtain ⟨low, high, covers, rest, first, joined⟩ := chained.freed tiles single alone prev next
  rw [← inner] at joined
  -- Whatever is joined with the block is free.
  have idle : ∀ y ∈ front ++ run, y.busy = false := by
    intro y member
    rcases List.mem_append.mp member with left | right
    · rcases single with none | ⟨l, one, free⟩
      · simp [none] at left
      · rw [one] at left
        exact List.mem_singleton.mp left ▸ free
    · rcases alone with none | ⟨l, one, free⟩
      · simp [none] at right
      · rw [one] at right
        exact List.mem_singleton.mp right ▸ free
  exact ⟨before, front, x, run, after, low, high, here,
    ⟨busy, known, idle, prev, next, first, covers, rest, joined⟩⟩

/-- Freeing what a user holds keeps the state sound, and writes in the heap only. -/
theorem Sound.dealloc (sound : Sound area use blocks)
    (holds : ∃ r ∈ use.live, r.start = address) :
    (∃ blocks', Sound area { use with
      mem := LocalMem.localDealloc use.mem address
      live := use.live.eraseP fun r => r.start = address } blocks') ∧
    Spares area use.mem (LocalMem.localDealloc use.mem address) := by
  have bounds := area_bounds area
  obtain ⟨before, front, x, run, after, low, high, rfl,
    ⟨busy, known, idle, prev, next, first, covers, rest, joined⟩⟩ := sound.frees holds
  have here : before ++ (front ++ x :: run) ++ after = before ++ front ++ x :: (run ++ after) := by
    simp
  have filled : front ++ x :: run ≠ [] := by simp
  have chained := sound.chained
  have held := sound.held
  have earlier := (here ▸ sound : Sound area use _).earlier
  have spares : Spares area use.mem (LocalMem.localDealloc use.mem address) := by
    have link := headD_inside rest fun y member => chained.sized y (by simp [member])
    have front := first.sum
    have inner := covers.sum
    have back := rest.sum
    exact joined.kept.spares (by omega) (by omega) (by omega)
  refine ⟨⟨before ++ ⟨low, high - low, false, low + 16⟩ :: after, ?_, ?_, ?_⟩, spares⟩
  · -- The joined block takes the place of the others in the chain.
    have chained' := chained.join filled first covers rest joined
    simpa using chained'
  · -- The words in front of the other ranges lie in blocks that stay as they are.
    have own := covers.within (x := x) (by simp)
    have size : 16 ≤ x.size := (chained.sized x (by simp)).1
    have sum := rest.sum
    have seam := headD_start rest
    change low ≤ x.start ∧ x.start + x.size ≤ high at own
    intro b member
    rcases List.mem_append.mp member with left | later
    · have bound := (first.within left).2
      change b.start + b.size ≤ low at bound
      exact keyed_congr (sound.keyed b (by simp [left])) (by omega) fun a _ _ =>
        joined.kept a (by omega) (by omega)
    · rcases List.mem_cons.mp later with rfl | right
      · refine ⟨Nat.le_refl _, ?_, fun busy => by cases busy⟩
        dsimp only
        omega
      · have bound := rest.within right
        change high ≤ b.start ∧ b.start + b.size ≤ area.last at bound
        exact keyed_congr (sound.keyed b (by simp [right])) (by omega) fun a _ _ =>
          joined.kept a (by omega) (by omega)
  · -- The range is no longer live, and its block no longer busy.
    have released := held.release (z := ⟨low, high - low, false, low + 16⟩) busy idle
      (fun start stop _ tiles => covers_one filled covers false (low + 16) tiles) rfl prev next
      (fun w member => earlier w (List.mem_append_left front member))
    have starts : (fun r : Region => decide (r.start = LocalBlock.view.key x)) =
        fun r => decide (r.start = address) := by
      rw [← known]
      rfl
    rw [starts] at released
    exact released

/-- Freeing an address leaves what other busy blocks have behind the link to the block in front. -/
theorem Sound.dealloc_same (sound : Sound area use blocks)
    (holds : ∃ r ∈ use.live, r.start = address) {z : LocalBlock} (member : z ∈ blocks)
    (busy : z.busy = true) (other : z.user ≠ address) {a : Nat} (low : z.start + 4 ≤ a)
    (high : a < z.start + z.size) : LocalMem.localDealloc use.mem address a = use.mem a := by
  obtain ⟨before, front, x, run, after, bottom, top, rfl, frees⟩ := sound.frees holds
  have seam := headD_start frees.rest
  have sum := frees.covers.sum
  rcases List.mem_append.mp member with early | late
  · rcases List.mem_append.mp early with left | joined
    · have bound := (frees.first.within left).2
      change z.start + z.size ≤ bottom at bound
      exact frees.joined.kept a (by omega) (by omega)
    · -- Of the blocks that are joined, only the one of the address was busy.
      rcases List.mem_append.mp joined with ahead | rest
      · have free := frees.idle z (List.mem_append_left run ahead)
        rw [busy] at free
        cases free
      · rcases List.mem_cons.mp rest with rfl | behind
        · exact absurd frees.known other
        · have free := frees.idle z (List.mem_append_right front behind)
          rw [busy] at free
          cases free
  · have bound := (frees.rest.within late).1
    change top ≤ z.start at bound
    exact frees.joined.kept a (by omega) (by omega)

/-- Blocks of a header and more are fewer than the addresses they cover. -/
theorem length_le {low high : Nat} (tiles : Tiles LocalBlock.region low blocks high)
    (sized : ∀ b ∈ blocks, b.Sized) : low + blocks.length ≤ high := by
  -- The induction is on the blocks.
  induction blocks generalizing low with
  | nil => exact Nat.le_of_eq tiles
  | cons b blocks ih =>
    have rest := ih tiles.2 fun y member => sized y (by simp [member])
    -- A block has a header at least, so it covers an address of its own.
    have long : 16 ≤ b.size := (sized b (by simp)).1
    change low + b.size + blocks.length ≤ high at rest
    rw [List.length_cons]
    omega

/-- The blocks behind one that is reached are reached from it. -/
theorem reached_behind (chained : Chained area m (front ++ b :: back))
    (here : Reached m area.heap b.start) (nonzero : ∀ y ∈ back, y.start ≠ 0) :
    ∀ y ∈ b :: back, Reached m area.heap y.start := by
  induction back generalizing front b with
  | nil =>
    intro y member
    rw [List.mem_singleton.mp member]
    exact here
  | cons z back ih =>
    -- The link of the block leads to the next one.
    have link : localNext m b.start = z.start := chained.links.2
    have next : Reached m area.heap z.start := by
      rw [← link]
      exact here.next _ (by rw [link]; exact nonzero z (by simp))
    rw [List.append_cons] at chained
    intro y member
    rcases List.mem_cons.mp member with rfl | later
    · exact here
    · exact ih chained next (fun y member => nonzero y (by simp [member])) y later

/-- Every block is found from the first one on. -/
theorem Sound.reached (sound : Sound area use blocks) (member : b ∈ blocks) :
    Reached use.mem area.heap b.start := by
  have bounds := area_bounds area
  have start := start_pos sound.held.tiles (by omega)
  -- The heap stores the address of the first block.
  obtain ⟨x, rest, rfl⟩ := List.exists_cons_of_ne_nil sound.held.filled
  have chained : Chained area use.mem ([] ++ x :: rest) := sound.chained
  have first : localFirst use.mem area.heap = x.start := chained.first.trans sound.held.tiles.1.symm
  exact reached_behind chained (first ▸ Reached.first) (fun y later => start y (by simp [later])) b
    member

/-- A search finds nothing, or a free block on the chain passes one of the tests. -/
theorem Sound.search (sound : Sound area use blocks) (nbytes : Nat) :
    localAllocInner use.mem area.heap nbytes = some (use.mem, 0) ∨
      ∃ before b after, blocks = before ++ b :: after ∧ b.busy = false ∧
        Reached use.mem area.heap b.start ∧
        (currentNodeAlloc use.mem area.heap b.start (roundBytes nbytes)).2 = true ∧
        localAllocInner use.mem area.heap nbytes =
          some ((currentNodeAlloc use.mem area.heap b.start (roundBytes nbytes)).1,
            b.start + 16) := by
  have bounds := area_bounds area
  have start := start_pos sound.held.tiles (by omega)
  have length := length_le sound.held.tiles sound.chained.sized
  obtain ⟨x, rest, rfl⟩ := List.exists_cons_of_ne_nil sound.held.filled
  have chained : Chained area use.mem ([] ++ x :: rest) := sound.chained
  have first : localFirst use.mem area.heap = x.start := chained.first.trans sound.held.tiles.1.symm
  have nonzero : ∀ y ∈ rest, y.start ≠ 0 := fun y member => start y (by simp [member])
  rw [List.length_cons] at length
  rw [localAllocInner, first]
  -- There are fewer blocks than addresses, so the walk ends.
  rcases allocFrom_cases (roundBytes nbytes) (2 ^ 32) chained nonzero (by omega)
    with none | ⟨before, b, after, same, free, served, answer⟩
  · exact Or.inl none
  · right
    have member : b ∈ x :: rest := by rw [same]; simp
    have own := sound.bounds member
    have spot : (b.start + sizeHeader) % 2 ^ 32 = b.start + 16 := by
      change (b.start + 16) % 2 ^ 32 = _
      omega
    exact ⟨before, b, after, same, free, sound.reached member, served, by rw [answer, spot]⟩

/-- A search for memory finds nothing, or it takes it from a free block. -/
theorem Sound.inner (sound : Sound area use blocks) (small : nbytes + 63 < 2 ^ 32)
    (unwrapped : roundBytes nbytes + sizeHeader + minFreeBytes < 2 ^ 32 ∨
      ∀ addr, Reached use.mem area.heap addr → localStatus use.mem addr = statusFree →
        freeSize use.mem area.heap addr < 16) :
    localAllocInner use.mem area.heap nbytes = some (use.mem, 0) ∨
      ∃ before b after m' size front, blocks = before ++ b :: after ∧ b.busy = false ∧
        nbytes + 16 ≤ size ∧ Served area use.mem m' before b after size front ∧
        localAllocInner use.mem area.heap nbytes = some (m', b.start + 16) := by
  obtain ⟨rounded, rounded_lt, multiple⟩ := roundBytes_spec small
  rcases sound.search nbytes with none | ⟨before, b, after, rfl, free, reached, served, answer⟩
  · exact Or.inl none
  · right
    by_cases fits : roundBytes nbytes + 80 < 2 ^ 32
    · -- Both tests compare the sizes themselves, and the block is taken whole or split.
      obtain ⟨front, long, taken⟩ := sound.chained.serve sound.held.tiles served fits (by omega)
      have room : nbytes + 16 ≤
          16 + if roundBytes nbytes + 80 ≤ b.size - 16 then roundBytes nbytes else b.size - 16 := by
        split <;> omega
      exact ⟨before, b, after, _, _, front, rfl, free, room, taken, answer⟩
    · -- A request that wraps the threshold is refused, because no free block has any room.
      have short := (unwrapped.resolve_left fits) b.start reached
        ((sound.chained.free_iff (by simp)).mpr free)
      rw [refused (by omega) rounded_lt multiple short] at served
      cases served

/-- A block that has been taken holds a range when the word in front of the range is right. -/
theorem Sound.grant {before after front : List LocalBlock} {size user n : Nat} {w : Mem}
    (sound : Sound area use (before ++ b :: after)) (free : b.busy = false)
    (taken : Served area use.mem m before b after size front)
    (low : b.start + 16 ≤ user) (high : user + n ≤ b.start + size)
    (same : ∀ a, a < b.start + 12 ∨ b.start + size ≤ a → w a = m a)
    (word : localGetalign w user = user - (b.start + 16)) :
    Sound area { use with mem := w, live := ⟨user, n⟩ :: use.live }
      (before ++ (⟨b.start, size, true, user⟩ :: front) ++ after) := by
  have bounds := area_bounds area
  have own := sound.bounds (b := b) (by simp)
  have fits := taken.fits
  have back : Tiles LocalBlock.region (b.start + b.size) after area.last :=
    sound.held.tiles.behind
  have seam := headD_start back
  have covers : Tiles LocalBlock.view.region (LocalBlock.view.region b).start
      (⟨b.start, size, true, user⟩ :: front)
      ((LocalBlock.view.region b).start + (LocalBlock.view.region b).size) := taken.tiles user
  have inside : Fits LocalBlock.view ⟨b.start, size, true, user⟩ ⟨user, n⟩ := by
    refine ⟨rfl, ?_⟩
    change b.start ≤ user ∧ user + n ≤ b.start + size
    omega
  -- The busy part of the block holds the new range.
  have held := sound.held.take free covers rfl taken.rest inside
  refine ⟨?_, ?_, held⟩
  · have chained := taken.chained user
    have tiles := held.tiles
    change Tiles LocalBlock.region _ _ _ at tiles
    rw [List.append_assoc, List.cons_append] at chained tiles ⊢
    exact chained_write chained tiles same
  · intro y member
    rcases List.mem_append.mp member with early | late
    · rcases List.mem_append.mp early with left | new
      · -- Other blocks keep the words in front of their ranges.
        have apart := sound.held.tiles.front.within left
        change area.first ≤ y.start ∧ y.start + y.size ≤ b.start at apart
        apply keyed_congr (sound.keyed y (by simp [left])) (by omega)
        intro a _ _
        exact (same a (by omega)).trans (taken.kept a (by omega) (by omega))
      · rcases List.mem_cons.mp new with rfl | rest
        · exact ⟨low, by dsimp only; omega, fun _ => word⟩
        · have apart := (taken.tiles user).2.within rest
          change b.start + size ≤ y.start ∧ y.start + y.size ≤ b.start + b.size at apart
          exact keyed_congr (taken.keys y rest) (by omega) fun a _ _ => same a (by omega)
    · have apart := back.within late
      change b.start + b.size ≤ y.start ∧ y.start + y.size ≤ area.last at apart
      apply keyed_congr (sound.keyed y (by simp [late])) (by omega)
      intro a _ _
      exact (same a (by omega)).trans (taken.kept a (by omega) (by omega))

/-- What a call may do with the memory it has found: choose an address in it and write there. -/
structure Finishes (finish : Mem → Nat → Mem × Nat) (nbytes n align : Nat) (m : Mem) (addr : Nat) :
    Prop where
  above : addr ≤ (finish m addr).2
  below : (finish m addr).2 + n ≤ addr + nbytes
  aligned : (finish m addr).2 % align = 0
  word : localGetalign (finish m addr).1 (finish m addr).2 = (finish m addr).2 - addr
  same : ∀ a, a < addr - 4 ∨ addr + nbytes ≤ a → (finish m addr).1 a = m a

/-- A block that has been taken holds what a call has chosen in it. -/
theorem Sound.hands {before after front : List LocalBlock} {size n align : Nat}
    {finish : Mem → Nat → Mem × Nat} (sound : Sound area use (before ++ b :: after))
    (free : b.busy = false) (taken : Served area use.mem m before b after size front)
    (long : nbytes + 16 ≤ size) (done : Finishes finish nbytes n align m (b.start + 16)) :
    Sound area { use with
        mem := (finish m (b.start + 16)).1
        live := ⟨(finish m (b.start + 16)).2, n⟩ :: use.live }
      (before ++ (⟨b.start, size, true, (finish m (b.start + 16)).2⟩ :: front) ++ after) ∧
      Spares area use.mem (finish m (b.start + 16)).1 := by
  have own := sound.bounds (b := b) (by simp)
  have fits := taken.fits
  have low := done.above
  have high := done.below
  -- What the call writes lies behind the header and in front of the end of the block.
  have outside : ∀ a, a < b.start + 12 ∨ b.start + size ≤ a →
      (finish m (b.start + 16)).1 a = m a := fun a apart => done.same a (by omega)
  refine ⟨sound.grant free taken low (by omega) outside done.word, fun a apart => ?_⟩
  -- Both the headers and the word in front of the answer lie in the heap.
  have bounds := area_bounds area
  have link := headD_inside (sound.held.tiles.behind (x := b)) fun y member =>
    sound.chained.sized y (by simp [member])
  change _ ∨ b.start + b.size ≤ _ ∧ _ at link
  have last : area.last = (area.heap + area.size) / 4 * 4 := rfl
  exact (outside a (by omega)).trans (taken.kept.spares own.1 own.2.1 (by omega) a apart)

/-- A call that finds memory and chooses an address in it keeps the state sound. -/
theorem Sound.served (sound : Sound area use blocks) (small : nbytes + 63 < 2 ^ 32)
    (unwrapped : roundBytes nbytes + sizeHeader + minFreeBytes < 2 ^ 32 ∨
      ∀ addr, Reached use.mem area.heap addr → localStatus use.mem addr = statusFree →
        freeSize use.mem area.heap addr < 16) (n align : Nat) (finish : Mem → Nat → Mem × Nat)
    (finishes : ∀ m addr, 64 ≤ addr → addr + nbytes < 2 ^ 32 → addr % 4 = 0 →
      Finishes finish nbytes n align m addr) {given : Option (Mem × Nat)}
    (answer : given = (localAllocInner use.mem area.heap nbytes).map fun answer =>
      if answer.2 ≠ 0 then finish answer.1 answer.2 else (answer.1, 0)) :
    (∃ blocks', Sound area (use.granted n given) blocks') ∧
      (use.granted n given).stuck = use.stuck ∧
      (∀ r, (use.granted n given).live = r :: use.live → r.start % align = 0) ∧
      Spares area use.mem (use.granted n given).mem := by
  -- The inner search refuses, or takes a block in which an address is chosen then.
  have bounds := area_bounds area
  rcases sound.inner small unwrapped with
    none | ⟨before, b, after, m', size, front, rfl, free, long, taken, found⟩
  · rw [none, Option.map_some, if_neg (by simp)] at answer
    subst answer
    refine ⟨⟨blocks, sound⟩, rfl, fun r same => ?_, fun a _ => rfl⟩
    exact absurd same (by simp [granted])
  · rw [found, Option.map_some, if_pos (by simp)] at answer
    subst answer
    have own := sound.bounds (b := b) (by simp)
    have word := (sound.chained.sized b (by simp)).2
    have fits := taken.fits
    have done := finishes m' (b.start + 16) (by omega) (by omega) (by omega)
    have low := done.above
    have nonzero : (finish m' (b.start + 16)).2 ≠ 0 := by omega
    -- A block does not start at 0, so the answer counts as granted.
    have state : use.granted n (some (finish m' (b.start + 16))) = { use with
        mem := (finish m' (b.start + 16)).1
        live := ⟨(finish m' (b.start + 16)).2, n⟩ :: use.live } := by
      dsimp only [granted]
      rw [if_neg nonzero]
    obtain ⟨handed, spares⟩ := sound.hands free taken long done
    rw [state]
    refine ⟨⟨_, handed⟩, rfl, fun r same => ?_, spares⟩
    rw [List.cons.injEq] at same
    rw [← same.1]
    exact done.aligned

/-- Writing the word in front of an address. -/
theorem setalign_spec {i v : Nat} (behind : 4 ≤ i) (small : i < 2 ^ 32) (v_lt : v < 2 ^ 32) :
    localGetalign (localSetalign m i v) i = v ∧
      ∀ a, a < i - 4 ∨ i ≤ a → localSetalign m i v a = m a := by
  -- Going four bytes back does not wrap.
  have written : localSetalign m i v = store m (i - 4) v := by
    rw [localSetalign, show (i + 2 ^ 32 - 4) % 2 ^ 32 = i - 4 by omega]
  rw [written]
  refine ⟨?_, fun a outside => store_outside (by omega)⟩
  rw [getalign_eq behind small]
  exact load_store v_lt

/-- `Local_Alloc` takes the memory as it is found. -/
theorem finishes_alloc {addr n : Nat} (asked : n ≤ nbytes) (low : 64 ≤ addr)
    (high : addr + nbytes < 2 ^ 32) (word : addr % 4 = 0) :
    Finishes (fun m addr => (localSetalign m addr 0, addr)) nbytes n 4 m addr := by
  obtain ⟨read, outside⟩ := setalign_spec (m := m) (i := addr) (v := 0) (by omega) (by omega)
    (by decide)
  exact ⟨Nat.le_refl _, Nat.add_le_add_left asked addr, word, read.trans (Nat.sub_self addr).symm,
    fun a apart => outside a (by omega)⟩

/-- `Local_Calloc` clears what it hands out, and nothing else. -/
theorem finishes_calloc {addr : Nat} (low : 64 ≤ addr) (high : addr + nbytes < 2 ^ 32)
    (word : addr % 4 = 0) :
    Finishes (fun m addr => (fill (localSetalign m addr 0) addr nbytes 0, addr)) nbytes nbytes 4 m
      addr := by
  -- The zeros are behind the word with the distance.
  obtain ⟨read, outside⟩ := setalign_spec (m := m) (i := addr) (v := 0) (by omega) (by omega)
    (by decide)
  refine ⟨Nat.le_refl _, Nat.le_refl _, word, ?_, fun a apart => ?_⟩
  · have kept : localGetalign (fill (localSetalign m addr 0) addr nbytes 0) addr =
        localGetalign (localSetalign m addr 0) addr := by
      rw [getalign_eq (by omega) (by omega), getalign_eq (by omega) (by omega)]
      exact load_congr fun a _ _ => fill_outside (by omega)
    exact kept.trans (read.trans (Nat.sub_self addr).symm)
  · dsimp only
    rw [fill_outside (by omega)]
    exact outside a (by omega)

/-- `Local_alignAlloc` has room for the distance to the next multiple of the alignment. -/
theorem finishes_alignAlloc {addr size k : Nat} (low : 64 ≤ addr)
    (high : addr + (size + 2 ^ k) < 2 ^ 32) :
    Finishes (fun m addr => (localSetalign m (alignUp addr (2 ^ k))
      ((alignUp addr (2 ^ k) + 2 ^ 32 - addr) % 2 ^ 32), alignUp addr (2 ^ k))) (size + 2 ^ k) size
      (2 ^ k) m addr := by
  -- The aligned address is less than one unit of alignment away.
  obtain ⟨above, below, aligned⟩ := alignUp_spec addr k (by omega)
  have distance : (alignUp addr (2 ^ k) + 2 ^ 32 - addr) % 2 ^ 32 = alignUp addr (2 ^ k) - addr := by
    omega
  obtain ⟨read, outside⟩ := setalign_spec (m := m) (i := alignUp addr (2 ^ k))
    (v := alignUp addr (2 ^ k) - addr) (by omega) (by omega) (by omega)
  refine ⟨above, by dsimp only; omega, aligned, ?_, fun a apart => ?_⟩
  · dsimp only
    rw [distance]
    exact read
  · dsimp only
    rw [distance]
    exact outside a (by omega)

/-- The state behind a call, as long as every call has returned. -/
theorem step_eq (running : use.stuck = false) : use.step area call = some (match call with
    | .alloc nbytes => use.granted nbytes (LocalMem.localAlloc use.mem area.heap nbytes)
    | .calloc size n =>
      use.granted (size * n % 2 ^ 32) (LocalMem.localCalloc use.mem area.heap size n)
    | .alignAlloc align size =>
      use.granted size (LocalMem.localAlignAlloc use.mem area.heap align size)
    | .dealloc address => { use with
        mem := LocalMem.localDealloc use.mem address
        live := use.live.eraseP fun r => r.start = address }
    | .write address byte => { use with mem := fill use.mem address 1 byte }) :=
  -- Only a state that is stuck has no step.
  if_neg (by simp [running])

/-- The state behind a call that hands out memory. -/
structure Serves (area : HeapArea) (use after : LocalUse) (align : Nat) : Prop where
  sound : ∃ blocks, Sound area after blocks
  stuck : after.stuck = use.stuck
  aligned : ∀ r, after.live = r :: use.live → r.start % align = 0
  spares : Spares area use.mem after.mem

/-- A request that is within the limits is served from the heap. -/
theorem Sound.alloc {n : Nat} (sound : Sound area use blocks) (asked : n ≤ nbytes)
    (small : nbytes + 63 < 2 ^ 32)
    (unwrapped : roundBytes nbytes + sizeHeader + minFreeBytes < 2 ^ 32 ∨
      ∀ addr, Reached use.mem area.heap addr → localStatus use.mem addr = statusFree →
        freeSize use.mem area.heap addr < 16) :
    Serves area use (use.granted n (LocalMem.localAlloc use.mem area.heap nbytes)) 4 := by
  have given : LocalMem.localAlloc use.mem area.heap nbytes =
      (localAllocInner use.mem area.heap nbytes).map
      fun answer => if answer.2 ≠ 0 then (localSetalign answer.1 answer.2 0, answer.2)
        else (answer.1, 0) := by
    rw [LocalMem.localAlloc]
    congr 1
    funext answer
    -- A search without a result stores no distance.
    by_cases none : answer.2 = 0
    · simp [none]
    · simp [none]
  obtain ⟨kept, returned, aligned, spares⟩ := sound.served small unwrapped n 4 _
    (fun m addr low high word => finishes_alloc asked low high word) given
  exact ⟨kept, returned, aligned, spares⟩

/-- `Local_Calloc` asks for a product on 32 bits. -/
theorem Sound.calloc {size n : Nat} (sound : Sound area use blocks)
    (small : size * n % 2 ^ 32 + 63 < 2 ^ 32)
    (unwrapped : roundBytes (size * n % 2 ^ 32) + sizeHeader + minFreeBytes < 2 ^ 32 ∨
      ∀ addr, Reached use.mem area.heap addr → localStatus use.mem addr = statusFree →
        freeSize use.mem area.heap addr < 16) :
    Serves area use
      (use.granted (size * n % 2 ^ 32) (LocalMem.localCalloc use.mem area.heap size n)) 4 := by
  have given : LocalMem.localCalloc use.mem area.heap size n =
      (localAllocInner use.mem area.heap (size * n % 2 ^ 32)).map
      fun answer => if answer.2 ≠ 0 then
        (fill (localSetalign answer.1 answer.2 0) answer.2 (size * n % 2 ^ 32) 0, answer.2)
        else (answer.1, 0) := by
    rw [LocalMem.localCalloc, LocalMem.localAlloc, Option.map_map]
    congr 1
    funext answer
    by_cases none : answer.2 = 0
    · simp [none]
    · simp [none]
  obtain ⟨kept, returned, aligned, spares⟩ := sound.served small unwrapped (size * n % 2 ^ 32) 4 _
    (fun m addr low high word => finishes_calloc low high word) given
  exact ⟨kept, returned, aligned, spares⟩

/-- `Local_alignAlloc` asks for as many bytes more as the alignment has. -/
theorem Sound.alignAlloc {size k : Nat} (sound : Sound area use blocks)
    (small : size + 2 ^ k + 63 < 2 ^ 32)
    (unwrapped : roundBytes (size + 2 ^ k) + sizeHeader + minFreeBytes < 2 ^ 32 ∨
      ∀ addr, Reached use.mem area.heap addr → localStatus use.mem addr = statusFree →
        freeSize use.mem area.heap addr < 16) :
    Serves area use
      (use.granted size (LocalMem.localAlignAlloc use.mem area.heap (2 ^ k) size)) (2 ^ k) := by
  have given : LocalMem.localAlignAlloc use.mem area.heap (2 ^ k) size =
      (localAllocInner use.mem area.heap (size + 2 ^ k)).map
      fun answer => if answer.2 ≠ 0 then
        (localSetalign answer.1 (alignUp answer.2 (2 ^ k))
          ((alignUp answer.2 (2 ^ k) + 2 ^ 32 - answer.2) % 2 ^ 32), alignUp answer.2 (2 ^ k))
        else (answer.1, 0) := by
    rw [LocalMem.localAlignAlloc, Nat.mod_eq_of_lt (show size + 2 ^ k < 2 ^ 32 by omega)]
  obtain ⟨kept, returned, aligned, spares⟩ := sound.served small unwrapped size (2 ^ k) _
    (fun m addr low high _ => finishes_alignAlloc low high) given
  exact ⟨kept, returned, aligned, spares⟩

/-- Nothing becomes live where a range is given up. -/
theorem erased_ne_cons {live : List Region} {p : Region → Bool} {r : Region} :
    live.eraseP p ≠ r :: live := by
  intro same
  have shorter := List.length_eraseP_le (p := p) (l := live)
  rw [same, List.length_cons] at shorter
  omega

/-- A call within the conditions keeps the state sound, returns and is aligned. -/
theorem Sound.step (sound : Sound area use blocks) (running : use.stuck = false)
    (taken : use.step area call = some after) (allowed : use.Allowed call after)
    (unwrapped : Unwrapped area use call after) :
    (after.stuck = false ∧ ∃ blocks', Sound area after blocks') ∧ use.Aligned call after := by
  cases (step_eq running).symm.trans taken
  obtain ⟨sizes, promised⟩ := allowed
  -- Three calls hand out memory, and two change what is live or written.
  cases call with
  | alloc nbytes =>
    have serves := sound.alloc (Nat.le_refl _) (sizes nbytes rfl) (unwrapped nbytes rfl)
    exact ⟨⟨serves.stuck.trans running, serves.sound⟩, serves.aligned⟩
  | calloc size n =>
    have serves := sound.calloc (sizes (size * n % 2 ^ 32) rfl) (unwrapped _ rfl)
    exact ⟨⟨serves.stuck.trans running, serves.sound⟩, serves.aligned⟩
  | alignAlloc align size =>
    obtain ⟨k, _, rfl⟩ := promised
    have serves := sound.alignAlloc (sizes (size + 2 ^ k) rfl) (unwrapped _ rfl)
    exact ⟨⟨serves.stuck.trans running, serves.sound⟩, serves.aligned⟩
  | dealloc address =>
    refine ⟨⟨running, (sound.dealloc promised).1⟩, fun r same => ?_⟩
    exact absurd same erased_ne_cons
  | write address byte =>
    refine ⟨⟨running, blocks, (sound.write promised).1⟩, fun r same => ?_⟩
    have longer := congrArg List.length same
    simp at longer

/--
The blocks of the heap stay one chain that tiles it and holds the live ranges.

So it is in every run of calls whose sizes do not wrap around where a search compares them.
-/
theorem blocksTagged_of_unwrapped (area : HeapArea) (m : Mem) (calls : List LocalCall)
    (within : Runs.Each (LocalUse.step area)
      (fun use call after => use.Allowed call after ∧ Unwrapped area use call after)
      (init area m) calls) :
    Runs.Always (LocalUse.step area) (Ordered area) (init area m) calls ∧
      Runs.Each (LocalUse.step area) Aligned (init area m) calls := by
  -- Soundness goes through the run, and tells both what each state and what each step has.
  have start : (init area m).stuck = false ∧ ∃ blocks, Sound area (init area m) blocks :=
    ⟨rfl, _, sound_init area m⟩
  have preserved : ∀ use call after, (use.stuck = false ∧ ∃ blocks, Sound area use blocks) →
      LocalUse.step area use call = some after →
      use.Allowed call after ∧ Unwrapped area use call after →
      (after.stuck = false ∧ ∃ blocks, Sound area after blocks) ∧ use.Aligned call after := by
    intro use call after holds taken met
    obtain ⟨running, blocks, sound⟩ := holds
    exact sound.step running taken met.1 met.2
  constructor
  · refine Runs.Always.mono ?_ (Runs.always_of_invariant
      (fun use call after holds taken met => (preserved use call after holds taken met).1)
      start within)
    intro use holds
    obtain ⟨running, blocks, sound⟩ := holds
    exact ⟨running, blocks, sound.tagged⟩
  · exact Runs.each_of_invariant
      (fun use call after holds taken met => (preserved use call after holds taken met).1)
      (fun use call after holds taken met => (preserved use call after holds taken met).2)
      start within

/-- A heap of 256 bytes. -/
def smallArea : HeapArea where
  heap := 0x1000
  size := 0x100
  aligned := by decide
  enough := by decide
  inside := by decide

/-- A block that is handed out, written and freed is such a run. -/
theorem blocksTagged_small :
    Runs.Always (LocalUse.step smallArea) (Ordered smallArea) (init smallArea fun _ => 0)
        [.alignAlloc 64 20, .write 0x1080 7, .dealloc 0x1080] ∧
      Runs.Each (LocalUse.step smallArea) Aligned (init smallArea fun _ => 0)
        [.alignAlloc 64 20, .write 0x1080 7, .dealloc 0x1080] := by
  -- The three calls are checked one by one.
  refine blocksTagged_of_unwrapped smallArea (fun _ => 0)
    [.alignAlloc 64 20, .write 0x1080 7, .dealloc 0x1080] ?_
  refine (Runs.each_cons rfl).mpr ⟨⟨⟨?_, 6, by decide, rfl⟩, ?_⟩, ?_⟩
  · intro nbytes request
    cases request
    decide
  · intro nbytes request
    cases request
    exact Or.inl (by decide)
  refine (Runs.each_cons rfl).mpr ⟨⟨⟨?_, ?_⟩, ?_⟩, ?_⟩
  · intro nbytes request
    cases request
  · exact ⟨⟨0x1080, 20⟩, by decide +kernel, by decide, by decide⟩
  · intro nbytes request
    cases request
  refine (Runs.each_cons rfl).mpr ⟨⟨⟨?_, ?_⟩, ?_⟩, trivial⟩
  · intro nbytes request
    cases request
  · exact ⟨⟨0x1080, 20⟩, by decide +kernel, rfl⟩
  · intro nbytes request
    cases request

/-- A request that wraps the threshold is granted, although the heap is far too small. -/
theorem blocksTagged_wraps :
    Runs.Each (LocalUse.step smallArea) Allowed (init smallArea fun _ => 0) [.alloc 0xFFFFFFC0] ∧
      ¬ Runs.Always (LocalUse.step smallArea) (Ordered smallArea) (init smallArea fun _ => 0)
        [.alloc 0xFFFFFFC0] := by
  -- The range that is handed out reaches far behind the heap.
  constructor
  · refine (Runs.each_cons rfl).mpr ⟨⟨?_, trivial⟩, trivial⟩
    intro nbytes request
    cases request
    decide
  · intro claim
    obtain ⟨_, blocks, tagged⟩ := claim.2 _ rfl
    have held : (⟨0x1050, 0xFFFFFFC0⟩ : Region) ∈
        ((init smallArea fun _ => 0).granted 0xFFFFFFC0
          (LocalMem.localAlloc (init smallArea fun _ => 0).mem 0x1000 0xFFFFFFC0)).live := by
      decide +kernel
    -- Some block would hold the range, and all blocks end with the heap.
    obtain ⟨ranges, same, matched⟩ := tagged.ranges
    obtain ⟨b, member, _, inside⟩ := Matching.forall₂_right matched (same.mem_iff.mpr held)
    have bound := (tagged.tiles.within (List.mem_filter.mp member).1).2
    have top : 0x1050 + 0xFFFFFFC0 ≤ b.start + b.size := inside.2
    have last : smallArea.last = 0x1100 := rfl
    change b.start + b.size ≤ smallArea.last at bound
    omega

end LocalUse

end Aip
