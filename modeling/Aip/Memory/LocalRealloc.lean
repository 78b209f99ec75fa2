import Aip.Memory.LocalTiling

/-! `Local_Realloc` keeps the chain of blocks where none of its sizes goes wrong. -/

namespace Aip

open Words Tiling Blocks LocalMem

/-- A call of the allocator or a byte written by its user, or a range that is resized. -/
inductive LocalRequest where
  | call (call : LocalCall)
  | realloc (address nbytes : Nat)
  deriving DecidableEq, Repr

namespace LocalUse

/-- A range that is resized is live with its new size; without an answer it stays, unless freed. -/
def resized (use : LocalUse) (address nbytes : Nat) : Option (Mem × Nat) → LocalUse
  | none => { use with stuck := true }
  | some (m, addr) => { use with
      mem := m
      live := if addr ≠ 0 then ⟨addr, nbytes⟩ :: use.live.eraseP fun r => r.start = address
        else if nbytes = 0 then use.live.eraseP fun r => r.start = address
        else use.live }

/-- One call, of `Local_Realloc` or of the others. -/
def serve (area : HeapArea) (use : LocalUse) : LocalRequest → Option LocalUse
  | .call call => use.step area call
  | .realloc address nbytes =>
    if use.stuck then none
    else some (use.resized address nbytes
      (LocalMem.localRealloc use.mem area.heap address nbytes))

/-- No free block on the chain passes a test of `currentNodeAlloc`, so that the answer is `NULL`. -/
def Refused (area : HeapArea) (use : LocalUse) (nbytes : Nat) : Prop :=
  ∀ addr, Reached use.mem area.heap addr → localStatus use.mem addr = statusFree →
    freeSize use.mem area.heap addr < (roundBytes nbytes + sizeHeader + minFreeBytes) % 2 ^ 32 ∧
      freeSize use.mem area.heap addr < roundBytes nbytes

/-- The rounded size and what is added to it fit into a word, or the answer is `NULL`. -/
def Fitting (area : HeapArea) (use : LocalUse) (nbytes : Nat) : Prop :=
  nbytes + minFreeBytes ≤ 2 ^ 32 ∧ roundBytes nbytes + sizeHeader + minFreeBytes < 2 ^ 32 ∨
    Refused area use nbytes

/--
A `Local_Realloc` none of whose sizes goes wrong.

A block that is kept has room for the new size, a block that is extended has only the end of the
heap behind it, and what is copied fits into the block that is found.
-/
def Resizes (area : HeapArea) (use : LocalUse) (address nbytes : Nat) : Prop :=
  let block := reallocBlock use.mem address
  let align := localGetalign use.mem address
  let len := reallocLen use.mem address nbytes
  nbytes + minFreeBytes ≤ 2 ^ 32 ∧
    if address = 0 then nbytes ≠ 0 ∧ Fitting area use (roundBytes nbytes)
    else nbytes = 0 ∨
      if reallocKeeps use.mem address nbytes then
        localNext use.mem block = 0 → address + nbytes ≤ area.last
      else if reallocGrows use.mem address nbytes then
        localNext use.mem (localNext use.mem block) = 0 ∧
          roundBytes nbytes + align + minFreeBytes ≤ 2 ^ 32 ∧
          block + sizeHeader + len + sizeHeader ≤ area.last
      else Refused area use len ∨ roundBytes nbytes + align + minFreeBytes ≤ 2 ^ 32 ∧
        len + sizeHeader + minFreeBytes < 2 ^ 32 ∧ align + joinedSize use.mem block ≤ len

variable {area : HeapArea} {m m' : Mem} {use after : LocalUse} {blocks front back : List LocalBlock}
  {x y : LocalBlock} {address nbytes : Nat}

/-- A step that returns, keeps the state sound and writes in the heap only. -/
structure Steady (area : HeapArea) (use after : LocalUse) : Prop where
  running : after.stuck = false
  sound : ∃ blocks, Sound area after blocks
  spares : Spares area use.mem after.mem

/-- The length for a block has room for the new size and for the distance in front of it. -/
theorem reallocLen_spec
    (sum : roundBytes nbytes + localGetalign m address + minFreeBytes ≤ 2 ^ 32) :
    roundBytes nbytes + localGetalign m address ≤ reallocLen m address nbytes ∧
      reallocLen m address nbytes % 64 = 0 := by
  -- The sum can be rounded up without wrapping.
  change roundBytes nbytes + localGetalign m address + 64 ≤ 2 ^ 32 at sum
  have small : roundBytes nbytes + localGetalign m address + 63 < 2 ^ 32 := by omega
  exact ⟨(roundBytes_spec small).1, (roundBytes_spec small).2.2⟩

/-- A search that every free block refuses changes nothing. -/
theorem Sound.refused (sound : Sound area use blocks) (refused : Refused area use nbytes) :
    localAllocInner use.mem area.heap nbytes = some (use.mem, 0) := by
  rcases sound.search nbytes with none | ⟨before, b, after, rfl, free, reached, served, _⟩
  · exact none
  · -- The block that would serve the request passes neither test.
    have short := refused b.start reached ((sound.chained.free_iff (by simp)).mpr free)
    rw [currentNodeAlloc, if_neg (by omega), if_neg (by omega)] at served
    cases served

/-- The word in front of a user's address, and the block that it leads to. -/
theorem Sound.reads (sound : Sound area use (front ++ x :: back)) (busy : x.busy = true) :
    localGetalign use.mem x.user = x.user - (x.start + 16) ∧
      reallocBlock use.mem x.user = x.start := by
  have bounds := area_bounds area
  have own := sound.bounds (b := x) (by simp)
  obtain ⟨behind, within, word⟩ := sound.keyed x (by simp)
  change x.start + 16 ≤ x.user at behind
  -- The subtractions undo what the allocator has added.
  have distance : localGetalign use.mem x.user = x.user - (x.start + 16) := word busy
  refine ⟨distance, ?_⟩
  rw [reallocBlock, distance]
  change (x.user + 2 ^ 32 - (x.user - (x.start + 16)) + 2 ^ 32 - 16) % 2 ^ 32 = x.start
  omega

/-- A range may be given another size within its block. -/
theorem Sound.kept (sound : Sound area use (front ++ x :: back)) (busy : x.busy = true)
    (room : x.user + nbytes ≤ x.start + x.size) :
    Sound area { use with live := ⟨x.user, nbytes⟩ :: use.live.eraseP fun r => r.start = x.user }
      (front ++ x :: back) := by
  have behind : x.start + 16 ≤ x.user := (sound.keyed x (by simp)).1
  have held : Held LocalBlock.view area.first area.last (front ++ (x :: []) ++ back) use.live := by
    have held := sound.held
    rwa [List.append_cons] at held
  -- The block stays, only its user gets another range in it.
  have fits : Fits LocalBlock.view x ⟨x.user, nbytes⟩ := by
    refine ⟨rfl, ?_⟩
    change x.start ≤ x.user ∧ x.user + nbytes ≤ x.start + x.size
    omega
  have renewed := held.renew (z := ⟨x.start, x.size, false, x.user⟩) busy (by simp)
    (fun start stop _ tiles => tiles) rfl rfl sound.earlier fits
  rw [← List.append_cons] at renewed
  exact ⟨sound.chained, sound.keyed, renewed⟩

/-- The last block but one and the free one behind it are divided at another place. -/
theorem Sound.divided {len : Nat} (sound : Sound area use (front ++ [x, y])) (busy : x.busy = true)
    (room : x.start + 16 + len + 16 ≤ area.last) :
    Divided use.mem (growNode use.mem x.start len) x.start (x.start + 16 + len) 0 area.last ∧
      ∀ a, x.start + 8 ≤ a → a < x.start + 16 + len →
        growNode use.mem x.start len a = use.mem a := by
  have bounds := area_bounds area
  -- There is nothing behind the free block, so no link back is left as it was.
  have next : localNext use.mem x.start = y.start := sound.chained.links.2
  have last : localNext use.mem y.start = 0 := by
    have chained : Chained area use.mem ((front ++ [x]) ++ [y]) := by simpa using sound.chained
    exact chained.links.2
  have status : localStatus use.mem x.start = statusReserved := by
    rw [sound.chained.status x (by simp), LocalBlock.status, if_pos busy]
  exact growNode_spec area.last (by rw [next, last]) status (by omega) (by omega)

/-- The last block but one may be extended, and the free block behind it becomes smaller. -/
theorem Sound.grown (sound : Sound area use (front ++ [x, y])) (busy : x.busy = true)
    (free : y.busy = false) (len : Nat) (words : len % 4 = 0)
    (room : x.start + 16 + len + 16 ≤ area.last) (inside : x.user + nbytes ≤ x.start + 16 + len) :
    Sound area { use with
        mem := growNode use.mem x.start len
        live := ⟨x.user, nbytes⟩ :: use.live.eraseP fun r => r.start = x.user }
      (front ++ [⟨x.start, 16 + len, true, x.user⟩, ⟨x.start + 16 + len,
        area.last - (x.start + 16 + len), false, x.start + 16 + len + 16⟩]) ∧
      Spares area use.mem (growNode use.mem x.start len) := by
  have bounds := area_bounds area
  have own := sound.bounds (b := x) (by simp)
  have word := (sound.chained.sized x (by simp)).2
  have behind : x.start + 16 ≤ x.user := (sound.keyed x (by simp)).1
  have ahead : Tiles LocalBlock.region area.first front x.start := sound.held.tiles.front
  obtain ⟨divided, between⟩ := sound.divided busy room
  have chained : Chained area use.mem (front ++ [x, y] ++ []) := by simpa using sound.chained
  have held : Held LocalBlock.view area.first area.last (front ++ [x, y] ++ []) use.live := by
    simpa using sound.held
  have fits : Fits LocalBlock.view ⟨x.start, 16 + len, true, x.user⟩ ⟨x.user, nbytes⟩ := by
    refine ⟨rfl, ?_⟩
    change x.start ≤ x.user ∧ x.user + nbytes ≤ x.start + (16 + len)
    omega
  have idle : ∀ w ∈ [y], LocalBlock.view.busy w = false := by
    intro w member
    rw [List.mem_singleton.mp member]
    exact free
  have kinds : [(⟨x.start, 16 + len, true, x.user⟩ : LocalBlock), ⟨x.start + 16 + len,
      area.last - (x.start + 16 + len), false, x.start + 16 + len + 16⟩].map LocalBlock.view.busy =
      [x, y].map LocalBlock.view.busy := by
    change [true, false] = [x.busy, y.busy]
    rw [busy, free]
  -- Both pairs of blocks end with the heap.
  have covers : ∀ start stop, stop ≤ area.last → Tiles LocalBlock.region start [x, y] stop →
      Tiles LocalBlock.region start [⟨x.start, 16 + len, true, x.user⟩, ⟨x.start + 16 + len,
        area.last - (x.start + 16 + len), false, x.start + 16 + len + 16⟩] stop := by
    intro start stop _ tiles
    have rest : Tiles LocalBlock.region (x.start + x.size) [y] area.last := sound.held.tiles.behind
    have top : x.start + x.size + y.size = area.last := rest.2
    have bottom : x.start = start := tiles.1
    have sum : start + x.size + y.size = stop := tiles.2.2
    refine ⟨bottom, ?_, ?_⟩
    · change x.start + 16 + len = start + (16 + len)
      omega
    · change start + (16 + len) + (area.last - (x.start + 16 + len)) = stop
      omega
  have renewed := held.renew (z := ⟨x.start, x.size, false, x.user⟩) busy idle covers kinds rfl
    sound.earlier fits
  refine ⟨⟨?_, ?_, ?_⟩, divided.kept.spares own.1 (Nat.le_refl _) (Or.inl rfl)⟩
  · -- The chain ends with the smaller free block.
    have chained' : Chained area (growNode use.mem x.start len)
        (front ++ [⟨x.start, 16 + len, true, x.user⟩, ⟨x.start + 16 + len,
          area.last - (x.start + 16 + len), false, x.start + 16 + len + 16⟩] ++ []) :=
      chained.divided ahead rfl (by omega) divided (by omega) (by omega) (by omega)
    rwa [List.append_nil] at chained'
  · intro b member
    rcases List.mem_append.mp member with left | new
    · have apart := sound.held.tiles.front.within left
      change area.first ≤ b.start ∧ b.start + b.size ≤ x.start at apart
      exact keyed_congr (sound.keyed b (by simp [left])) (by omega) fun a _ _ =>
        divided.kept a (by omega) (Or.inl rfl)
    · rcases List.mem_cons.mp new with rfl | last
      · -- The word in front of the range lies between the two headers.
        have old := (sound.reads busy).1
        refine ⟨behind, by dsimp only; omega, fun _ => ?_⟩
        dsimp only
        rw [getalign_eq (by omega) (by omega)] at old ⊢
        exact (load_congr fun a _ _ => between a (by omega) (by omega)).trans old
      · rw [List.mem_singleton.mp last]
        refine ⟨Nat.le_refl _, ?_, fun busy => by cases busy⟩
        dsimp only
        omega
  · rwa [List.append_nil] at renewed

/-- A block that is found takes what a user has, as far as it has room for what is copied. -/
theorem finishes_move {addr align len bsize : Nat} (rr : Nat) (low : 64 ≤ addr)
    (high : addr + len < 2 ^ 32) (room : align + nbytes ≤ len) (copied : align + bsize ≤ len) :
    Finishes (fun m addr => (copy (localSetalign m ((addr + align) % 2 ^ 32) align)
      ((addr + align) % 2 ^ 32) rr bsize, (addr + align) % 2 ^ 32)) len nbytes 1 m addr := by
  have spot : (addr + align) % 2 ^ 32 = addr + align := Nat.mod_eq_of_lt (by omega)
  obtain ⟨read, outside⟩ := setalign_spec (m := m) (i := addr + align) (v := align) (by omega)
    (by omega) (by omega)
  refine ⟨?_, ?_, Nat.mod_one _, ?_, fun a apart => ?_⟩
  · dsimp only
    omega
  · dsimp only
    omega
  · -- The copy goes behind the word with the distance.
    dsimp only
    rw [spot]
    have kept : localGetalign (copy (localSetalign m (addr + align) align) (addr + align) rr bsize)
        (addr + align) = localGetalign (localSetalign m (addr + align) align) (addr + align) := by
      rw [getalign_eq (by omega) (by omega), getalign_eq (by omega) (by omega)]
      exact load_congr fun a _ _ => copy_outside (by omega)
    rw [kept, read]
    omega
  · dsimp only
    rw [spot, copy_outside (by omega)]
    exact outside a (by omega)

/-- What is in a block is found from an address on, and other blocks keep what is in them. -/
structure Carries (use : LocalUse) (blocks : List LocalBlock) (x : LocalBlock) (addr nbytes : Nat)
    (m : Mem) : Prop where
  others : ∀ z ∈ blocks, z.busy = true → z.user ≠ x.user →
    ∀ a, z.user ≤ a → a < z.start + z.size → m a = use.mem a
  content : ∀ i < nbytes, x.user + i < x.start + x.size → m (addr + i) = use.mem (x.user + i)

/-- A block that is taken leaves the others as they are, behind the link to the block in front. -/
theorem Sound.taken_same {size : Nat} {w : Mem} {more : List LocalBlock} {b z : LocalBlock}
    (sound : Sound area use (front ++ b :: back))
    (taken : Served area use.mem w front b back size more) (member : z ∈ front ++ back) {a : Nat}
    (low : z.start + 4 ≤ a) (high : a < z.start + z.size) : w a = use.mem a := by
  -- Outside of the block only the link back from behind is written.
  have seam := headD_start (sound.held.tiles.behind (x := b))
  change _ ∨ _ = b.start + b.size at seam
  have apart := sound.elsewhere member
  exact taken.kept a (by omega) (by omega)

/-- A block that has been taken gets what a user has, and the user's old block is freed. -/
theorem Sound.moves {size align bsize : Nat} {w : Mem} {more : List LocalBlock} {b : LocalBlock}
    (sound : Sound area use (front ++ b :: back)) (free : b.busy = false)
    (taken : Served area use.mem w front b back (16 + size) more)
    (place : x ∈ front ++ b :: back) (busy : x.busy = true)
    (holds : ∃ r ∈ use.live, r.start = x.user) (room : align + nbytes ≤ size)
    (copied : align + bsize ≤ size) :
    ∃ w', moveNode w x.user (b.start + 16) align bsize = (w', b.start + 16 + align) ∧
      (∃ blocks, Sound area { use with
        mem := w'
        live := ⟨b.start + 16 + align, nbytes⟩ ::
          use.live.eraseP fun r => r.start = x.user } blocks) ∧
      Spares area use.mem w' ∧ (x.start + x.size ≤ x.user + bsize →
        Carries use (front ++ b :: back) x (b.start + 16 + align) nbytes w') := by
  have bounds := area_bounds area
  have own := sound.bounds (b := b) (by simp)
  have within := taken.fits
  have spot : (b.start + 16 + align) % 2 ^ 32 = b.start + 16 + align :=
    Nat.mod_eq_of_lt (by omega)
  have done := finishes_move (m := w) x.user (show 64 ≤ b.start + 16 by omega) (by omega) room copied
  -- For a moment both the old range and the new one are live.
  obtain ⟨handed, spares⟩ := sound.hands free taken (by omega) done
  dsimp only at handed spares
  rw [spot] at handed spares
  generalize copies : copy (localSetalign w (b.start + 16 + align) align) (b.start + 16 + align)
    x.user bsize = v at handed spares
  have moved : moveNode w x.user (b.start + 16) align bsize =
      (LocalMem.localDealloc v x.user, b.start + 16 + align) := by
    rw [moveNode]
    rw [spot, copies]
  -- The new range is in another block, so freeing the old address takes the old one.
  obtain ⟨r, live, start⟩ := holds
  have other : b.start + 16 + align ≠ x.user := by
    have apart := (List.pairwise_cons.mp (handed.held.distinct handed.keys)).1 r live
    rw [← start]
    exact apart
  have still : ∃ s ∈ (⟨b.start + 16 + align, nbytes⟩ : Region) :: use.live, s.start = x.user :=
    ⟨r, List.mem_cons_of_mem _ live, start⟩
  obtain ⟨freed, outside⟩ := handed.dealloc still
  have stays : ((⟨b.start + 16 + align, nbytes⟩ : Region) :: use.live).eraseP
      (fun r => r.start = x.user) = ⟨b.start + 16 + align, nbytes⟩ ::
        use.live.eraseP fun r => r.start = x.user := by
    refine List.eraseP_cons_of_neg ?_
    rw [decide_eq_true_eq]
    exact other
  dsimp only at freed
  rw [stays] at freed
  refine ⟨_, moved, freed, fun a apart => (outside a apart).trans (spares a apart), fun whole => ?_⟩
  -- The copy and the word in front of it lie in the block that has been taken.
  have written : ∀ a, a < b.start + 12 ∨ b.start + 16 + size ≤ a → v a = w a := by
    intro a apart
    have same := done.same a (by omega)
    dsimp only at same
    rw [spot, copies] at same
    exact same
  have elsewhere : ∀ z ∈ front ++ b :: back, z.busy = true → z ∈ front ++ back := by
    intro z member kind
    rcases List.mem_append.mp member with left | rest
    · exact List.mem_append_left back left
    · rcases List.mem_cons.mp rest with rfl | right
      · rw [free] at kind
        cases kind
      · exact List.mem_append_right front right
  -- So what was in the busy blocks is as it was before the old block is freed.
  have before : ∀ z ∈ front ++ b :: back, z.busy = true → ∀ a, z.user ≤ a →
      a < z.start + z.size → v a = use.mem a := by
    intro z member kind a low high
    have behind : z.start + 16 ≤ z.user := (sound.keyed z member).1
    have apart := sound.elsewhere (elsewhere z member kind)
    exact (written a (by omega)).trans
      (sound.taken_same taken (elsewhere z member kind) (by omega) high)
  constructor
  · intro z member kind key a low high
    have behind : z.start + 16 ≤ z.user := (sound.keyed z member).1
    have listed : z ∈ front ++ (⟨b.start, 16 + size, true, b.start + 16 + align⟩ :: more) ++
        back := by
      rcases List.mem_append.mp (elsewhere z member kind) with left | right
      · simp [left]
      · simp [right]
    exact (handed.dealloc_same still listed kind key (by omega) high).trans
      (before z member kind a low high)
  · intro i less inside
    -- The new block keeps the copy, which is that of the old one.
    have mine := handed.dealloc_same still
      (z := ⟨b.start, 16 + size, true, b.start + 16 + align⟩) (by simp) rfl other
      (a := b.start + 16 + align + i) (by dsimp only; omega) (by dsimp only; omega)
    have copied : v (b.start + 16 + align + i) =
        localSetalign w (b.start + 16 + align) align (x.user + i) := by
      rw [← copies, copy, if_pos (by omega), Nat.add_sub_cancel_left]
    have behind : x.start + 16 ≤ x.user := (sound.keyed x place).1
    have apart := sound.elsewhere (elsewhere x place busy)
    have spared := (setalign_spec (m := w) (i := b.start + 16 + align) (v := align) (by omega)
      (by omega) (by omega)).2 (x.user + i) (by omega)
    calc LocalMem.localDealloc v x.user (b.start + 16 + align + i)
      _ = v (b.start + 16 + align + i) := mine
      _ = localSetalign w (b.start + 16 + align) align (x.user + i) := copied
      _ = w (x.user + i) := spared
      _ = use.mem (x.user + i) :=
        sound.taken_same taken (elsewhere x place busy) (by omega) inside

/-- What a user has may be moved into another block, if the copy fits, and the old one is freed. -/
theorem Sound.moved (sound : Sound area use blocks) (running : use.stuck = false)
    (holds : ∃ r ∈ use.live, r.start = address) (some : nbytes ≠ 0) {align len bsize : Nat}
    (rounded : roundBytes len = len) (fits : len + sizeHeader + minFreeBytes < 2 ^ 32)
    (room : align + nbytes ≤ len) (copied : align + bsize ≤ len) {given : Option (Mem × Nat)}
    (answer : given = (localAllocInner use.mem area.heap len).map fun answer =>
      if answer.2 ≠ 0 then moveNode answer.1 address answer.2 align bsize else (answer.1, 0)) :
    Steady area use (use.resized address nbytes given) := by
  have wide : len + 16 + 64 < 2 ^ 32 := fits
  have small : len + 63 < 2 ^ 32 := by omega
  rcases sound.inner small (Or.inl (rounded.symm ▸ fits)) with
    none | ⟨before, b, after, w, size, front, rfl, free, long, taken, found⟩
  · -- Without another block everything stays.
    rw [none, Option.map_some, if_neg (by simp)] at answer
    subst answer
    rw [resized, if_neg (by simp), if_neg some]
    exact ⟨running, ⟨_, sound⟩, fun a _ => rfl⟩
  · rw [found, Option.map_some, if_pos (by simp)] at answer
    subst answer
    obtain ⟨old, x, rest, same, busy, rfl⟩ := sound.found holds
    have place : x ∈ before ++ b :: after := by rw [same]; simp
    have split : 16 + (size - 16) = size := by omega
    rw [← split] at taken
    have roomy : align + nbytes ≤ size - 16 := by omega
    have copies : align + bsize ≤ size - 16 := by omega
    obtain ⟨w', moved, sound', spares, _⟩ := sound.moves free taken place busy holds roomy copies
    rw [moved, resized, if_pos (by omega)]
    exact ⟨running, sound', spares⟩

/-- Resizing nothing is asking for memory. -/
theorem Sound.resized_null (sound : Sound area use blocks) (some : nbytes ≠ 0)
    (given : Option (Mem × Nat)) : use.resized 0 nbytes given = use.granted nbytes given := by
  have bounds := area_bounds area
  -- No user has been given address 0.
  have unknown : (use.live.eraseP fun r => r.start = 0) = use.live := by
    refine sound.held.unknown fun x member _ => ?_
    have own := sound.bounds member
    have behind : x.start + 16 ≤ x.user := (sound.keyed x member).1
    change x.user ≠ 0
    omega
  rcases given with _ | ⟨m, addr⟩
  · rfl
  · rw [resized, granted, unknown, if_neg some]
    -- Only an address that is not NULL is granted.
    by_cases none : addr = 0
    · rw [if_neg (by simp [none]), if_pos none]
    · rw [if_pos none, if_neg none]

/-- A request that fits is served, or refused without a trace. -/
theorem Sound.fitting {n : Nat} (sound : Sound area use blocks) (running : use.stuck = false)
    (asked : n ≤ nbytes) (fits : Fitting area use nbytes) :
    Steady area use (use.granted n (LocalMem.localAlloc use.mem area.heap nbytes)) := by
  rcases fits with ⟨small, unwrapped⟩ | refused
  · change nbytes + 64 ≤ 2 ^ 32 at small
    have serves := sound.alloc asked (by omega) (Or.inl unwrapped)
    exact ⟨serves.stuck.trans running, serves.sound, serves.spares⟩
  · -- The search leaves the memory as it is.
    have none := sound.refused refused
    rw [LocalMem.localAlloc, none, Option.map_some]
    exact ⟨running, ⟨blocks, sound⟩, fun a _ => rfl⟩

/-- A block that `Local_Realloc` keeps has room for the new size. -/
theorem Sound.keeps_room (sound : Sound area use (front ++ x :: back)) (busy : x.busy = true)
    (small : nbytes + 63 < 2 ^ 32) (keeps : reallocKeeps use.mem x.user nbytes = true)
    (last : localNext use.mem x.start = 0 → x.user + nbytes ≤ area.last) :
    x.user + nbytes ≤ x.start + x.size := by
  have bounds := area_bounds area
  have own := sound.bounds (b := x) (by simp)
  obtain ⟨behind, within, _⟩ := sound.keyed x (by simp)
  change x.start + 16 ≤ x.user at behind
  obtain ⟨rounded, _, _⟩ := roundBytes_spec small
  obtain ⟨distance, block⟩ := sound.reads busy
  have size := localSize_eq sound.chained sound.held.tiles
  rw [reallocKeeps, block, distance, size, decide_eq_true_eq] at keeps
  cases back with
  | nil =>
    -- The size of the last block is too large, but the end of the heap is known.
    have stop : x.start + x.size = area.last := sound.held.tiles.behind
    have none : localNext use.mem x.start = 0 := sound.chained.links.2
    rw [stop]
    exact last none
  | cons y back =>
    -- In front of another block the size is right, and the test compares it.
    rw [if_neg (List.cons_ne_nil y back)] at keeps
    omega

/-- A block that `Local_Realloc` extends has a free one behind it. -/
theorem Sound.grows_next (sound : Sound area use (front ++ x :: back)) (busy : x.busy = true)
    (grows : reallocGrows use.mem x.user nbytes = true)
    (last : localNext use.mem (localNext use.mem x.start) = 0) :
    ∃ y, back = [y] ∧ y.busy = false := by
  have bounds := area_bounds area
  have start := start_pos sound.held.tiles (by omega)
  rw [reallocGrows, (sound.reads busy).2, decide_eq_true_eq, rightFree, decide_eq_true_eq] at grows
  obtain ⟨⟨some, idle⟩, _⟩ := grows
  have link := sound.chained.links.2
  cases back with
  | nil => exact absurd link some
  | cons y back =>
    -- The block behind is the one whose status was read.
    have next : localNext use.mem x.start = y.start := link
    have chained : Chained area use.mem (front ++ [x] ++ y :: back) := by simpa using sound.chained
    rw [next] at idle last
    refine ⟨y, ?_, (chained.free_iff (by simp)).mp idle⟩
    -- A block behind it would have an address.
    cases back with
    | nil => rfl
    | cons z back =>
      have behind : localNext use.mem y.start = z.start := chained.links.2
      exact absurd (behind.symm.trans last) (start z (by simp))

/-- The three ways to resize a live range, of which the last one needs another block. -/
theorem Sound.localRealloc_eq (sound : Sound area use (front ++ x :: back)) (busy : x.busy = true)
    (positive : nbytes ≠ 0) (small : nbytes + 63 < 2 ^ 32) :
    LocalMem.localRealloc use.mem area.heap x.user nbytes =
      if reallocKeeps use.mem x.user nbytes then some (use.mem, x.user)
      else if reallocGrows use.mem x.user nbytes then
        some (growNode use.mem x.start (reallocLen use.mem x.user nbytes), x.user)
      else (localAllocInner use.mem area.heap (reallocLen use.mem x.user nbytes)).map fun answer =>
        if answer.2 ≠ 0 then moveNode answer.1 x.user answer.2 (localGetalign use.mem x.user)
          (joinedSize use.mem x.start)
        else (answer.1, 0) := by
  have behind : x.start + 16 ≤ x.user := (sound.keyed x (by simp)).1
  have rounded := (roundBytes_spec small).1
  -- Neither the size nor the address is one of the two that stand for something else.
  rw [LocalMem.localRealloc, if_neg (by omega), if_neg (by omega), (sound.reads busy).2]

/-- A `Local_Realloc` none of whose sizes goes wrong keeps the state sound. -/
theorem Sound.realloc (sound : Sound area use blocks) (running : use.stuck = false)
    (holds : address = 0 ∨ ∃ r ∈ use.live, r.start = address)
    (resizes : Resizes area use address nbytes) :
    Steady area use (use.resized address nbytes
      (LocalMem.localRealloc use.mem area.heap address nbytes)) := by
  have bounds := area_bounds area
  obtain ⟨small, resizes⟩ := resizes
  change nbytes + 64 ≤ 2 ^ 32 at small
  have less : nbytes + 63 < 2 ^ 32 := by omega
  have rounded := (roundBytes_spec less).1
  by_cases null : address = 0
  · subst null
    rw [if_pos rfl] at resizes
    obtain ⟨positive, fits⟩ := resizes
    rw [LocalMem.localRealloc, if_neg (by omega), if_pos rfl, sound.resized_null positive]
    exact sound.fitting running rounded fits
  rw [if_neg null] at resizes
  have live := holds.resolve_left null
  by_cases none : nbytes = 0
  · -- A size of 0 frees the range.
    subst none
    obtain ⟨freed, spares⟩ := sound.dealloc live
    exact ⟨running, freed, spares⟩
  replace resizes := resizes.resolve_left none
  obtain ⟨front, x, back, rfl, busy, rfl⟩ := sound.found live
  obtain ⟨behind, _, _⟩ := sound.keyed x (by simp)
  change x.start + 16 ≤ x.user at behind
  obtain ⟨distance, block⟩ := sound.reads busy
  rw [block] at resizes
  rw [sound.localRealloc_eq busy none less]
  by_cases keeps : reallocKeeps use.mem x.user nbytes = true
  · rw [if_pos keeps] at resizes ⊢
    -- The range gets its new size in place.
    have room := sound.keeps_room busy less keeps resizes
    rw [resized, if_pos null]
    exact ⟨running, ⟨_, sound.kept busy room⟩, fun a _ => rfl⟩
  rw [if_neg keeps] at resizes ⊢
  by_cases grows : reallocGrows use.mem x.user nbytes = true
  · rw [if_pos grows] at resizes ⊢
    obtain ⟨last, sum, room⟩ := resizes
    -- The range grows into the block behind.
    obtain ⟨y, rfl, free⟩ := sound.grows_next busy grows last
    have whole := reallocLen_spec sum
    change x.start + 16 + reallocLen use.mem x.user nbytes + 16 ≤ area.last at room
    have fits : x.user + nbytes ≤ x.start + 16 + reallocLen use.mem x.user nbytes := by omega
    obtain ⟨grown, spares⟩ := sound.grown busy free _ (by omega) room fits
    rw [resized, if_pos null]
    exact ⟨running, ⟨_, grown⟩, spares⟩
  rw [if_neg grows] at resizes ⊢
  rcases resizes with refused | ⟨sum, fits, copied⟩
  · rw [sound.refused refused, Option.map_some, if_neg (by simp), resized, if_neg (by simp),
      if_neg none]
    exact ⟨running, ⟨_, sound⟩, fun a _ => rfl⟩
  · have whole := reallocLen_spec sum
    -- The range is moved.
    have twice : roundBytes (reallocLen use.mem x.user nbytes) = reallocLen use.mem x.user nbytes :=
      roundBytes_twice
    exact sound.moved running live none twice fits (by omega) copied rfl

end LocalUse

end Aip
