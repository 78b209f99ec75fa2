import Aip.Memory.LocalArithmetic

/-! What `Local_Realloc` does to the bytes of the range that it resizes, and to those of the others. -/

namespace Aip

open Words Tiling Blocks LocalMem

namespace LocalUse

/-- A free block that passes one of the tests of `currentNodeAlloc`. -/
def Taken (area : HeapArea) (m : Mem) (nbytes addr : Nat) : Prop :=
  localStatus m addr = statusFree ∧ (currentNodeAlloc m area.heap addr nbytes).2 = true

/-- The blocks that a search looks at: those before the one that is taken, and this one. -/
inductive Tried (area : HeapArea) (m : Mem) (nbytes : Nat) : Nat → Prop
  | first : Tried area m nbytes (localFirst m area.heap)
  | next (addr : Nat) : Tried area m nbytes addr → ¬ Taken area m nbytes addr →
    localNext m addr ≠ 0 → Tried area m nbytes (localNext m addr)

/-- What a block has behind its header once it is taken: the request, or all that there was. -/
def takenSize (area : HeapArea) (m : Mem) (nbytes addr : Nat) : Nat :=
  if (nbytes + sizeHeader + minFreeBytes) % 2 ^ 32 ≤ freeSize m area.heap addr then nbytes
  else freeSize m area.heap addr

/--
The `Local_Realloc` of a live range none of whose sizes goes wrong.

A block that is kept has room for the new size, a block that is extended has only the end of the
heap behind it, and what is copied fits into the block that is taken.
-/
def Proper (area : HeapArea) (use : LocalUse) (address nbytes : Nat) : Prop :=
  let block := reallocBlock use.mem address
  let align := localGetalign use.mem address
  let len := reallocLen use.mem address nbytes
  nbytes + minFreeBytes ≤ 2 ^ 32 ∧
    if reallocKeeps use.mem address nbytes then
      localNext use.mem block = 0 → address + nbytes ≤ area.last
    else if reallocGrows use.mem address nbytes then
      localNext use.mem (localNext use.mem block) = 0 ∧
        roundBytes nbytes + align + minFreeBytes ≤ 2 ^ 32 ∧
        block + sizeHeader + len + sizeHeader ≤ area.last
    else Refused area use len ∨ roundBytes nbytes + align + minFreeBytes ≤ 2 ^ 32 ∧
      len + sizeHeader + minFreeBytes < 2 ^ 32 ∧
      ∀ addr, Tried area use.mem len addr → Taken area use.mem len addr →
        align + joinedSize use.mem block ≤ takenSize area use.mem len addr

/-- None of the sizes that decide about a request goes wrong. -/
def Resizable (area : HeapArea) (use : LocalUse) : LocalRequest → Prop
  | .call call => Unwrapping area use (.call call)
  | .realloc address nbytes =>
    if address = 0 ∨ nbytes = 0 then Resizes area use address nbytes
    else Proper area use address nbytes

/--
A `Local_Realloc` of a live range to a positive size is a correct resize.

The blocks stay in order, and the other ranges stay live with all that their blocks hold. The answer
is `NULL`, and the old range stays as well, or the new range has its bytes in one reserved block, and
what the old block held comes first in it.
-/
def Resizing (area : HeapArea) (use : LocalUse) (request : LocalRequest) (after : LocalUse) : Prop :=
  ∀ address nbytes, request = .realloc address nbytes → (∃ r ∈ use.live, r.start = address) →
    0 < nbytes → nbytes + minFreeBytes ≤ 2 ^ 32 →
    Ordered area after ∧
    (∀ r ∈ use.live, r.start ≠ address → r ∈ after.live ∧ ∀ size, Lies area use.mem r.start size →
      ∀ i < size, after.mem (r.start + i) = use.mem (r.start + i)) ∧
    ∃ addr, localRealloc use.mem area.heap address nbytes = some (after.mem, addr) ∧
      if addr = 0 then after.live = use.live ∧ ∀ size, Lies area use.mem address size →
        ∀ i < size, after.mem (address + i) = use.mem (address + i)
      else ⟨addr, nbytes⟩ ∈ after.live ∧ Lies area after.mem addr nbytes ∧
        ∀ size, Lies area use.mem address size →
          ∀ i < min size nbytes, after.mem (addr + i) = use.mem (address + i)

variable {area : HeapArea} {m w : Mem} {use after : LocalUse} {request : LocalRequest}
  {blocks front before behind : List LocalBlock} {b x : LocalBlock} {address nbytes : Nat}

/-- A search that finds something has tried the block that it takes. -/
theorem allocFrom_tried {fuel addr answer : Nat} (tried : Tried area m nbytes addr)
    (found : allocFrom m area.heap nbytes fuel addr = some (w, answer)) :
    (w, answer) = (m, 0) ∨ ∃ i, Tried area m nbytes i ∧ Taken area m nbytes i ∧
      w = (currentNodeAlloc m area.heap i nbytes).1 ∧ answer = (i + sizeHeader) % 2 ^ 32 := by
  -- The induction is on the fuel, and each round tries one block more.
  induction fuel generalizing addr with
  | zero => cases found
  | succ fuel ih =>
    rw [allocFrom] at found
    by_cases taken : Taken area m nbytes addr
    · rw [if_pos taken.1, if_pos taken.2, Option.some.injEq, Prod.mk.injEq] at found
      exact Or.inr ⟨addr, tried, taken, found.1.symm, found.2.symm⟩
    · have passed : (if localStatus m addr = statusFree then
          currentNodeAlloc m area.heap addr nbytes else (m, false)).2 = false := by
        by_cases free : localStatus m addr = statusFree
        · rw [if_pos free]
          exact Bool.eq_false_iff.mpr fun served => taken ⟨free, served⟩
        · rw [if_neg free]
      rw [if_neg (by rw [passed]; decide)] at found
      by_cases some : localNext m addr ≠ 0
      · rw [if_pos some] at found
        exact ih (tried.next addr taken some) found
      · -- Behind the last block nothing is found.
        rw [if_neg some, Option.some.injEq] at found
        exact Or.inl found.symm

/-- What is tried is found from the first block on. -/
theorem Tried.reached {addr : Nat} (tried : Tried area m nbytes addr) :
    Reached m area.heap addr := by
  induction tried with
  | first => exact Reached.first
  | next addr _ _ some ih => exact ih.next addr some

/-- Only blocks are found from the first one on. -/
theorem Sound.reached_block (sound : Sound area use blocks) {addr : Nat}
    (reached : Reached use.mem area.heap addr) : ∃ b ∈ blocks, b.start = addr := by
  induction reached with
  | first =>
    obtain ⟨x, rest, rfl⟩ := List.exists_cons_of_ne_nil sound.held.filled
    exact ⟨x, by simp, sound.held.tiles.1.trans sound.chained.first.symm⟩
  | next addr _ some ih =>
    -- The link leads to the next block of the list.
    obtain ⟨b, member, rfl⟩ := ih
    obtain ⟨before, after, rfl⟩ := List.append_of_mem member
    have link := sound.chained.links.2
    cases after with
    | nil => exact absurd link some
    | cons y after => exact ⟨y, by simp, link.symm⟩

/-- A block that is taken has the request behind its header, or all that there was. -/
theorem takes (chained : Chained area m (before ++ b :: behind))
    (tiles : Tiles LocalBlock.region area.first (before ++ b :: behind) area.last)
    (taken : Taken area m nbytes b.start) (small : nbytes + 80 < 2 ^ 32) (words : nbytes % 4 = 0) :
    nbytes ≤ takenSize area m nbytes b.start ∧ ∃ front,
      Served area m (currentNodeAlloc m area.heap b.start nbytes).1 before b behind
        (16 + takenSize area m nbytes b.start) front := by
  -- The sum of the test does not wrap, so the block is split exactly if it is large enough.
  have threshold : (nbytes + sizeHeader + minFreeBytes) % 2 ^ 32 = nbytes + 80 :=
    Nat.mod_eq_of_lt small
  have size : takenSize area m nbytes b.start =
      if nbytes + 80 ≤ b.size - 16 then nbytes else b.size - 16 := by
    rw [takenSize, freeSize_eq chained tiles, threshold]
  obtain ⟨front, long, served⟩ := chained.serve tiles taken.2 small words
  rw [size]
  refine ⟨?_, front, served⟩
  -- Either the block is split behind the request, or all that there was is enough.
  split <;> omega

/-- A search refuses, or it hands out the block that it has tried last. -/
theorem Sound.finds (sound : Sound area use blocks) (rounded : roundBytes nbytes = nbytes)
    (words : nbytes % 4 = 0) (fits : nbytes + 80 < 2 ^ 32) :
    localAllocInner use.mem area.heap nbytes = some (use.mem, 0) ∨
      ∃ before b behind w front, blocks = before ++ b :: behind ∧ b.busy = false ∧
        Tried area use.mem nbytes b.start ∧ Taken area use.mem nbytes b.start ∧
        nbytes ≤ takenSize area use.mem nbytes b.start ∧
        Served area use.mem w before b behind (16 + takenSize area use.mem nbytes b.start) front ∧
        localAllocInner use.mem area.heap nbytes = some (w, b.start + 16) := by
  have bounds := area_bounds area
  rcases sound.search nbytes with none | ⟨_, b', _, _, _, _, _, answer⟩
  · exact Or.inl none
  · -- The walk that found a block has tried it.
    rw [rounded] at answer
    have walk := answer
    rw [localAllocInner, rounded] at walk
    rcases allocFrom_tried Tried.first walk with none | ⟨i, tried, taken, result, place⟩
    · rw [Prod.mk.injEq] at none
      omega
    obtain ⟨b, member, rfl⟩ := sound.reached_block tried.reached
    have own := sound.bounds member
    have free := (sound.chained.free_iff member).mp taken.1
    have spot : (b.start + sizeHeader) % 2 ^ 32 = b.start + 16 := by
      change (b.start + 16) % 2 ^ 32 = b.start + 16
      omega
    obtain ⟨before, behind, rfl⟩ := List.append_of_mem member
    obtain ⟨long, front, served⟩ := takes sound.chained sound.held.tiles taken fits words
    rw [answer, result, place, spot]
    exact Or.inr ⟨before, b, behind, _, front, rfl, free, tried, taken, long, served, rfl⟩

/-- What lies in one block from the address of its user on is in this block. -/
theorem Sound.owned (sound : Sound area use blocks) (place : x ∈ blocks) {size i : Nat}
    (lies : Lies area use.mem x.user size) (less : i < size) :
    x.user + i < x.start + x.size := by
  obtain ⟨_, _, reached, _, low, high⟩ := lies
  obtain ⟨y, member, rfl⟩ := sound.reached_block reached
  obtain ⟨behind, within, _⟩ := sound.keyed x place
  change x.start + 16 ≤ x.user at behind
  change y.start + 16 ≤ x.user at low
  obtain ⟨front, back, same⟩ := List.append_of_mem member
  have room := sound.bounds member
  have size := freeSize_eq (same ▸ sound.chained) (same ▸ sound.held.tiles)
  rw [size] at high
  change x.user + _ ≤ y.start + 16 + (y.size - 16) at high
  -- Another block would have the address behind its own header, and so behind the end of this one.
  rw [same] at place sound
  rcases List.mem_append.mp place with ahead | rest
  · have apart := sound.elsewhere (List.mem_append_left back ahead)
    omega
  · rcases List.mem_cons.mp rest with rfl | later
    · omega
    · have apart := sound.elsewhere (List.mem_append_right front later)
      omega

/-- The size that `Local_Realloc` copies covers what is in the block. -/
theorem Sound.joined_le (sound : Sound area use (front ++ x :: behind)) :
    x.start + x.size ≤ x.user + joinedSize use.mem x.start := by
  have bounds := area_bounds area
  have own := sound.bounds (b := x) (by simp)
  have inside : x.start + 16 ≤ x.user := (sound.keyed x (by simp)).1
  have size := localSize_eq sound.chained sound.held.tiles
  have link := sound.chained.links.2
  cases behind with
  | nil =>
    -- The size of the last block wraps around, and nothing is behind it.
    have alone : rightFree use.mem x.start = false := by
      rw [rightFree, link]
      simp
    rw [if_pos rfl] at size
    rw [joinedSize, if_neg (by simp [alone]), size]
    omega
  | cons y behind =>
    have next : localNext use.mem x.start = y.start := link
    have start : y.start = x.start + x.size := sound.held.tiles.behind.1
    have rest := sound.bounds (b := y) (by simp)
    rw [List.append_cons] at sound
    have more := localSize_eq sound.chained sound.held.tiles
    rw [if_neg (List.cons_ne_nil y behind)] at size
    rw [joinedSize, size, next, more]
    -- With a free block behind it, the sum of both sizes still fits into a word.
    by_cases free : rightFree use.mem x.start = true
    · rw [if_pos free]
      split
      · omega
      · omega
    · rw [if_neg free]
      omega

/-- A block in front of another one that is not kept is too small for the new size. -/
theorem Sound.outgrows {y : LocalBlock} (sound : Sound area use (front ++ x :: y :: behind))
    (busy : x.busy = true) (keeps : ¬ reallocKeeps use.mem x.user nbytes = true) :
    x.size < 16 + (roundBytes nbytes + localGetalign use.mem x.user) := by
  have bounds := area_bounds area
  have own := sound.bounds (b := x) (by simp)
  obtain ⟨inside, within, _⟩ := sound.keyed x (by simp)
  change x.start + 16 ≤ x.user at inside
  obtain ⟨distance, block⟩ := sound.reads busy
  have size := localSize_eq sound.chained sound.held.tiles
  rw [if_neg (List.cons_ne_nil y behind)] at size
  -- The test compares the new size with what is behind the address of the user.
  rw [reallocKeeps, block, distance, size, decide_eq_true_eq] at keeps
  omega

/-- A block that is extended keeps what is in it. -/
theorem Sound.grown_carries {y : LocalBlock} {len : Nat} (sound : Sound area use (front ++ [x, y]))
    (busy : x.busy = true) (free : y.busy = false)
    (room : x.start + 16 + len + 16 ≤ area.last) (longer : x.size ≤ 16 + len) :
    Carries use (front ++ [x, y]) x x.user nbytes (growNode use.mem x.start len) := by
  have bounds := area_bounds area
  have inside : x.start + 16 ≤ x.user := (sound.keyed x (by simp)).1
  obtain ⟨divided, between⟩ := sound.divided busy room
  constructor
  · intro z member kind key a low high
    -- The other busy blocks are in front.
    rcases List.mem_append.mp member with left | right
    · have apart := sound.held.tiles.front.within left
      change area.first ≤ z.start ∧ z.start + z.size ≤ x.start at apart
      exact divided.kept a (by omega) (Or.inl rfl)
    · rcases List.mem_cons.mp right with rfl | rest
      · exact absurd rfl key
      · rw [List.mem_singleton.mp rest, free] at kind
        cases kind
  · intro i less within
    exact between (x.user + i) (by omega) (by omega)

/-- An answer that carries the bytes over, in a state that is sound again, is a correct resize. -/
theorem Sound.answers {blocks' : List LocalBlock} {addr : Nat} (sound : Sound area use blocks)
    (place : x ∈ blocks) (running : after.stuck = false) (sound' : Sound area after blocks')
    (nonzero : addr ≠ 0)
    (answer : localRealloc use.mem area.heap x.user nbytes = some (after.mem, addr))
    (live : after.live = ⟨addr, nbytes⟩ :: use.live.eraseP fun r => r.start = x.user)
    (carries : Carries use blocks x addr nbytes after.mem) :
    Resizing area use (.realloc x.user nbytes) after := by
  intro address n same _ _ _
  cases same
  have new : (⟨addr, nbytes⟩ : Region) ∈ after.live := by
    rw [live]
    exact List.mem_cons_self
  refine ⟨⟨running, _, sound'.tagged⟩, fun r member other => ⟨?_, ?_⟩, addr, answer, ?_⟩
  · -- Only the range of the address is given up.
    rw [live]
    refine List.mem_cons_of_mem _ ((List.mem_eraseP_of_neg ?_).mpr member)
    simpa using other
  · intro size lies i less
    obtain ⟨z, listed, busy, key, _⟩ := sound.held.matched.holder member
    change r.start = z.user at key
    rw [key] at lies other ⊢
    exact carries.others z listed busy other _ (by omega) (sound.owned listed lies less)
  · rw [if_neg nonzero]
    refine ⟨new, sound'.lies new, fun size lies i less => ?_⟩
    exact carries.content i (by omega) (sound.owned place lies (by omega))

/-- Without an answer everything stays. -/
theorem Sound.declines (sound : Sound area use blocks) (running : use.stuck = false)
    (positive : nbytes ≠ 0)
    (answer : localRealloc use.mem area.heap address nbytes = some (use.mem, 0)) :
    Steady area use (use.resized address nbytes (some (use.mem, 0))) ∧
      Resizing area use (.realloc address nbytes)
        (use.resized address nbytes (some (use.mem, 0))) := by
  -- Neither the memory nor what is live has changed.
  have same : use.resized address nbytes (some (use.mem, 0)) = use := by
    rw [resized, if_neg (by simp), if_neg positive]
  rw [same]
  refine ⟨⟨running, ⟨_, sound⟩, fun a _ => rfl⟩, fun address' n equal _ _ _ => ?_⟩
  cases equal
  refine ⟨⟨running, _, sound.tagged⟩, fun r member _ => ⟨member, fun _ _ _ _ => rfl⟩, 0, answer, ?_⟩
  rw [if_pos rfl]
  exact ⟨rfl, fun _ _ _ _ => rfl⟩

/-- A live range is resized correctly when none of the sizes goes wrong. -/
theorem Sound.resizing (sound : Sound area use blocks) (running : use.stuck = false)
    (taken : use.serve area (.realloc address nbytes) = some after)
    (holds : ∃ r ∈ use.live, r.start = address) (positive : nbytes ≠ 0)
    (proper : Proper area use address nbytes) :
    Steady area use after ∧ Resizing area use (.realloc address nbytes) after := by
  have bounds := area_bounds area
  rw [serve, running, if_neg (by simp), Option.some.injEq] at taken
  obtain ⟨small, proper⟩ := proper
  change nbytes + 64 ≤ 2 ^ 32 at small
  have less : nbytes + 63 < 2 ^ 32 := by omega
  have rounded := (roundBytes_spec less).1
  obtain ⟨front, x, behind, rfl, busy, rfl⟩ := sound.found holds
  have place : x ∈ front ++ x :: behind := by simp
  have inside : x.start + 16 ≤ x.user := (sound.keyed x place).1
  have null : x.user ≠ 0 := by omega
  obtain ⟨distance, block⟩ := sound.reads busy
  rw [block] at proper
  have answer := sound.localRealloc_eq busy positive less
  by_cases keeps : reallocKeeps use.mem x.user nbytes = true
  · rw [if_pos keeps] at proper answer
    -- The range gets its new size in place, and no byte is written.
    have room := sound.keeps_room busy less keeps proper
    rw [answer, resized, if_pos null] at taken
    subst taken
    have kept := sound.kept busy room
    refine ⟨⟨running, ⟨_, kept⟩, fun a _ => rfl⟩, ?_⟩
    exact sound.answers place running kept null answer rfl
      ⟨fun _ _ _ _ _ _ _ => rfl, fun _ _ _ => rfl⟩
  rw [if_neg keeps] at proper answer
  by_cases grows : reallocGrows use.mem x.user nbytes = true
  · rw [if_pos grows] at proper answer
    obtain ⟨last, sum, room⟩ := proper
    -- The range grows into the block behind.
    obtain ⟨y, rfl, free⟩ := sound.grows_next busy grows last
    have whole := reallocLen_spec sum
    change x.start + 16 + reallocLen use.mem x.user nbytes + 16 ≤ area.last at room
    have more := sound.outgrows busy keeps
    have longer : x.size ≤ 16 + reallocLen use.mem x.user nbytes := by omega
    obtain ⟨grown, spares⟩ := sound.grown busy free _ (by omega) room
      (show x.user + nbytes ≤ _ by omega)
    rw [answer, resized, if_pos null] at taken
    subst taken
    refine ⟨⟨running, ⟨_, grown⟩, spares⟩, ?_⟩
    exact sound.answers place running grown null answer rfl
      (sound.grown_carries busy free room longer)
  rw [if_neg grows] at proper answer
  rcases proper with refused | ⟨sum, fits, copied⟩
  · rw [sound.refused refused, Option.map_some, if_neg (by simp)] at answer
    rw [answer] at taken
    subst taken
    exact sound.declines running positive answer
  · -- The range is moved into the block that the search takes.
    have whole := reallocLen_spec sum
    have twice : roundBytes (reallocLen use.mem x.user nbytes) = reallocLen use.mem x.user nbytes :=
      roundBytes_twice
    rcases sound.finds twice (by omega) fits with
      none | ⟨before, b, rest, w, more, same, free, tried, found, long, served, search⟩
    · rw [none, Option.map_some, if_neg (by simp)] at answer
      rw [answer] at taken
      subst taken
      exact sound.declines running positive answer
    · have covers := sound.joined_le
      rw [same] at sound place
      have own := sound.bounds (b := b) (by simp)
      have room : localGetalign use.mem x.user + nbytes ≤
          takenSize area use.mem (reallocLen use.mem x.user nbytes) b.start := by omega
      obtain ⟨w', moved, ⟨_, sound'⟩, spares, carries⟩ := sound.moves free served place busy holds
        room (copied b.start tried found)
      rw [search, Option.map_some, if_pos (by simp), moved] at answer
      have nonzero : b.start + 16 + localGetalign use.mem x.user ≠ 0 := by omega
      rw [answer, resized, if_pos nonzero] at taken
      subst taken
      refine ⟨⟨running, ⟨_, sound'⟩, spares⟩, ?_⟩
      exact sound.answers place running sound' nonzero answer rfl (carries covers)

/-- A request within the conditions is steady, and if it resizes a range it does so correctly. -/
theorem Sound.resizable (sound : Sound area use blocks) (running : use.stuck = false)
    (taken : use.serve area request = some after) (permits : use.Permits request)
    (resizable : Resizable area use request) :
    Steady area use after ∧ Resizing area use request after := by
  have bounds := area_bounds area
  cases request with
  | call call =>
    refine ⟨(sound.called running taken permits resizable).1, fun address n same => ?_⟩
    cases same
  | realloc address nbytes =>
    by_cases none : address = 0 ∨ nbytes = 0
    · -- Nothing is resized: memory is asked for or given up.
      rw [Resizable, if_pos none] at resizable
      have steady := sound.realloc running permits.2 resizable
      rw [serve, running, if_neg (by simp), Option.some.injEq] at taken
      subst taken
      refine ⟨steady, fun address' n same holds positive _ => ?_⟩
      cases same
      rcases none with null | zero
      · -- No user has been given address 0.
        subst null
        obtain ⟨before, x, rest, rfl, _, key⟩ := sound.found holds
        have inside : x.start + 16 ≤ x.user := (sound.keyed x (by simp)).1
        omega
      · omega
    · rw [Resizable, if_neg none] at resizable
      have holds := permits.2.resolve_left fun null => none (Or.inl null)
      exact sound.resizing running taken holds (fun zero => none (Or.inr zero)) resizable

/--
`Local_Realloc` is a correct resize in every run in which no size that decides about a request goes
wrong, and in all states of such a run the blocks are in order and hold the live ranges.
-/
theorem resizing_of_resizable (area : HeapArea) (m : Mem) (requests : List LocalRequest)
    (within : Runs.Each (serve area)
      (fun use request _ => use.Permits request ∧ Resizable area use request)
      (init area m) requests) :
    Runs.Always (serve area)
        (fun use => Ordered area use ∧ ∀ r ∈ use.live, Lies area use.mem r.start r.size)
        (init area m) requests ∧
      Runs.Each (serve area) (Resizing area) (init area m) requests := by
  -- Soundness goes through the run, and each step starts from a sound state.
  have start : (init area m).stuck = false ∧ ∃ blocks, Sound area (init area m) blocks :=
    ⟨rfl, _, sound_init area m⟩
  have preserved : ∀ use request after,
      (use.stuck = false ∧ ∃ blocks, Sound area use blocks) →
      use.serve area request = some after →
      use.Permits request ∧ Resizable area use request →
      (after.stuck = false ∧ ∃ blocks, Sound area after blocks) ∧
        Resizing area use request after := by
    intro use request after holds taken met
    obtain ⟨running, blocks, sound⟩ := holds
    obtain ⟨steady, resizing⟩ := sound.resizable running taken met.1 met.2
    exact ⟨⟨steady.running, steady.sound⟩, resizing⟩
  constructor
  · refine Runs.Always.mono ?_ (Runs.always_of_invariant
      (fun use request after holds taken met => (preserved use request after holds taken met).1)
      start within)
    intro use holds
    obtain ⟨running, blocks, sound⟩ := holds
    exact ⟨⟨running, blocks, sound.tagged⟩, fun r member => sound.lies member⟩
  · exact Runs.each_of_invariant
      (fun use request after holds taken met => (preserved use request after holds taken met).1)
      (fun use request after holds taken met => (preserved use request after holds taken met).2)
      start within

/-- A range that is written and then extended into the free block behind it is such a run. -/
theorem resizing_small :
    Runs.Always (serve smallArea)
        (fun use => Ordered smallArea use ∧ ∀ r ∈ use.live, Lies smallArea use.mem r.start r.size)
        (init smallArea fun _ => 0)
        [.call (.alloc 20), .call (.write 0x1050 7), .realloc 0x1050 100] ∧
      Runs.Each (serve smallArea) (Resizing smallArea) (init smallArea fun _ => 0)
        [.call (.alloc 20), .call (.write 0x1050 7), .realloc 0x1050 100] := by
  -- The three requests are checked one by one.
  refine resizing_of_resizable smallArea (fun _ => 0) [.call (.alloc 20),
    .call (.write 0x1050 7), .realloc 0x1050 100] ?_
  refine (Runs.each_cons rfl).mpr ⟨⟨show 20 < 2 ^ 32 by decide, ?_⟩, ?_⟩
  · intro nbytes sought
    cases sought
    exact Or.inl (by decide)
  refine (Runs.each_cons rfl).mpr ⟨⟨⟨⟨0x1050, 20⟩, by decide +kernel, by decide⟩, ?_⟩, ?_⟩
  · intro nbytes sought
    cases sought
  refine (Runs.each_cons rfl).mpr ⟨⟨⟨by decide, Or.inr ⟨⟨0x1050, 20⟩, by decide +kernel, rfl⟩⟩, ?_⟩,
    trivial⟩
  -- The block is too small, and the one behind it ends with the heap.
  rw [Resizable, if_neg (by decide)]
  refine ⟨by decide, ?_⟩
  rw [if_neg (by decide +kernel), if_pos (by decide +kernel)]
  exact ⟨by decide +kernel, by decide +kernel, by decide +kernel⟩

/-- The address of an answer, from what a computation gives. -/
theorem answered {answer : Option (Mem × Nat)} {m : Mem} {a b : Nat} (given : answer = some (m, a))
    (computed : answer.map Prod.snd = some b) : a = b := by
  rw [given, Option.map_some] at computed
  exact Option.some.inj computed

/-- The last block of a heap is kept for any size, also where the heap ends before. -/
theorem not_resizing_last :
    Runs.Each (serve smallArea)
        (fun use request _ => use.Permits request ∧ (∀ call, request = .call call →
          Unwrapping smallArea use request))
        (init smallArea fun _ => 0) [.call (.alloc 100), .realloc 0x1050 200] ∧
      ¬ Runs.Each (serve smallArea) (Resizing smallArea) (init smallArea fun _ => 0)
        [.call (.alloc 100), .realloc 0x1050 200] := by
  constructor
  · refine (Runs.each_cons rfl).mpr ⟨⟨show 100 < 2 ^ 32 by decide, ?_⟩, ?_⟩
    · intro call same nbytes sought
      cases sought
      exact Or.inl (by decide)
    · refine (Runs.each_cons rfl).mpr ⟨⟨⟨by decide, Or.inr ⟨⟨0x1050, 100⟩, by decide +kernel, rfl⟩⟩,
        ?_⟩, trivial⟩
      intro call same
      cases same
  · intro claim
    have resizing := ((Runs.each_cons rfl).mp ((Runs.each_cons rfl).mp claim).2).1
    obtain ⟨_, _, addr, answer, rest⟩ := resizing 0x1050 200 rfl
      ⟨⟨0x1050, 100⟩, by decide +kernel, rfl⟩ (by decide) (by decide)
    -- The same address is answered, and 200 bytes from it on are more than the heap has.
    have place : addr = 0x1050 := answered answer (by decide +kernel)
    rw [place, if_neg (by decide)] at rest
    exact absurd rest.2.1.1.2 (by decide)

end LocalUse

end Aip
