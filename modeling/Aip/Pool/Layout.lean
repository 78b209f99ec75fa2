import Aip.Lib.Region
import Aip.Lib.Splice
import Aip.Pool.Pool

/-! How the blocks of a pool lie in the kernel's areas, and what the operations do to that. -/

namespace Aip

/-- The memory of an area. -/
def BoInfo.region (bo : BoInfo) : Region := ⟨bo.dma, bo.size⟩

/-- The memory of a block. -/
def Block.region (block : Block) : Region := ⟨block.paddr, block.size⟩

/-- The memory of a buffer that was handed out: that of its block at the time. -/
def Bo.region (bo : Bo) : Region := ⟨bo.paddr, bo.esize⟩

/-- Two handles stand for areas that are apart. -/
theorem BoTable.apart_of_find {table : BoTable} {i j : Nat} {a b : BoInfo}
    (foundA : table.handles.find i = some a) (foundB : table.handles.find j = some b)
    (other : i ≠ j) : a.region.Apart b.region := by
  -- The entries are two different ones of a list whose objects are apart pairwise.
  have pairs : table.handles.entries.Pairwise fun e f => e.2.region.Apart f.2.region := by
    have values := table.apart
    rw [Idr.values, List.pairwise_map] at values
    exact values
  have symm : Std.Symm fun e f : Nat × BoInfo => e.2.region.Apart f.2.region :=
    ⟨fun _ _ => Region.Apart.symm⟩
  exact pairs.forall (Idr.find_eq_some.mp foundA) (Idr.find_eq_some.mp foundB)
    fun same => other (congrArg Prod.fst same)

/-- A block lies in the area of its handle, and starts before the area ends. -/
structure Block.Placed (table : BoTable) (block : Block) (area : BoInfo) : Prop where
  found : table.handles.find block.handle = some area
  bounded : area.size < 2 ^ 32
  inside : block.region.Inside area.region
  starts : block.paddr < area.dma + area.size

/-- A block may stand right behind another one: it starts an area in use, or goes on with the area. -/
def Block.Follows (block next : Block) : Prop :=
  if next.isBo then next.idle = false
  else next.handle = block.handle ∧ next.paddr = block.paddr + block.size ∧
    (block.isBo → block.idle = false)

/-- The blocks lie in live areas in the order of the list, without gaps inside an area. -/
structure Layout (table : BoTable) (blocks : List Block) : Prop where
  placed : ∀ block ∈ blocks, ∃ area, block.Placed table area
  chain : blocks.IsChain Block.Follows
  order : blocks.Pairwise fun x y => x.handle = y.handle → x.paddr + x.size ≤ y.paddr

/-- The blocks in use. -/
def busy (blocks : List Block) : List Block := blocks.filter fun block => !block.idle

@[simp] theorem busy_append (left right : List Block) : busy (left ++ right) = busy left ++ busy right :=
  List.filter_append ..

@[simp] theorem busy_cons (block : Block) (blocks : List Block) :
    busy (block :: blocks) = if block.idle then busy blocks else block :: busy blocks := by
  cases idle : block.idle <;> simp [busy, idle]

/-- Idle neighbours of one area are joined, one pair after the other. -/
inductive Joins : List Block → List Block → Prop where
  | refl (blocks : List Block) : Joins blocks blocks
  | join {before after joined : List Block} {x y : Block} (idle : x.idle ∧ y.idle)
      (area : y.handle = x.handle) (inner : y.isBo = false) (touch : y.paddr = x.paddr + x.size)
      (joins : Joins (before ++ { x with size := x.size + y.size } :: after) joined) :
      Joins (before ++ x :: y :: after) joined

namespace Layout

variable {table : BoTable} {blocks before after : List Block} {x y : Block}

/-- The empty list of a new context. -/
theorem nil : Layout table [] := ⟨by simp, .nil, .nil⟩

/-- Two blocks that start at the same address belong to one area. -/
theorem area_eq (layout : Layout table blocks) (memberX : x ∈ blocks) (memberY : y ∈ blocks)
    (same : x.paddr = y.paddr) : x.handle = y.handle := by
  obtain ⟨areaX, placedX⟩ := layout.placed x memberX
  obtain ⟨areaY, placedY⟩ := layout.placed y memberY
  by_contra other
  -- The areas of the two handles would share the address.
  have apart := BoTable.apart_of_find placedX.found placedY.found other
  refine apart.elim x.paddr ⟨placedX.inside.1, placedX.starts⟩ ?_
  rw [same]
  exact ⟨placedY.inside.1, placedY.starts⟩

/-- No two blocks overlap. -/
theorem apart (layout : Layout table blocks) :
    blocks.Pairwise fun x y => x.region.Apart y.region := by
  apply layout.order.imp_of_mem
  intro x y memberX memberY ordered
  by_cases same : x.handle = y.handle
  · exact .inl (ordered same)
  · -- Blocks of two areas are apart because the areas are.
    obtain ⟨areaX, placedX⟩ := layout.placed x memberX
    obtain ⟨areaY, placedY⟩ := layout.placed y memberY
    exact (BoTable.apart_of_find placedX.found placedY.found same).of_inside placedX.inside
      placedY.inside

/-- An idle block is handed out as a whole, or a block inside an area becomes idle. -/
theorem setIdle (layout : Layout table (before ++ x :: after)) (idle : Bool)
    (allowed : idle = true → x.isBo = false) :
    Layout table (before ++ { x with idle := idle } :: after) := by
  refine ⟨?_, Splice.isChain_replace layout.chain ?_ ?_, Splice.pairwise_replace layout.order ?_ ?_⟩
  · intro block member
    rcases List.mem_append.mp member with early | late
    · exact layout.placed block (List.mem_append_left _ early)
    · rcases List.mem_cons.mp late with rfl | later
      · obtain ⟨area, placed⟩ := layout.placed x (by simp)
        exact ⟨area, placed.found, placed.bounded, placed.inside, placed.starts⟩
      · exact layout.placed block (List.mem_append_right _ (List.mem_cons_of_mem _ later))
  · intro w follows
    -- Only the start of an area has to be in use, and it is not made idle.
    simp only [Block.Follows] at follows ⊢
    cases bo : x.isBo with
    | true =>
      cases idle with
      | true => simp [bo] at allowed
      | false => simp
    | false => simpa [bo] using follows
  · intro w follows
    simp only [Block.Follows] at follows ⊢
    split
    · simpa [*] using follows
    · rename_i inner
      simp only [inner] at follows
      refine ⟨follows.1, follows.2.1, fun bo => ?_⟩
      cases idle with
      | true => simp [allowed rfl] at bo
      | false => rfl
  · exact fun _ _ ordered => ordered
  · exact fun _ _ ordered => ordered

/-- The two parts of a block that is split lie where the block lay. -/
theorem split (layout : Layout table (before ++ x :: after)) {alignSize : Nat}
    (fits : alignSize < x.size) : Layout table
      (before ++ { x with size := alignSize, idle := false } :: x.rest alignSize :: after) := by
  obtain ⟨area, placed⟩ := layout.placed x (by simp)
  have inside : area.dma ≤ x.paddr ∧ x.paddr + x.size ≤ area.dma + area.size := placed.inside
  have memory := (table.placed area (Idr.mem_values_of_find placed.found)).inside
  -- The rest starts inside the area, so its address does not wrap.
  have start : (x.rest alignSize).paddr = x.paddr + alignSize := by
    simp only [Block.rest]
    omega
  have size : (x.rest alignSize).size = x.size - alignSize := rfl
  refine ⟨?_, Splice.isChain_split layout.chain ?_ ?_ ?_,
    Splice.pairwise_split layout.order ?_ ?_ ?_⟩
  · intro block member
    rcases List.mem_append.mp member with early | late
    · exact layout.placed block (List.mem_append_left _ early)
    · rcases List.mem_cons.mp late with rfl | later
      · -- The first part is cut off at its end.
        refine ⟨area, placed.found, placed.bounded, ?_, placed.starts⟩
        exact placed.inside.shrink rfl (Nat.le_of_lt fits)
      · rcases List.mem_cons.mp later with rfl | last
        · -- The rest ends where the block ended.
          refine ⟨area, placed.found, placed.bounded, ?_, ?_⟩
          · simp only [Region.Inside, Block.region, BoInfo.region, start, size]
            omega
          · rw [start]
            omega
        · exact layout.placed block (List.mem_append_right _ (List.mem_cons_of_mem _ last))
  · intro w follows
    -- Whatever the first part stands behind, the block stood there before.
    cases bo : x.isBo with
    | true => simp [Block.Follows]
    | false => simpa [Block.Follows, bo] using follows
  · simp only [Block.Follows, start]
    simp [Block.rest]
  · intro w follows
    simp only [Block.Follows] at follows ⊢
    split
    · simpa [*] using follows
    · rename_i inner
      simp only [inner] at follows
      -- The next block starts where the rest ends.
      refine ⟨follows.1, ?_, by simp [Block.rest]⟩
      rw [follows.2.1, start, size]
      omega
  · intro w _ ordered
    refine ⟨ordered, fun same => ?_⟩
    have before := ordered same
    rw [start]
    omega
  · intro _
    rw [start]
  · intro w _ ordered
    refine ⟨fun same => ?_, fun same => ?_⟩
    · have after := ordered same
      show x.paddr + alignSize ≤ w.paddr
      omega
    · have after := ordered same
      rw [start, size]
      omega

/-- A block that is joined with the next one of its area lies where the two lay. -/
theorem join (layout : Layout table (before ++ x :: y :: after)) (area : y.handle = x.handle)
    (inner : y.isBo = false) (touch : y.paddr = x.paddr + x.size) :
    Layout table (before ++ { x with size := x.size + y.size } :: after) := by
  refine ⟨?_, Splice.isChain_join layout.chain ?_ ?_, Splice.pairwise_join layout.order ?_ ?_⟩
  · intro block member
    rcases List.mem_append.mp member with early | late
    · exact layout.placed block (List.mem_append_left _ early)
    · rcases List.mem_cons.mp late with rfl | later
      · obtain ⟨areaX, placedX⟩ := layout.placed x (by simp)
        obtain ⟨areaY, placedY⟩ := layout.placed y (by simp)
        -- Both blocks are in the area of the one handle.
        have same : areaY = areaX :=
          Option.some.inj (placedY.found.symm.trans (area ▸ placedX.found))
        subst same
        refine ⟨areaY, placedX.found, placedX.bounded, ?_, placedX.starts⟩
        have insideX := placedX.inside
        have insideY := placedY.inside
        simp only [Region.Inside, Block.region, BoInfo.region] at insideX insideY ⊢
        omega
      · exact layout.placed block
          (List.mem_append_right _ (List.mem_cons_of_mem _ (List.mem_cons_of_mem _ later)))
  · exact fun _ follows => follows
  · intro w follows
    have link : x.Follows y := (Splice.isChain_around.mp layout.chain).2.2.1 y rfl
    simp only [Block.Follows] at follows link ⊢
    split
    · simpa [*] using follows
    · rename_i next
      simp only [next] at follows
      simp only [inner] at link
      -- The next block starts where the second of the two ends.
      refine ⟨follows.1.trans area, ?_, link.2.2⟩
      rw [follows.2.1, touch]
      omega
  · exact fun _ _ ordered _ => ordered
  · intro w _ _ ordered same
    have later := ordered (area.trans same)
    show x.paddr + (x.size + y.size) ≤ w.paddr
    omega

/-- An area that the kernel adds goes behind the others as one block, in use unless it is the first. -/
theorem append (layout : Layout table blocks) {grown : BoTable} {pid size dma handle : Nat}
    (bounded : size < 2 ^ 32) (taken : table.append pid size dma handle = some grown) (vaddr : Nat)
    {idle : Bool} (first : idle = true → blocks = []) :
    Layout grown (blocks ++ [⟨size, idle, true, handle, dma, vaddr⟩]) := by
  obtain ⟨free, entered, _⟩ := BoTable.append_spec taken
  -- The size is rounded up without wrapping, for a region of size 0 is never given out.
  have rounded : size ≤ BoTable.roundUp size ∧ BoTable.roundUp size < 2 ^ 32 := by
    have nonempty : 0 < BoTable.roundUp size := free.1
    simp only [BoTable.roundUp] at nonempty ⊢
    omega
  refine ⟨?_, ?_, ?_⟩
  · intro block member
    rcases List.mem_append.mp member with old | new
    · obtain ⟨area, placed⟩ := layout.placed block old
      exact ⟨area, { placed with found := Idr.find_alloc entered placed.found }⟩
    · rw [List.mem_singleton.mp new]
      refine ⟨_, Idr.find_alloc_self entered, rounded.2, ?_, ?_⟩
      · simp only [Region.Inside, Block.region, BoInfo.region]
        omega
      · have nonempty : 0 < BoTable.roundUp size := free.1
        show dma < dma + BoTable.roundUp size
        omega
  · -- The new block starts an area, so it is in use or has no block before it.
    rw [List.isChain_append]
    refine ⟨layout.chain, .singleton _, fun w last v member => ?_⟩
    rw [List.head?_cons, Option.mem_some_iff] at member
    subst member
    cases idle with
    | false => simp [Block.Follows]
    | true => simp [first rfl] at last
  · rw [List.pairwise_append]
    refine ⟨layout.order, List.pairwise_singleton _ _, fun w member v listed same => ?_⟩
    -- No earlier block has the new handle.
    rw [List.mem_singleton.mp listed] at same
    obtain ⟨area, placed⟩ := layout.placed w member
    have fresh : table.handles.find w.handle = none := same ▸ (Idr.alloc_fresh entered).2
    rw [placed.found] at fresh
    cases fresh

end Layout

namespace Joins

/-- Joining keeps the layout. -/
theorem layout {table : BoTable} {blocks joined : List Block} (joins : Joins blocks joined)
    (layout : Layout table blocks) : Layout table joined := by
  induction joins with
  | refl blocks => exact layout
  | join idle area inner touch _ ih => exact ih (layout.join area inner touch)

/-- Joining leaves the blocks in use alone. -/
theorem busy {blocks joined : List Block} (joins : Joins blocks joined) :
    busy joined = busy blocks := by
  induction joins with
  | refl blocks => rfl
  | join idle area inner touch _ ih => simpa [idle.1, idle.2] using ih

/-- Joining goes on where it stopped. -/
theorem trans {blocks joined final : List Block} (first : Joins blocks joined)
    (second : Joins joined final) : Joins blocks final := by
  induction first with
  | refl blocks => exact second
  | join idle area inner touch _ ih => exact .join idle area inner touch (ih second)

end Joins

namespace Pool

/-- The loop of the allocation hands out an idle block that is large enough, or its first bytes. -/
theorem takeIdle_spec {size : Nat} {blocks rest : List Block} {used : Block}
    (taken : takeIdle size blocks = some (used, rest)) :
    ∃ before curr after, blocks = before ++ curr :: after ∧ curr.idle = true ∧
      ((used = { curr with idle := false } ∧ rest = before ++ used :: after) ∨
        (size < curr.size ∧ used = { curr with size := size, idle := false } ∧
          rest = before ++ used :: curr.rest size :: after)) := by
  -- The induction follows the loop past the blocks that it skips.
  induction blocks generalizing rest with
  | nil => simp [takeIdle] at taken
  | cons curr after ih =>
    simp only [takeIdle] at taken
    split at taken
    case isTrue fits =>
      refine ⟨[], curr, after, rfl, fits.1, ?_⟩
      split at taken <;> cases taken
      · exact .inl ⟨rfl, rfl⟩
      · exact .inr ⟨by omega, rfl, rfl⟩
    case isFalse =>
      obtain ⟨⟨other, tail⟩, found, same⟩ := Option.map_eq_some_iff.mp taken
      cases same
      obtain ⟨before, curr', after', split, idle, cases⟩ := ih found
      refine ⟨curr :: before, curr', after', by rw [split]; rfl, idle, ?_⟩
      rcases cases with ⟨whole, list⟩ | ⟨fits, part, list⟩
      · exact .inl ⟨whole, congrArg (curr :: ·) list⟩
      · exact .inr ⟨fits, part, congrArg (curr :: ·) list⟩

/-- The block that is looked up is the first one with its address. -/
theorem lookup_spec {paddr : Nat} {blocks before before' after : List Block} {curr : Block}
    (found : lookup paddr before blocks = some (before', curr, after)) :
    before.reverse ++ blocks = before'.reverse ++ curr :: after ∧ curr.paddr = paddr ∧
      ((∀ block ∈ before, block.paddr ≠ paddr) → ∀ block ∈ before', block.paddr ≠ paddr) := by
  -- The induction follows the loop, which puts each block it passes before the others.
  induction blocks generalizing before with
  | nil => simp [lookup] at found
  | cons first rest ih =>
    simp only [lookup] at found
    split at found
    case isTrue here =>
      cases found
      exact ⟨rfl, here, fun others => others⟩
    case isFalse elsewhere =>
      obtain ⟨same, address, others⟩ := ih found
      refine ⟨by simpa using same, address, fun earlier => others ?_⟩
      intro block member
      rcases List.mem_cons.mp member with rfl | old
      · exact elsewhere
      · exact earlier block old

/-- A block with the address is found. -/
theorem lookup_isSome {paddr : Nat} {blocks before : List Block} {block : Block}
    (member : block ∈ blocks) (address : block.paddr = paddr) :
    ∃ before' curr after, lookup paddr before blocks = some (before', curr, after) := by
  -- The loop stops at the block at the latest.
  induction blocks generalizing before with
  | nil => cases member
  | cons first rest ih =>
    simp only [lookup]
    by_cases here : first.paddr = paddr
    · exact ⟨before, first, rest, by simp [here]⟩
    · rw [if_neg here]
      rcases List.mem_cons.mp member with rfl | later
      · exact absurd address here
      · exact ih later

section Merge

variable {table : BoTable} {before after : List Block} {curr next : Block}

/-- Joining two neighbours of one area does not wrap. -/
theorem grow_eq (layout : Layout table (before ++ curr :: next :: after))
    (area : next.handle = curr.handle) (touch : next.paddr = curr.paddr + curr.size) :
    curr.grow next = { curr with size := curr.size + next.size } := by
  obtain ⟨areaX, placedX⟩ := layout.placed curr (by simp)
  obtain ⟨areaY, placedY⟩ := layout.placed next (by simp)
  have same : areaY = areaX := Option.some.inj (placedY.found.symm.trans (area ▸ placedX.found))
  subst same
  have insideX := placedX.inside
  have insideY := placedY.inside
  have bounded := placedX.bounded
  simp only [Region.Inside, Block.region, BoInfo.region] at insideX insideY
  -- The two sizes add up to at most the size of the area.
  have small : (curr.size + next.size) % 2 ^ 32 = curr.size + next.size := by omega
  simp only [Block.grow, small]

/-- What two neighbours are to each other when the second one does not start an area. -/
theorem follows_inner (layout : Layout table (before ++ curr :: next :: after))
    (inner : next.isBo = false) : next.handle = curr.handle ∧
      next.paddr = curr.paddr + curr.size ∧ (curr.isBo → curr.idle = false) := by
  -- The two are linked in the chain of blocks.
  have link : curr.Follows next := (Splice.isChain_around.mp layout.chain).2.2.1 next rfl
  simpa [Block.Follows, inner] using link

/-- Merging to the front joins neighbours of one area, and ends at a block inside it. -/
theorem mergePrev_joins (layout : Layout table (before.reverse ++ curr :: after))
    (idle : curr.idle = true) (inner : curr.isBo = false) :
    Joins (before.reverse ++ curr :: after)
        ((mergePrev before curr).1.reverse ++ (mergePrev before curr).2 :: after) ∧
      (mergePrev before curr).2.idle = true ∧ (mergePrev before curr).2.isBo = false := by
  -- The induction is on the blocks before, which the loop swallows one after the other.
  induction before generalizing curr with
  | nil => exact ⟨.refl _, idle, inner⟩
  | cons prev before ih =>
    simp only [mergePrev]
    split
    case isFalse => exact ⟨.refl _, idle, inner⟩
    case isTrue free =>
      rw [List.reverse_cons, List.append_assoc] at layout ⊢
      obtain ⟨area, touch, start⟩ := follows_inner layout inner
      -- An idle block in front of one inside the area does not start the area.
      have inside : prev.isBo = false := by
        cases bo : prev.isBo with
        | false => rfl
        | true =>
          have used := start bo
          rw [free.1] at used
          cases used
      have joined := layout.join area inner touch
      rw [← grow_eq layout area touch] at joined
      obtain ⟨joins, idle', inner'⟩ := ih joined free.1 inside
      refine ⟨.join ⟨free.1, idle⟩ area inner touch ?_, idle', inner'⟩
      rw [← grow_eq layout area touch]
      exact joins

/-- Merging to the back joins neighbours of one area. -/
theorem mergeNext_joins (layout : Layout table (before ++ curr :: after))
    (idle : curr.idle = true) : Joins (before ++ curr :: after)
      (before ++ (mergeNext curr after).1 :: (mergeNext curr after).2) := by
  -- The induction is on the blocks behind, which the loop swallows one after the other.
  induction after generalizing curr with
  | nil => exact .refl _
  | cons next after ih =>
    simp only [mergeNext]
    split
    case isFalse => exact .refl _
    case isTrue free =>
      -- The start of an area behind another block is in use, so this is none.
      have inner : next.isBo = false := by
        have link : curr.Follows next := (Splice.isChain_around.mp layout.chain).2.2.1 next rfl
        cases bo : next.isBo with
        | false => rfl
        | true => simp [Block.Follows, bo, free] at link
      obtain ⟨area, touch, _⟩ := follows_inner layout inner
      have joined := layout.join area inner touch
      refine .join ⟨idle, free⟩ area inner touch ?_
      rw [← grow_eq layout area touch] at joined ⊢
      exact ih joined idle

/-- Merging to the back keeps whose block it is. -/
theorem mergeNext_fields (curr : Block) (after : List Block) :
    (mergeNext curr after).1.isBo = curr.isBo ∧ (mergeNext curr after).1.handle = curr.handle := by
  -- The loop only changes the size of the block it started from.
  induction after generalizing curr with
  | nil => exact ⟨rfl, rfl⟩
  | cons next after ih =>
    simp only [mergeNext]
    split
    · exact ih (curr.grow next)
    · exact ⟨rfl, rfl⟩

/-- The start of an area is not merged to the front. -/
theorem mergePrev_start (start : curr.isBo = true) : mergePrev before curr = (before, curr) := by
  -- The loop leaves at once for a block that carries the mark.
  cases before with
  | nil => rfl
  | cons prev before => simp [mergePrev, start]

end Merge

section Alloc

variable {pool after : Pool} {size : Nat} {answer : Option AreaAnswer}

/-- The loop of the allocation reaches the list head exactly if no idle block is large enough. -/
theorem takeIdle_eq_none {blocks : List Block} :
    takeIdle size blocks = none ↔ ∀ block ∈ blocks, block.idle = true → block.size < size := by
  -- The induction follows the loop, which stops at the first block that fits.
  induction blocks with
  | nil => simp [takeIdle]
  | cons curr rest ih =>
    simp only [takeIdle, List.forall_mem_cons]
    by_cases fits : curr.idle = true ∧ size ≤ curr.size
    · rw [if_pos fits]
      apply iff_of_false (by split <;> simp)
      intro small
      exact absurd fits.2 (Nat.not_le.mpr (small.1 fits.1))
    · rw [if_neg fits, Option.map_eq_none_iff, ih]
      refine (and_iff_right fun idle => ?_).symm
      exact Nat.not_le.mp fun large => fits ⟨idle, large⟩

/--
What an allocation does: it hands out an idle block, or nothing as the kernel refuses an area, or
the whole of a new area.
-/
theorem alloc_cases {done : Bool} (taken : pool.alloc size answer = some (done, after)) :
    pool.ctx.mutexLock = false ∧
    ((∃ used blocks, takeIdle (alignSize size) pool.ctx.boList = some (used, blocks) ∧ done = true ∧
        after = { pool with
          ctx := { pool.ctx with boList := blocks }
          outstanding := pool.outstanding ++ [used.toBo size] }) ∨
      (takeIdle (alignSize size) pool.ctx.boList = none ∧ done = false ∧ answer = none ∧
        after = pool) ∨
      (takeIdle (alignSize size) pool.ctx.boList = none ∧ done = true ∧ ∃ area table,
        answer = some area ∧
        pool.table.append pool.task.nr size area.dma area.handle = some table ∧
        after = { pool with
          table := table
          ctx := { pool.ctx with
            boList := pool.ctx.boList ++ [⟨size, false, true, area.handle, area.dma, area.vaddr⟩] }
          outstanding := pool.outstanding ++
            [⟨size, size, area.handle, area.dma, area.vaddr, area.vaddr⟩] })) := by
  obtain ⟨⟨maxMemSize, blocks, lock⟩, task, table, outstanding⟩ := pool
  simp only [Pool.alloc] at taken ⊢
  split at taken
  case isTrue => cases taken
  case isFalse unlocked =>
    obtain rfl : lock = false := by simpa using unlocked
    refine ⟨rfl, ?_⟩
    cases found : takeIdle (alignSize size) blocks with
    | some result =>
      obtain ⟨used, rest⟩ := result
      simp only [found] at taken
      cases taken
      exact .inl ⟨used, rest, rfl, rfl, rfl⟩
    | none =>
      simp only [found] at taken
      cases answer with
      | none =>
        cases taken
        exact .inr (.inl ⟨rfl, rfl, rfl, rfl⟩)
      | some area =>
        -- The kernel's answer has to fit its table.
        simp only [createBoNode] at taken
        cases appended : table.append task.nr size area.dma area.handle with
        | none => simp [appended] at taken
        | some grown =>
          simp only [appended, Bool.false_eq_true, if_false, useLast, List.getLast?_concat,
            List.dropLast_concat, Option.map_some] at taken
          cases taken
          exact .inr (.inr ⟨rfl, rfl, area, grown, rfl, appended, rfl⟩)

/-- A call that returns is an allocation that was answered, or the free of a buffer that is out. -/
theorem step_cases {a : PoolStep} (taken : step pool a = some after) :
    (∃ size answer done, a = .alloc size answer ∧ size < 2 ^ 32 ∧
      pool.alloc size answer = some (done, after)) ∨
    ∃ i bo, a = .free i ∧ pool.outstanding[i]? = some bo ∧ pool.freeBo i bo = some after := by
  cases a with
  | alloc size answer =>
    simp only [Pool.step, Option.ite_none_right_eq_some, Option.map_eq_some_iff] at taken
    obtain ⟨bounded, ⟨done, same⟩, given, rfl⟩ := taken
    exact .inl ⟨size, answer, done, rfl, bounded, given⟩
  | free i =>
    simp only [Pool.step] at taken
    cases given : pool.outstanding[i]? with
    | none => simp [given] at taken
    | some bo =>
      simp only [given] at taken
      exact .inr ⟨i, bo, rfl, given, taken⟩

end Alloc

/-- A new context has its first area, in which the shared buffer has been given out. -/
theorem ctxInit_opened {table : BoTable} {task : Task} {memSize : Nat} {answer : AreaAnswer}
    {shared : Option AreaAnswer} {pool : Pool}
    (initialised : ctxInit table task memSize answer shared = some pool) :
    1 < memSize ∧ memSize < 2 ^ 32 ∧ ∃ opened,
      createBoNode ⟨⟨memSize, [], false⟩, task, table, []⟩ memSize (some answer) =
        some (true, opened) ∧ opened.alloc 0x10 shared = some (true, pool) := by
  -- The two tests of the size come first, then the first area, then the shared buffer.
  simp only [ctxInit, Option.ite_none_right_eq_some] at initialised
  obtain ⟨⟨large, bounded⟩, initialised⟩ := initialised
  split at initialised
  case h_2 => cases initialised
  case h_1 opened created =>
    split at initialised
    case h_2 => cases initialised
    case h_1 given allocated =>
      cases initialised
      exact ⟨large, bounded, opened, created, allocated⟩

end Pool

end Aip
