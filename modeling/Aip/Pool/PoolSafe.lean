import Aip.Lib.Runs
import Aip.Lib.Slots
import Aip.Pool.Layout

/-! Blocks and buffers of a pool never share memory, over whole runs that spare the first blocks. -/

namespace Aip.Pool

/-- What a pool promises in every state. -/
structure Safe (pool : Pool) : Prop where
  inside : ∀ block ∈ pool.ctx.boList, ∃ area,
    pool.table.handles.find block.handle = some area ∧ block.region.Inside area.region
  apart : pool.ctx.boList.Pairwise fun x y => x.region.Apart y.region
  live : ∀ bo ∈ pool.outstanding, ∃ area,
    pool.table.handles.find bo.handle = some area ∧ bo.region.Inside area.region
  disjoint : pool.outstanding.Pairwise fun x y => x.region.Apart y.region

/-- A free makes one block idle and joins neighbours of one area only. -/
def OnlyJoins (pool : Pool) : PoolStep → Pool → Prop
  | .free _, after => ∃ before curr rest, pool.ctx.boList = before ++ curr :: rest ∧
      Joins (before ++ { curr with idle := true } :: rest) after.ctx.boList
  | .alloc _ _, _ => True

/-- A free is given no buffer whose block is the first one of a kernel area. -/
def KeepsAreas (pool : Pool) : PoolStep → Prop
  | .free i => ∀ bo block, pool.outstanding[i]? = some bo →
      pool.ctx.boList.find? (fun curr => curr.paddr = bo.paddr) = some block → block.isBo = false
  | .alloc _ _ => True

/--
The buffers handed out have blocks in use, in live areas.

A block without bytes may share its address with the next one, so blocks are counted by address.
-/
structure Owned (table : BoTable) (blocks : List Block) (outstanding : List Bo) : Prop where
  held : ∀ paddr, outstanding.countP (fun bo => bo.paddr = paddr)
    ≤ (busy blocks).countP fun block => block.paddr = paddr
  covers : ∀ bo ∈ outstanding, ∃ block ∈ busy blocks,
    block.paddr = bo.paddr ∧ bo.esize ≤ block.size
  live : ∀ bo ∈ outstanding, ∃ area,
    table.handles.find bo.handle = some area ∧ bo.region.Inside area.region
  disjoint : outstanding.Pairwise fun x y => x.region.Apart y.region

/-- What the calls keep as long as no area is destroyed. -/
structure Kept (pool : Pool) : Prop where
  unlocked : pool.ctx.mutexLock = false
  layout : Layout pool.table pool.ctx.boList
  owned : Owned pool.table pool.ctx.boList pool.outstanding

/-- The invariant has everything that the pool promises. -/
theorem Kept.safe {pool : Pool} (kept : Kept pool) : Safe pool := by
  -- A placed block is inside the area of its handle.
  refine ⟨fun block member => ?_, kept.layout.apart, kept.owned.live, kept.owned.disjoint⟩
  obtain ⟨area, placed⟩ := kept.layout.placed block member
  exact ⟨area, placed.found, placed.inside⟩

/-- A block in use is one of the blocks. -/
theorem mem_busy {blocks : List Block} {block : Block} :
    block ∈ busy blocks ↔ block ∈ blocks ∧ block.idle = false := by
  simp [busy]

namespace Owned

variable {table grown : BoTable} {blocks before after : List Block} {curr : Block}
  {outstanding : List Bo}

/-- Only the blocks in use matter. -/
theorem of_busy {joined : List Block} (owned : Owned table blocks outstanding)
    (same : busy joined = busy blocks) : Owned table joined outstanding := by
  -- Both clauses about blocks speak of the blocks in use.
  refine ⟨fun paddr => ?_, fun bo member => ?_, owned.live, owned.disjoint⟩
  · rw [same]
    exact owned.held paddr
  · rw [same]
    exact owned.covers bo member

/-- A block that was idle or is new is handed out. -/
theorem give (owned : Owned table blocks outstanding) (layout : Layout grown (before ++ curr :: after))
    (used : curr.idle = false) (same : busy blocks = busy before ++ busy after)
    (finds : ∀ handle area, table.handles.find handle = some area →
      grown.handles.find handle = some area) (size : Nat) :
    Owned grown (before ++ curr :: after) (outstanding ++ [curr.toBo size]) := by
  -- The block given out is new among those in use.
  have together : busy (before ++ curr :: after) = busy before ++ curr :: busy after := by
    simp [used]
  obtain ⟨_, left, right, _⟩ := Splice.pairwise_around.mp layout.apart
  refine ⟨fun paddr => ?_, fun bo member => ?_, fun bo member => ?_, ?_⟩
  · have held := owned.held paddr
    rw [same, List.countP_append] at held
    simp only [together, List.countP_append, List.countP_cons, List.countP_nil, Block.toBo]
    omega
  · rw [together]
    rcases List.mem_append.mp member with old | new
    · obtain ⟨block, listed, covered⟩ := owned.covers bo old
      rw [same] at listed
      refine ⟨block, ?_, covered⟩
      rcases List.mem_append.mp listed with early | late
      · exact List.mem_append_left _ early
      · exact List.mem_append_right _ (List.mem_cons_of_mem _ late)
    · rw [List.mem_singleton.mp new]
      exact ⟨curr, by simp, rfl, Nat.le_refl _⟩
  · rcases List.mem_append.mp member with old | new
    · obtain ⟨area, found, inside⟩ := owned.live bo old
      exact ⟨area, finds _ _ found, inside⟩
    · rw [List.mem_singleton.mp new]
      obtain ⟨area, placed⟩ := layout.placed curr (by simp)
      exact ⟨area, placed.found, placed.inside⟩
  · refine List.pairwise_append.mpr ⟨owned.disjoint, List.pairwise_singleton _ _, ?_⟩
    intro bo member new listed
    rw [List.mem_singleton.mp listed]
    -- The block of the earlier buffer is another one, and blocks are apart.
    obtain ⟨block, inUse, address, size⟩ := owned.covers bo member
    have apart : block.region.Apart curr.region := by
      rw [same] at inUse
      rcases List.mem_append.mp inUse with early | late
      · exact left block (mem_busy.mp early).1
      · exact (right block (mem_busy.mp late).1).symm
    exact apart.shrink address.symm size

/-- The first block with the address of an outstanding buffer becomes idle, and the buffer is gone. -/
theorem take (owned : Owned table (before ++ curr :: after) outstanding)
    (layout : Layout table (before ++ curr :: after)) {i : Nat} {bo : Bo}
    (found : outstanding[i]? = some bo) (here : curr.paddr = bo.paddr)
    (first : ∀ block ∈ before, block.paddr ≠ bo.paddr) :
    Owned table (before ++ { curr with idle := true } :: after) (outstanding.eraseIdx i) := by
  have left : busy (before ++ { curr with idle := true } :: after) = busy before ++ busy after := by
    simp
  have count (paddr : Nat) := Slots.countP_eraseIdx (fun bo => decide (bo.paddr = paddr)) found
  -- At each address as many blocks are in use as before, but one less at that of the buffer.
  have most (paddr : Nat) : (busy (before ++ curr :: after)).countP (fun block => block.paddr = paddr)
      ≤ (busy before ++ busy after).countP (fun block => block.paddr = paddr)
        + (if bo.paddr = paddr then 1 else 0) := by
    rw [busy_append, busy_cons]
    split
    · omega
    · simp only [List.countP_append, List.countP_cons, here, decide_eq_true_eq]
      omega
  refine ⟨fun paddr => ?_, fun other member => ?_, ?_, ?_⟩
  · have held := owned.held paddr
    have some := most paddr
    rw [count paddr] at held
    rw [left]
    simp only [decide_eq_true_eq] at held
    omega
  · rw [left]
    obtain ⟨block, inUse, address, size⟩ :=
      owned.covers other (List.mem_of_mem_eraseIdx member)
    rw [busy_append, busy_cons] at inUse
    by_cases elsewhere : block ∈ busy before ++ busy after
    · exact ⟨block, elsewhere, address, size⟩
    · -- The other buffer relied on this very block, so it starts where the freed one does.
      have same : block = curr := by
        split at inUse
        · exact absurd inUse elsewhere
        · simp only [List.mem_append, List.mem_cons] at inUse elsewhere
          tauto
      subst same
      have both : 0 < (outstanding.eraseIdx i).countP fun b => decide (b.paddr = bo.paddr) :=
        List.countP_pos_iff.mpr ⟨other, member, by simp [← address, here]⟩
      have held := owned.held bo.paddr
      have some := most bo.paddr
      rw [count bo.paddr] at held
      simp only [decide_true, if_true] at held some
      -- Two buffers start there, so a second block in use does, and it is a later one.
      have second : 0 < (busy before ++ busy after).countP fun b => b.paddr = bo.paddr := by omega
      obtain ⟨later, listed, start⟩ := List.countP_pos_iff.mp second
      have start' : later.paddr = bo.paddr := by simpa using start
      have behind : later ∈ after := by
        rcases List.mem_append.mp listed with early | late
        · exact absurd start' (first later (mem_busy.mp early).1)
        · exact (mem_busy.mp late).1
      -- The first of two blocks at one address has no bytes.
      have area := layout.area_eq (x := block) (y := later) (by simp) (by simp [behind])
        (here.trans start'.symm)
      have ordered := (Splice.pairwise_around.mp layout.order).2.2.1 later behind area
      exact ⟨later, listed, by rw [start', ← here, address], by omega⟩
  · exact fun other member => owned.live other (List.mem_of_mem_eraseIdx member)
  · exact owned.disjoint.sublist (List.eraseIdx_sublist _ _)

end Owned

/-- A new area is appended as an idle block, in the table and at the end of the list. -/
theorem createBoNode_spec {pool grown : Pool} {size : Nat} {answer : Option AreaAnswer}
    (created : createBoNode pool size answer = some (true, grown)) :
    ∃ area : AreaAnswer, pool.table.append pool.task.nr size area.dma area.handle = some grown.table ∧
      grown.outstanding = pool.outstanding ∧ grown.ctx.mutexLock = pool.ctx.mutexLock ∧
      grown.ctx.boList = pool.ctx.boList ++ [⟨size, true, true, area.handle, area.dma, area.vaddr⟩] := by
  -- An answer is given, it fits the table, and the mutex is free.
  cases answer with
  | none => simp [createBoNode] at created
  | some area =>
    simp only [createBoNode] at created
    split at created
    · cases created
    case h_2 table appended =>
      split at created
      · cases created
      · cases created
        exact ⟨area, appended, rfl, rfl, rfl⟩

/-- An allocation hands out a block of its own, in a live area. -/
theorem Kept.alloc {pool after : Pool} {size : Nat} {answer : Option AreaAnswer} {ok : Bool}
    (kept : Kept pool) (bounded : size < 2 ^ 32)
    (taken : pool.alloc size answer = some (ok, after)) : Kept after := by
  obtain ⟨unlocked, ⟨used, list, found, -, rfl⟩ | ⟨-, -, -, rfl⟩ | ⟨-, -, area, table, -, appended, rfl⟩⟩ :=
    alloc_cases taken
  · -- A block of the list is handed out, as a whole or in part.
    obtain ⟨before, curr, next, blocks, idle, cases⟩ := takeIdle_spec found
    have layout := kept.layout
    have owned := kept.owned
    rw [blocks] at layout owned
    have free : busy (before ++ curr :: next) = busy before ++ busy next := by simp [idle]
    rcases cases with ⟨rfl, rfl⟩ | ⟨fits, rfl, rfl⟩
    · have whole := layout.setIdle false (by simp)
      exact ⟨unlocked, whole, owned.give whole rfl free (fun _ _ found => found) size⟩
    · have parts := layout.split fits
      refine ⟨unlocked, parts, owned.give parts rfl ?_ (fun _ _ found => found) size⟩
      rw [free, busy_cons]
      simp [Block.rest]
  · exact kept
  · -- A new area is handed out as a whole.
    have layout : Layout table
        (pool.ctx.boList ++ [⟨size, false, true, area.handle, area.dma, area.vaddr⟩]) :=
      kept.layout.append bounded appended area.vaddr (by simp)
    refine ⟨unlocked, layout, ?_⟩
    refine kept.owned.give layout rfl (by simp [busy]) (fun handle old found => ?_) size
    exact Idr.find_alloc (BoTable.append_spec appended).2.1 found

/-- What `iaic_fast_free_bo` does with the block that it finds. -/
theorem freeBo_eq {pool : Pool} {i : Nat} {bo : Bo} {before after : List Block} {curr : Block}
    (handle : bo.handle ≠ 0) (unlocked : pool.ctx.mutexLock = false)
    (found : lookup bo.paddr [] pool.ctx.boList = some (before, curr, after)) :
    let merged := mergePrev before { curr with idle := true }
    let joined := mergeNext merged.2 after
    pool.freeBo i bo = some { pool with
      ctx := { pool.ctx with boList := merged.1.reverse ++ joined.1 :: joined.2, mutexLock := false }
      outstanding := pool.outstanding.eraseIdx i
      table := if joined.1.isBo then pool.table.destroy joined.1.handle else pool.table } := by
  -- The branches before are those without a handle, without the mutex and without a block.
  simp [freeBo, handle, unlocked, found]

/-- The block that the loop of the free looks up. -/
theorem find?_of_lookup {paddr : Nat} {blocks before before' after : List Block} {curr : Block}
    (found : lookup paddr before blocks = some (before', curr, after)) :
    blocks.find? (fun block => block.paddr = paddr) = some curr := by
  -- Both searches pass the same blocks.
  induction blocks generalizing before with
  | nil => simp [lookup] at found
  | cons first rest ih =>
    simp only [lookup] at found
    split at found
    case isTrue here =>
      cases found
      simp [here]
    case isFalse elsewhere => simpa [elsewhere] using ih found

/-- A free of an outstanding buffer finds the block to free. -/
theorem Kept.lookup {pool : Pool} {i : Nat} {bo : Bo} (kept : Kept pool)
    (given : pool.outstanding[i]? = some bo) : bo.handle ≠ 0 ∧
      ∃ before curr after, Pool.lookup bo.paddr [] pool.ctx.boList = some (before, curr, after) := by
  -- The buffer has a live handle and a block in use at its address.
  have member := List.mem_of_getElem? given
  obtain ⟨area, found, _⟩ := kept.owned.live bo member
  obtain ⟨block, inUse, address, _⟩ := kept.owned.covers bo member
  exact ⟨Nat.pos_iff_ne_zero.mp (Idr.pos_of_find found),
    lookup_isSome (mem_busy.mp inUse).1 address⟩

/-- A free of a buffer inside an area joins blocks of that area, and destroys nothing. -/
theorem Kept.freeBo {pool after : Pool} {i : Nat} {bo : Bo} (kept : Kept pool)
    (given : pool.outstanding[i]? = some bo) (keeps : KeepsAreas pool (.free i))
    (taken : pool.freeBo i bo = some after) : Kept after ∧ OnlyJoins pool (.free i) after := by
  obtain ⟨handle, before, curr, rest, found⟩ := kept.lookup given
  rw [freeBo_eq handle kept.unlocked found] at taken
  cases taken
  obtain ⟨blocks, address, others⟩ := lookup_spec found
  have first : ∀ block ∈ before, block.paddr ≠ bo.paddr := others (by simp)
  have inner : curr.isBo = false := keeps bo curr given (find?_of_lookup found)
  simp only [List.reverse_nil, List.nil_append] at blocks
  have layout := kept.layout
  have owned := kept.owned
  rw [blocks] at layout owned
  -- First the block becomes idle, then it is joined to the front, then to the back.
  have idle := layout.setIdle true fun _ => inner
  have fewer := owned.take layout given address fun block member =>
    first block (List.mem_reverse.mp member)
  obtain ⟨front, free, inner'⟩ := mergePrev_joins idle rfl inner
  have back := mergeNext_joins (front.layout idle) free
  have joins := front.trans back
  have spared := (mergeNext_fields (mergePrev before { curr with idle := true }).2 rest).1.trans inner'
  refine ⟨⟨rfl, ?_, ?_⟩, before.reverse, curr, rest, blocks, joins⟩
  · simp only [spared]
    exact joins.layout idle
  · simp only [spared]
    exact fewer.of_busy joins.busy

/-- A free of the first block of an area leaves that block on the list of a destroyed area. -/
theorem not_safe_of_start {pool after : Pool} {i : Nat} {bo : Bo} {block : Block} (kept : Kept pool)
    (given : pool.outstanding[i]? = some bo)
    (first : pool.ctx.boList.find? (fun curr => curr.paddr = bo.paddr) = some block)
    (start : block.isBo = true) (taken : pool.freeBo i bo = some after) : ¬ Safe after := by
  obtain ⟨handle, before, curr, rest, found⟩ := kept.lookup given
  have same : curr = block := Option.some.inj ((find?_of_lookup found).symm.trans first)
  subst same
  have startsArea : ({ curr with idle := true } : Block).isBo = true := start
  rw [freeBo_eq handle kept.unlocked found, mergePrev_start startsArea] at taken
  cases taken
  intro safe
  have destroyed : (mergeNext { curr with idle := true } rest).1.isBo = true :=
    (mergeNext_fields { curr with idle := true } rest).1.trans start
  -- The block that was merged is on the list, and its handle stands for nothing any more.
  obtain ⟨area, live, _⟩ := safe.inside (mergeNext { curr with idle := true } rest).1 (by simp)
  dsimp only at live
  rw [if_pos destroyed] at live
  have kept := (Idr.find_removeIf.mp live).2
  simp at kept

/-- From a state that is kept, exactly the calls that spare the first blocks are safe. -/
theorem Kept.step {pool after : Pool} {a : PoolStep} (kept : Kept pool)
    (taken : step pool a = some after) : (KeepsAreas pool a → Kept after ∧ OnlyJoins pool a after) ∧
      (Safe after → KeepsAreas pool a) := by
  -- Allocations are always safe, and a free is as the block it finds.
  rcases step_cases taken with
    ⟨size, answer, done, rfl, bounded, given⟩ | ⟨i, bo, rfl, given, freed⟩
  · exact ⟨fun _ => ⟨kept.alloc bounded given, trivial⟩, fun _ => trivial⟩
  · refine ⟨fun keeps => kept.freeBo given keeps freed, fun safe bo' block given' first => ?_⟩
    rw [given] at given'
    cases given'
    cases start : block.isBo with
    | false => rfl
    | true => exact absurd safe (not_safe_of_start kept given first start freed)

/-- A new context is kept. -/
theorem Kept.init {table : BoTable} {task : Task} {memSize : Nat} {answer : AreaAnswer}
    {shared : Option AreaAnswer} {pool : Pool}
    (initialised : ctxInit table task memSize answer shared = some pool) : Kept pool := by
  obtain ⟨_, bounded, opened, created, allocated⟩ := ctxInit_opened initialised
  obtain ⟨area, appended, outstanding, unlocked, blocks⟩ := createBoNode_spec created
  -- The first area is one idle block, and no buffer is out.
  have layout : Layout opened.table opened.ctx.boList := by
    rw [blocks]
    exact Layout.nil.append bounded appended area.vaddr fun _ => rfl
  have kept : Kept opened := by
    refine ⟨unlocked, layout, ?_⟩
    rw [outstanding]
    exact ⟨by simp, by simp, by simp, .nil⟩
  exact kept.alloc (by decide) allocated

/--
In every run from a new context the blocks lie apart in live areas, the outstanding buffers do, and
frees join neighbours of one area only, exactly as long as no free is given a buffer whose block is
the first one of its area.
-/
theorem poolSafe_iff {table : BoTable} {task : Task} {memSize : Nat} {answer : AreaAnswer}
    {shared : Option AreaAnswer} {pool : Pool}
    (initialised : ctxInit table task memSize answer shared = some pool) (run : List PoolStep) :
    (Runs.Always step Safe pool run ∧ Runs.Each step OnlyJoins pool run)
      ↔ Runs.Each step (fun s a _ => KeepsAreas s a) pool run := by
  -- The invariant holds at the start, and each step that violates the condition is harmful.
  apply Runs.safe_iff (I := Kept) fun s kept => kept.safe
  · intro s a t kept taken keeps
    exact (kept.step taken).1 keeps
  · intro s a t kept taken safe _
    exact (kept.step taken).2 safe
  · exact Kept.init initialised

/-- A new context of one page. -/
def onePage : Option Pool := ctxInit .init ⟨1, 1⟩ 4096 ⟨0, 1, 4096⟩ none

/-- A second buffer of the first area is freed after a third one has made the pool grow. -/
def sparedRun : List PoolStep :=
  [.alloc 64 none, .alloc 8192 (some ⟨4096, 2, 8192⟩), .free 1]

/-- The run is safe, for the shared buffer keeps the first block in use. -/
theorem poolSafe_iff_spared : ∃ pool, onePage = some pool ∧
    Runs.Always step Safe pool sparedRun ∧ Runs.Each step OnlyJoins pool sparedRun := by
  obtain ⟨pool, initialised⟩ : ∃ pool, onePage = some pool := ⟨_, rfl⟩
  refine ⟨pool, initialised, (poolSafe_iff initialised sparedRun).mpr ?_⟩
  refine fun t first => ⟨trivial, fun u second => ⟨trivial, fun v third => ⟨?_, trivial⟩⟩⟩
  intro bo block given found
  -- Before the free the second buffer starts at 64, where a block inside the area lies.
  have state : (onePage.bind fun pool => Runs.exec step pool sparedRun.dropLast).map
      (fun u => (u.outstanding.map Bo.paddr, u.ctx.boList.map fun b => (b.paddr, b.isBo)))
      = some ([0, 64, 4096], [(0, true), (64, false), (128, false), (4096, true)]) := rfl
  have reached : Runs.exec step pool sparedRun.dropLast = some u :=
    Runs.exec_cons.mpr ⟨t, first, Runs.exec_cons.mpr ⟨u, second, rfl⟩⟩
  simp only [initialised, Option.bind_some, reached, Option.map_some, Option.some.injEq,
    Prod.mk.injEq] at state
  have start : bo.paddr = 64 := by
    have listed := congrArg (fun starts => starts[1]?) state.1
    simpa [given] using listed
  have address : block.paddr = 64 := by
    have here := List.find?_some found
    simpa [start] using here
  have member := List.mem_map_of_mem (f := fun b : Block => (b.paddr, b.isBo))
    (List.mem_of_find?_eq_some found)
  rw [state.2, address] at member
  simpa using member

/-- A buffer that makes the pool grow is freed, and its size is asked for again. -/
def grownRun : List PoolStep :=
  [.alloc 8192 (some ⟨4096, 2, 8192⟩), .free 1, .alloc 8192 none]

/-- The block of the destroyed area stays on the list and is handed out again. -/
theorem poolSafe_grown : ∃ pool, onePage = some pool ∧ ¬ Runs.Always step Safe pool grownRun := by
  obtain ⟨pool, initialised⟩ : ∃ pool, onePage = some pool := ⟨_, rfl⟩
  refine ⟨pool, initialised, fun always => ?_⟩
  have state : (onePage.bind fun pool => Runs.exec step pool grownRun).map
      (fun t => (t.outstanding.map Bo.handle, t.table.handles.find 2)) = some ([1, 2], none) := rfl
  rw [initialised, Option.bind_some] at state
  obtain ⟨final, reached, facts⟩ := Option.map_eq_some_iff.mp state
  simp only [Prod.mk.injEq] at facts
  -- The last buffer has a handle that stands for nothing.
  have member : 2 ∈ final.outstanding.map Bo.handle := by simp [facts.1]
  obtain ⟨bo, listed, handle⟩ := List.mem_map.mp member
  obtain ⟨area, found, _⟩ := (always.last reached).live bo listed
  rw [handle, facts.2] at found
  cases found

end Aip.Pool
