import Aip.Pool.PoolSafe

/-! Each buffer has a block of its own that its free alone makes idle, unless blocks have no bytes. -/

namespace Aip

/-- What a block and the buffer that was filled in from it have in common. -/
structure Stretch where
  size : Nat
  handle : Nat
  paddr : Nat
  vaddr : Nat
  deriving DecidableEq, Repr

/-- The memory of a block as the caller gets to know it. -/
def Block.stretch (block : Block) : Stretch :=
  { size := block.size, handle := block.handle, paddr := block.paddr, vaddr := block.vaddr }

/-- The memory of a buffer, as it was handed out. -/
def Bo.stretch (bo : Bo) : Stretch :=
  { size := bo.esize, handle := bo.handle, paddr := bo.paddr, vaddr := bo.vaddr }

namespace Pool

/-- Each buffer has a block in use of its own, all blocks start at different addresses, frees return. -/
structure Owns (pool : Pool) : Prop where
  distinct : (pool.ctx.boList.map Block.paddr).Nodup
  own : ((busy pool.ctx.boList).map Block.stretch).Perm (pool.outstanding.map Bo.stretch)
  frees : ∀ i < pool.outstanding.length, ∃ after, step pool (.free i) = some after

/-- A free makes idle the block that the buffer was filled in from, and no other block in use. -/
def FreesOwn (pool : Pool) : PoolStep → Pool → Prop
  | .free i, after => ∃ bo before curr rest, pool.outstanding[i]? = some bo ∧
      pool.ctx.boList = before ++ curr :: rest ∧ curr.idle = false ∧ curr.stretch = bo.stretch ∧
      busy after.ctx.boList = busy before ++ busy rest ∧
      after.outstanding = pool.outstanding.eraseIdx i
  | .alloc _ _, _ => True

/-- No block is split at size zero: a size that rounds to zero meets a block that is given as a whole. -/
def SplitsBytes (pool : Pool) : PoolStep → Prop
  | .alloc size _ => alignSize size = 0 → ∀ block,
      pool.ctx.boList.find? (fun curr => curr.idle) = some block → block.size < 0x200
  | .free _ => True

/-- What the calls keep as long as no area is destroyed and no block is split at size zero. -/
structure Solid (pool : Pool) : Prop extends Kept pool where
  bytes : ∀ block ∈ pool.ctx.boList, 0 < block.size
  own : ((busy pool.ctx.boList).map Block.stretch).Perm (pool.outstanding.map Bo.stretch)

variable {pool after : Pool} {blocks before rest : List Block} {curr : Block} {i size : Nat} {bo : Bo}

/-- Blocks with bytes that share none start at different addresses. -/
theorem Solid.distinct (solid : Solid pool) : (pool.ctx.boList.map Block.paddr).Nodup := by
  rw [List.nodup_iff_pairwise_ne, List.pairwise_map]
  apply solid.layout.apart.imp_of_mem
  intro x y here there apart same
  have first := solid.bytes x here
  have second := solid.bytes y there
  simp only [Region.Apart, Block.region] at apart
  omega

/-- In a solid pool every outstanding buffer can be freed. -/
theorem Solid.frees (solid : Solid pool) (listed : i < pool.outstanding.length) :
    ∃ after, step pool (.free i) = some after := by
  have given := List.getElem?_eq_getElem listed
  obtain ⟨handle, before, curr, rest, found⟩ := solid.toKept.lookup given
  simp only [step, given]
  exact ⟨_, freeBo_eq handle solid.unlocked found⟩

/-- The invariant has everything that is promised of a state. -/
theorem Solid.owns (solid : Solid pool) : Owns pool :=
  ⟨solid.distinct, solid.own, fun _ listed => solid.frees listed⟩

/-- The block handed out leaves bytes to both parts when it is split. -/
theorem takeIdle_bytes {rest : List Block} {used : Block} (bytes : ∀ block ∈ blocks, 0 < block.size)
    (splits : size = 0 → ∀ block, blocks.find? (fun curr => curr.idle) = some block →
      block.size < 0x200)
    (taken : takeIdle size blocks = some (used, rest)) : ∀ block ∈ rest, 0 < block.size := by
  -- The induction follows the loop past the blocks that it skips.
  induction blocks generalizing rest with
  | nil => simp [takeIdle] at taken
  | cons first others ih =>
    have positive := bytes first List.mem_cons_self
    have behind : ∀ block ∈ others, 0 < block.size := fun block member =>
      bytes block (List.mem_cons_of_mem _ member)
    simp only [takeIdle] at taken
    split at taken
    case isTrue fits =>
      split at taken
      · cases taken
        intro block member
        rcases List.mem_cons.mp member with rfl | later
        · exact positive
        · exact behind block later
      · rename_i long
        cases taken
        -- The size is not zero, for a block of this length would be split at zero.
        have some : 0 < size := by
          by_contra none
          have zero : size = 0 := by omega
          have short := splits zero first (by simp [fits.1])
          omega
        intro block member
        rcases List.mem_cons.mp member with rfl | later
        · exact some
        · rcases List.mem_cons.mp later with rfl | last
          · show 0 < first.size - size
            omega
          · exact behind block last
    case isFalse skipped =>
      obtain ⟨⟨other, tail⟩, found, same⟩ := Option.map_eq_some_iff.mp taken
      cases same
      refine List.forall_mem_cons.mpr ⟨positive, ih behind ?_ found⟩
      intro zero block idle
      -- A block passed over at size zero is in use, so the first idle one is behind it.
      have used : first.idle = false := by
        by_contra free
        exact skipped ⟨by simpa using free, by omega⟩
      exact splits zero block (by simpa [used] using idle)

/-- Joining blocks with bytes gives blocks with bytes. -/
theorem bytes_of_joins {joined : List Block} (joins : Joins blocks joined)
    (bytes : ∀ block ∈ blocks, 0 < block.size) : ∀ block ∈ joined, 0 < block.size := by
  -- The induction is on the joins; a joined block has the bytes of both.
  induction joins with
  | refl blocks => exact bytes
  | @join before behind joined x y idle area inner touch _ ih =>
    apply ih
    intro block member
    rcases List.mem_append.mp member with early | late
    · exact bytes block (List.mem_append_left _ early)
    · rcases List.mem_cons.mp late with rfl | later
      · have some := bytes x (by simp)
        show 0 < x.size + y.size
        omega
      · exact bytes block
          (List.mem_append_right _ (List.mem_cons_of_mem _ (List.mem_cons_of_mem _ later)))

/-- The block that a free of a buffer finds is the one that the buffer was filled in from. -/
theorem Solid.finds (solid : Solid pool) (given : pool.outstanding[i]? = some bo)
    (shape : pool.ctx.boList = before ++ curr :: rest) (here : curr.paddr = bo.paddr) :
    curr.idle = false ∧ curr.stretch = bo.stretch := by
  -- Some block in use has the memory of the buffer, and only one block starts there.
  have member : bo.stretch ∈ (busy pool.ctx.boList).map Block.stretch :=
    solid.own.mem_iff.mpr (List.mem_map_of_mem (List.mem_of_getElem? given))
  obtain ⟨block, inUse, same⟩ := List.mem_map.mp member
  obtain ⟨listed, used⟩ := mem_busy.mp inUse
  have start : block.paddr = curr.paddr := (congrArg Stretch.paddr same).trans here.symm
  have found : curr ∈ pool.ctx.boList := by simp [shape]
  have one : block = curr := List.inj_on_of_nodup_map solid.distinct listed found start
  subst one
  exact ⟨used, same⟩

/-- An allocation gives the new buffer a block of its own. -/
theorem Solid.alloc {answer : Option AreaAnswer} {ok : Bool} (solid : Solid pool)
    (bounded : size < 2 ^ 32) (splits : SplitsBytes pool (.alloc size answer))
    (taken : pool.alloc size answer = some (ok, after)) : Solid after := by
  have kept := solid.toKept.alloc bounded taken
  obtain ⟨_, ⟨used, list, found, -, rfl⟩ | ⟨-, -, -, rfl⟩ | ⟨-, -, area, table, -, appended, rfl⟩⟩ :=
    alloc_cases taken
  · refine { kept with bytes := takeIdle_bytes solid.bytes splits found, own := ?_ }
    obtain ⟨before, curr, next, shape, idle, cases⟩ := takeIdle_spec found
    -- The block given out is new among those in use, wherever it stands.
    have own := solid.own
    rw [shape] at own
    have busyBefore : busy (before ++ curr :: next) = busy before ++ busy next := by simp [idle]
    rw [busyBefore] at own
    have inUse : busy list = busy before ++ used :: busy next := by
      rcases cases with ⟨rfl, rfl⟩ | ⟨_, rfl, rfl⟩
      · simp
      · simp [Block.rest]
    rw [inUse, List.map_append, List.map_cons, List.map_append, List.map_singleton]
    refine List.perm_middle.trans ((List.Perm.cons _ ?_).trans (List.perm_append_singleton _ _).symm)
    rwa [List.map_append] at own
  · exact solid
  · -- The kernel gives out no area without bytes.
    have positive : 0 < size := by
      have nonempty : 0 < BoTable.roundUp size := (BoTable.append_spec appended).1.1
      by_contra none
      have zero : size = 0 := by omega
      rw [zero] at nonempty
      exact absurd nonempty (by decide)
    refine { kept with bytes := ?_, own := ?_ }
    · intro block member
      rcases List.mem_append.mp member with old | new
      · exact solid.bytes block old
      · rw [List.mem_singleton.mp new]
        exact positive
    · simp only [busy_append, List.map_append]
      exact solid.own.append (List.Perm.refl _)

/-- A free inside an area makes idle the block of its buffer alone. -/
theorem Solid.freeBo (solid : Solid pool) (given : pool.outstanding[i]? = some bo)
    (keeps : KeepsAreas pool (.free i)) (taken : pool.freeBo i bo = some after) :
    Solid after ∧ FreesOwn pool (.free i) after := by
  obtain ⟨kept, _⟩ := solid.toKept.freeBo given keeps taken
  obtain ⟨handle, before, curr, rest, found⟩ := solid.toKept.lookup given
  rw [freeBo_eq handle solid.unlocked found] at taken
  cases taken
  obtain ⟨shape, here, _⟩ := lookup_spec found
  simp only [List.reverse_nil, List.nil_append] at shape
  obtain ⟨used, same⟩ := solid.finds given shape here
  have inner : curr.isBo = false := keeps bo curr given (find?_of_lookup found)
  have layout := solid.layout
  rw [shape] at layout
  -- What the loops join was idle before, and the block of the buffer with it.
  have idle := layout.setIdle true fun _ => inner
  obtain ⟨front, free, inner'⟩ := mergePrev_joins idle rfl inner
  have joins := front.trans (mergeNext_joins (front.layout idle) free)
  have left := joins.busy
  simp only [busy_append, busy_cons, if_true] at left
  refine ⟨{ kept with bytes := ?_, own := ?_ }, bo, before.reverse, curr, rest, given, shape, used,
    same, ?_, rfl⟩
  · apply bytes_of_joins joins
    intro block member
    have bytes := solid.bytes
    rw [shape] at bytes
    rcases List.mem_append.mp member with early | late
    · exact bytes block (List.mem_append_left _ early)
    · rcases List.mem_cons.mp late with rfl | later
      · exact bytes curr (by simp)
      · exact bytes block (List.mem_append_right _ (List.mem_cons_of_mem _ later))
  · -- The block and its buffer leave the two lists together.
    have own := solid.own
    have counted : (bo :: pool.outstanding.eraseIdx i).Perm pool.outstanding := by
      obtain ⟨within, here⟩ := List.getElem?_eq_some_iff.mp given
      rw [← here]
      exact List.getElem_cons_eraseIdx_perm within
    rw [shape, busy_append, busy_cons, used, if_neg Bool.false_ne_true, List.map_append,
      List.map_cons, same] at own
    have both := (List.perm_middle.symm.trans own).trans (counted.map Bo.stretch).symm
    rw [← List.map_append] at both
    rw [busy_append, busy_cons]
    simpa [left] using both.cons_inv
  · simpa using left

/-- A call that keeps the areas and splits no block at size zero keeps a pool solid. -/
theorem Solid.step {a : PoolStep} (solid : Solid pool) (keeps : KeepsAreas pool a)
    (splits : SplitsBytes pool a) (taken : step pool a = some after) :
    Solid after ∧ FreesOwn pool a after := by
  -- Allocations may not split at size zero, and frees may not give an area back.
  rcases step_cases taken with
    ⟨size, answer, done, rfl, bounded, given⟩ | ⟨i, bo, rfl, given, freed⟩
  · exact ⟨solid.alloc bounded splits given, trivial⟩
  · exact solid.freeBo given keeps freed

/-- A context whose first area has been taken from the kernel is solid. -/
theorem Solid.opened {ctx : Ctx} {task : Task} {table : BoTable} {memSize : Nat}
    {answer : Option AreaAnswer} (unlocked : ctx.mutexLock = false) (none : ctx.boList = [])
    (positive : 0 < memSize) (bounded : memSize < 2 ^ 32)
    (created : createBoNode ⟨ctx, task, table, []⟩ memSize answer = some (true, pool)) :
    Solid pool := by
  obtain ⟨area, appended, outstanding, same, list⟩ := createBoNode_spec created
  rw [none, List.nil_append] at list
  -- The area is one idle block with bytes, and no buffer is out.
  refine { unlocked := same.trans unlocked, layout := ?_, owned := ?_, bytes := ?_, own := ?_ }
  · rw [list]
    exact Layout.nil.append bounded appended area.vaddr fun _ => rfl
  · rw [outstanding]
    exact ⟨by simp, by simp, by simp, .nil⟩
  · rw [list]
    intro block member
    rw [List.mem_singleton.mp member]
    exact positive
  · rw [outstanding, list]
    exact List.Perm.nil

/-- A new context is solid. -/
theorem Solid.init {table : BoTable} {task : Task} {memSize : Nat} {answer : AreaAnswer}
    {shared : Option AreaAnswer}
    (initialised : ctxInit table task memSize answer shared = some pool) : Solid pool := by
  -- The first area is solid, and the shared buffer is 64 bytes of it or of a second one.
  obtain ⟨large, bounded, opened, created, allocated⟩ := ctxInit_opened initialised
  have fresh : Solid opened := Solid.opened rfl rfl (Nat.zero_lt_of_lt large) bounded created
  exact fresh.alloc (by decide) (fun zero => absurd zero (by decide)) allocated

/--
In every run from a new context each buffer keeps a block of its own, no two blocks start at one
address, and each free makes idle the block of its buffer and no other.

The run frees no buffer whose block is the first one of its area, and splits no block at size zero.
-/
theorem owns_always {table : BoTable} {task : Task} {memSize : Nat} {answer : AreaAnswer}
    {shared : Option AreaAnswer}
    (initialised : ctxInit table task memSize answer shared = some pool) (run : List PoolStep)
    (careful : Runs.Each step (fun s a _ => KeepsAreas s a ∧ SplitsBytes s a) pool run) :
    Runs.Always step Owns pool run ∧ Runs.Each step FreesOwn pool run := by
  -- Solidity goes through the run, and says in each state and at each step what is claimed.
  have start := Solid.init initialised
  constructor
  · refine (Runs.always_of_invariant ?_ start careful).mono fun s solid => solid.owns
    intro s a t solid taken given
    exact (solid.step given.1 given.2 taken).1
  · refine Runs.each_of_invariant (I := Solid) ?_ ?_ start careful
    · intro s a t solid taken given
      exact (solid.step given.1 given.2 taken).1
    · intro s a t solid taken given
      exact (solid.step given.1 given.2 taken).2

/-- A second buffer is handed out and given back. -/
def returnedRun : List PoolStep := [.alloc 64 none, .free 1]

/-- The block of the second buffer is the only one that its free makes idle. -/
theorem owns_always_returned : ∃ pool, onePage = some pool ∧
    Runs.Always step Owns pool returnedRun ∧ Runs.Each step FreesOwn pool returnedRun := by
  obtain ⟨pool, initialised⟩ : ∃ pool, onePage = some pool := ⟨_, rfl⟩
  refine ⟨pool, initialised, owns_always initialised returnedRun ?_⟩
  refine fun t first => ⟨⟨trivial, fun zero => absurd zero (by decide)⟩, fun u second =>
    ⟨⟨?_, trivial⟩, trivial⟩⟩
  intro bo block given found
  -- The second buffer starts at 64, where a block inside the area lies.
  have state : (onePage.bind fun pool => step pool (.alloc 64 none)).map (fun t =>
      (t.outstanding.map Bo.paddr, t.ctx.boList.map fun b => (b.paddr, b.isBo))) =
      some ([0, 64], [(0, true), (64, false), (128, false)]) := rfl
  simp only [initialised, Option.bind_some, first, Option.map_some, Option.some.injEq,
    Prod.mk.injEq] at state
  have start : bo.paddr = 64 := by
    have listed := congrArg (fun starts => starts[1]?) state.1
    simpa [given] using listed
  have address : block.paddr = 64 := by
    have here := List.find?_some found
    simpa [start] using here
  have member := List.mem_map_of_mem (f := fun b : Block => (b.paddr, b.isBo))
    (List.mem_of_find?_eq_some found)
  rw [state.2, address] at member
  simpa using member

/-- A buffer without bytes shares the address of the next one, which is then freed. -/
def emptyRun : List PoolStep := [.alloc 0 none, .alloc 64 none, .free 2]

/-- The free makes the block without bytes idle, and the other one stays in use. -/
theorem owns_empty : ∃ pool, onePage = some pool ∧ ¬ Runs.Each step FreesOwn pool emptyRun := by
  obtain ⟨pool, initialised⟩ : ∃ pool, onePage = some pool := ⟨_, rfl⟩
  refine ⟨pool, initialised, fun each => ?_⟩
  have state : (onePage.bind fun pool => Runs.exec step pool emptyRun.dropLast).bind (fun t =>
      (step t (.free 2)).map fun u => (t.outstanding.map Bo.stretch,
        (busy t.ctx.boList).map Block.stretch, (busy u.ctx.boList).map Block.stretch)) =
      some ([⟨64, 1, 0, 4096⟩, ⟨0, 1, 64, 4160⟩, ⟨64, 1, 64, 4160⟩],
        [⟨64, 1, 0, 4096⟩, ⟨0, 1, 64, 4160⟩, ⟨64, 1, 64, 4160⟩],
        [⟨64, 1, 0, 4096⟩, ⟨64, 1, 64, 4160⟩]) := rfl
  rw [initialised, Option.bind_some] at state
  obtain ⟨t, reached, more⟩ := Option.bind_eq_some_iff.mp state
  obtain ⟨u, taken, facts⟩ := Option.map_eq_some_iff.mp more
  simp only [Prod.mk.injEq] at facts
  obtain ⟨out, inUse, left⟩ := facts
  -- The last step of the run would have to make idle the block of 64 bytes.
  have last : FreesOwn t (.free 2) u := Runs.each_iff.mp each emptyRun.dropLast (.free 2) t u
    (List.prefix_refl _) reached taken
  obtain ⟨bo, before, curr, rest, given, shape, used, same, after, _⟩ := last
  have memory : bo.stretch = ⟨64, 1, 64, 4160⟩ := by
    have listed := congrArg (fun stretches => stretches[2]?) out
    simpa [given] using listed
  rw [shape, busy_append, busy_cons, used, if_neg Bool.false_ne_true, List.map_append,
    List.map_cons, same, memory] at inUse
  rw [after, List.map_append] at left
  -- It is still in use once, where none of its kind may be left.
  have before := congrArg (List.count ⟨64, 1, 64, 4160⟩) inUse
  have now := congrArg (List.count ⟨64, 1, 64, 4160⟩) left
  rw [List.count_append, List.count_cons_self] at before
  rw [List.count_append] at now
  have once : List.count (⟨64, 1, 64, 4160⟩ : Stretch)
    [⟨64, 1, 0, 4096⟩, ⟨0, 1, 64, 4160⟩, ⟨64, 1, 64, 4160⟩] = 1 := by decide
  have still : List.count (⟨64, 1, 64, 4160⟩ : Stretch)
    [⟨64, 1, 0, 4096⟩, ⟨64, 1, 64, 4160⟩] = 1 := by decide
  omega

end Pool

end Aip
