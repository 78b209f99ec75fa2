import Aip.Api.Buffers
import Aip.Lib.Runs
import Aip.Pool.Restored

/-! What a second destroy of one buffer does, in both modes of a context. -/

namespace Aip.Pool

/-- The call returns success and leaves the record, the context and the kernel's areas alone. -/
structure NoOp (pool : Pool) (bo : Bo) (called : Called) : Prop where
  ok : called.code = .ok
  record : called.bo = bo
  ctx : called.pool.ctx = pool.ctx
  table : called.pool.table = pool.table
  released : called.released = []

/--
The first block at the address is idle inside an area, and so is neither of its neighbours.
-/
def Settled (blocks : List Block) (paddr : Nat) : Prop :=
  ∃ before curr after, lookup paddr [] blocks = some (before, curr, after) ∧
    curr.idle = true ∧ curr.isBo = false ∧
    (∀ prev ∈ before.head?, prev.idle = false) ∧ ∀ next ∈ after.head?, next.idle = false

/-- What the calls keep: the mode, a free mutex, and blocks with the handle of an area. -/
structure Ready (memSize : Nat) (pool : Pool) : Prop where
  mode : pool.ctx.maxMemSize = memSize
  unlocked : pool.ctx.mutexLock = false
  handles : ∀ block ∈ pool.ctx.boList, block.handle ≠ 0

variable {pool after : Pool} {memSize size i : Nat} {answer : Option AreaAnswer} {bo : Bo}
  {called : Called} {before rest : List Block} {curr : Block}

/-- The kernel gives out no handle 0. -/
theorem append_handle {table grown : BoTable} {pid dma handle : Nat}
    (appended : table.append pid size dma handle = some grown) : handle ≠ 0 :=
  Nat.pos_iff_ne_zero.mp (Idr.pos_of_find (Idr.find_alloc_self (BoTable.append_spec appended).2.1))

/-- An allocation keeps the context ready, and the buffer has the handle of an area. -/
theorem Ready.alloc {done : Bool} (ready : Ready memSize pool)
    (taken : pool.alloc size answer = some (done, after)) :
    Ready memSize after ∧
      (done = true → ∃ new, after.outstanding = pool.outstanding ++ [new] ∧ new.handle ≠ 0) := by
  have handles := alloc_forall (P := fun block => block.handle ≠ 0) taken (fun _ here => here)
    (fun _ here _ => ⟨here, here⟩) (fun _ _ _ appended => append_handle appended) ready.handles
  obtain ⟨_, ⟨used, blocks, found, -, rfl⟩ | ⟨_, refused, -, rfl⟩ |
    ⟨_, -, new, table, _, appended, rfl⟩⟩ := alloc_cases taken
  · refine ⟨⟨ready.mode, ready.unlocked, handles⟩, fun _ => ⟨used.toBo size, rfl, ?_⟩⟩
    -- The block handed out is on the list.
    obtain ⟨early, curr, late, -, -, ⟨-, rfl⟩ | ⟨-, -, rfl⟩⟩ := takeIdle_spec found
    · exact handles used (by simp)
    · exact handles used (by simp)
  · exact ⟨ready, by simp [refused]⟩
  · exact ⟨⟨ready.mode, ready.unlocked, handles⟩, fun _ => ⟨_, rfl, append_handle appended⟩⟩

/-- A free keeps the context ready. -/
theorem Ready.freeBo (ready : Ready memSize pool) (freed : pool.freeBo i bo = some after) :
    Ready memSize after := by
  -- A merged block keeps the handle of its first part.
  have handles := freeBo_forall (P := fun block => block.handle ≠ 0) freed (fun _ _ here => here)
    (fun _ here => here) ready.handles
  obtain ⟨_, rfl⟩ | ⟨_, _, ⟨_, rfl⟩ | ⟨before, curr, rest, _, rfl⟩⟩ := freeBo_cases freed
  · exact ⟨ready.mode, ready.unlocked, handles⟩
  · exact ready
  · exact ⟨ready.mode, ready.unlocked, handles⟩

/-- The free of the pool leaves the caller's record as it is. -/
theorem fastFreeBo_spec (done : pool.fastFreeBo bo = some called) :
    called.bo = bo ∧ pool.freeBo (pool.outstanding.idxOf bo) bo = some called.pool := by
  obtain ⟨after, freed, rfl⟩ := Option.map_eq_some_iff.mp done
  -- Every way out gives back the record and the pool.
  split
  · exact ⟨rfl, freed⟩
  · split
    · exact ⟨rfl, freed⟩
    · split
      · split <;> exact ⟨rfl, freed⟩
      · exact ⟨rfl, freed⟩

/-- A destroy keeps the context ready; in direct mode it also clears the handle. -/
theorem Ready.destroyBo (ready : Ready memSize pool) (done : pool.destroyBo bo = some called) :
    Ready memSize called.pool ∧ (memSize ≤ 1 → called.bo.handle = 0) ∧
      (1 < memSize → called.bo = bo) := by
  -- The mode decides which of the two frees is called.
  simp only [Pool.destroyBo, ready.mode] at done
  split at done
  case isTrue pooled =>
    obtain ⟨record, freed⟩ := fastFreeBo_spec done
    exact ⟨ready.freeBo freed, fun direct => absurd pooled (Nat.not_lt.mpr direct), fun _ => record⟩
  case isFalse direct =>
    cases done
    simp only [directFreeBo]
    split
    case isTrue cleared => exact ⟨ready, fun _ => cleared, fun pooled => absurd pooled direct⟩
    case isFalse =>
      exact ⟨⟨ready.mode, ready.unlocked, ready.handles⟩, fun _ => rfl,
        fun pooled => absurd pooled direct⟩

/-- A create keeps the context ready, and from the pool it gives a buffer with a handle. -/
theorem Ready.createBo (ready : Ready memSize pool)
    (done : pool.createBo size answer bo = some called) :
    Ready memSize called.pool ∧ (1 < memSize → called.code = .ok → called.bo.handle ≠ 0) := by
  -- The handles of the pool are those of its areas; direct mode does not touch the list.
  simp only [Pool.createBo, ready.mode] at done
  split at done
  case isTrue pooled =>
    obtain ⟨⟨given, after⟩, taken, rfl⟩ := Option.map_eq_some_iff.mp done
    obtain ⟨kept, recorded⟩ := ready.alloc taken
    cases given with
    | false => exact ⟨kept, fun _ ok => by cases ok⟩
    | true =>
      obtain ⟨new, outstanding, handle⟩ := recorded rfl
      refine ⟨kept, fun _ _ => ?_⟩
      simpa [outstanding] using handle
  case isFalse direct =>
    refine ⟨?_, fun pooled => absurd pooled direct⟩
    obtain ⟨rfl, rfl⟩ | ⟨area, table, rfl, _, ⟨_, _, _, _, _, gone, rfl⟩ | ⟨_, _, _, _, _, rfl⟩⟩ :=
      directAllocBo_cases done
    · exact ready
    · -- An area that cannot be mapped is destroyed again.
      have grown : Ready memSize { pool with table := table } :=
        ⟨ready.mode, ready.unlocked, ready.handles⟩
      have kept := (grown.destroyBo gone).1
      exact ⟨kept.mode, kept.unlocked, kept.handles⟩
    · exact ⟨ready.mode, ready.unlocked, ready.handles⟩

/-- Every call keeps the context ready. -/
theorem Ready.call {a : BoCall} (ready : Ready memSize pool) (done : pool.call a = some after) :
    Ready memSize after := by
  -- A call whose record is destroyed on the way keeps the context ready as well.
  cases a with
  | create size answer bo =>
    simp only [Pool.call, Option.ite_none_right_eq_some] at done
    obtain ⟨called, created, rfl⟩ := Option.map_eq_some_iff.mp done.2
    exact (ready.createBo created).1
  | destroy bo =>
    obtain ⟨called, destroyed, rfl⟩ := Option.map_eq_some_iff.mp done
    exact (ready.destroyBo destroyed).1

/-- So does a whole run of calls. -/
theorem Ready.run {calls : List BoCall} (ready : Ready memSize pool)
    (reached : Runs.exec Pool.call pool calls = some after) : Ready memSize after :=
  (Runs.always_of_preserved (fun _ _ _ kept done => Ready.call kept done) ready).last reached

/-- A new context is ready. -/
theorem Ready.init {table : BoTable} {task : Task} {area : AreaAnswer} {shared : Option AreaAnswer}
    (initialised : initCtx table task memSize area shared = some pool) : Ready memSize pool := by
  -- With a pool the first block has the handle of the first area; without one there is no block.
  simp only [initCtx] at initialised
  split at initialised
  case isTrue =>
    obtain ⟨_, _, grown, appended, allocated⟩ := ctxInit_cases initialised
    refine (Ready.alloc ⟨rfl, rfl, ?_⟩ allocated).1
    simp only [List.forall_mem_singleton]
    exact append_handle appended
  case isFalse =>
    obtain ⟨called, created, kept⟩ := Option.bind_eq_some_iff.mp initialised
    have opened : Ready memSize (openedCtx table task memSize) := ⟨rfl, rfl, by simp [openedCtx]⟩
    split at kept
    · cases kept
      exact (opened.createBo created).1
    · cases kept

/-- Merging to the front leaves an idle block idle. -/
theorem mergePrev_idle (idle : curr.idle = true) : (mergePrev before curr).2.idle = true := by
  -- The induction is on the blocks in front, and a block that has grown is still idle.
  induction before generalizing curr with
  | nil => exact idle
  | cons prev before ih =>
    simp only [mergePrev]
    split
    case isTrue free => exact ih free.1
    case isFalse => exact idle

/-- Merging to the back leaves an idle block idle. -/
theorem mergeNext_idle (idle : curr.idle = true) : (mergeNext curr rest).1.idle = true := by
  -- The induction is on the blocks behind.
  induction rest generalizing curr with
  | nil => exact idle
  | cons next rest ih =>
    simp only [mergeNext]
    split
    · exact ih idle
    · exact idle

/-- A block with no idle neighbour is merged with none. -/
theorem merge_settled (curr : Block) (front : ∀ prev ∈ before.head?, prev.idle = false)
    (back : ∀ next ∈ rest.head?, next.idle = false) :
    mergePrev before curr = (before, curr) ∧ mergeNext curr rest = (curr, rest) := by
  -- The loops look at one neighbour, and stop at a block in use.
  constructor
  · cases before with
    | nil => rfl
    | cons prev before => simp [mergePrev, front prev rfl]
  · cases rest with
    | nil => rfl
    | cons next rest => simp [mergeNext, back next rfl]

/-- The free of a buffer with a handle does nothing exactly if the block at its address is settled. -/
theorem fastFreeBo_noOp (unlocked : pool.ctx.mutexLock = false) (handle : bo.handle ≠ 0) :
    (∃ called, pool.fastFreeBo bo = some called ∧ NoOp pool bo called)
      ↔ Settled pool.ctx.boList bo.paddr := by
  cases found : lookup bo.paddr [] pool.ctx.boList with
  | none =>
    -- "Can not find this bo!"
    refine iff_of_false ?_ ?_
    · rintro ⟨called, done, noOp⟩
      have code := noOp.ok
      simp only [fastFreeBo, Pool.freeBo, handle, if_false, unlocked, Bool.false_eq_true, found,
        Option.map_some, Option.some.injEq, mergedBlock, Option.map_none] at done
      subst done
      cases code
    · rintro ⟨before, curr, rest, listed, _⟩
      simp [found] at listed
  | some place =>
    obtain ⟨before, curr, rest⟩ := place
    obtain ⟨same, -, -⟩ := lookup_spec found
    simp only [List.reverse_nil, List.nil_append] at same
    have freed := freeBo_eq (i := pool.outstanding.idxOf bo) handle unlocked found
    constructor
    · rintro ⟨called, done, noOp⟩
      obtain ⟨_, moved⟩ := fastFreeBo_spec done
      have left := freed.symm.trans moved
      have released := noOp.released
      simp only [fastFreeBo, freed, handle, if_false, mergedBlock, found, Option.map_some,
        Option.some.injEq] at done
      generalize front : mergePrev before { curr with idle := true } = merged at *
      generalize back : mergeNext merged.2 rest = joined at *
      -- Nothing was released, so the block does not start an area.
      have inner : joined.1.isBo = false := by
        cases start : joined.1.isBo with
        | false => rfl
        | true =>
          simp only [start, if_true] at done
          subst done
          split at released <;> cases released
      have list : merged.1.reverse ++ joined.1 :: joined.2 = before.reverse ++ curr :: rest := by
        rw [← same, ← noOp.ctx, ← Option.some.inj left]
      have inner' : (mergePrev before { curr with idle := true }).2.isBo = false := by
        rw [front, ← (mergeNext_fields merged.2 rest).1, back, inner]
      obtain ⟨early, free⟩ := mergePrev_stops inner'
      obtain ⟨late, free'⟩ := mergeNext_stops merged.2 rest
      rw [front] at early free
      rw [back] at late free'
      -- The list is as long as before, so no block has been swallowed.
      have length := congrArg List.length list
      simp only [List.length_append, List.length_reverse, List.length_cons] at length
      have frontLength := early.length_le
      have backLength := late.length_le
      have sameFront : merged.1 = before := early.eq_of_length (by omega)
      have sameBack : joined.2 = rest := late.eq_of_length (by omega)
      rw [sameFront, sameBack, List.append_cancel_left_eq, List.cons.injEq] at list
      have idle : joined.1.idle = true := by
        rw [← back]
        apply mergeNext_idle
        rw [← front]
        exact mergePrev_idle rfl
      refine ⟨before, curr, rest, found, ?_, ?_, ?_, ?_⟩
      · rw [← list.1, idle]
      · rw [← list.1, inner]
      · rwa [sameFront] at free
      · rwa [sameBack] at free'
    · rintro ⟨before', curr', rest', listed, idle, inner, front, back⟩
      cases found.symm.trans listed
      -- Nothing is merged, and the block was idle before.
      have stays : { curr with idle := true } = curr := by
        cases curr
        cases idle
        rfl
      obtain ⟨noFront, noBack⟩ := merge_settled curr front back
      simp only [stays, noFront, noBack] at freed
      simp only [inner, Bool.false_eq_true, if_false, ← same] at freed
      refine ⟨_, Option.map_eq_some_iff.mpr ⟨_, freed, rfl⟩, ?_⟩
      have merged : pool.mergedBlock bo = some curr := by
        simp only [mergedBlock, found, Option.map_some, stays, noFront, noBack]
      simp only [handle, if_false, merged, inner, Bool.false_eq_true]
      exact ⟨rfl, rfl, by rw [← unlocked], rfl, rfl⟩

/-- A buffer without a handle is destroyed by doing nothing. -/
theorem directFreeBo_noOp (cleared : bo.handle = 0) : NoOp pool bo (pool.directFreeBo bo) := by
  rw [directFreeBo, if_pos cleared]
  exact ⟨rfl, rfl, rfl, rfl, rfl⟩

/--
After any calls on a context, the second destroy of a buffer does nothing, exactly if the context
has no pool, or the block at the address is then idle and settled.
-/
theorem destroy_twice_iff {table : BoTable} {task : Task} {area : AreaAnswer}
    {shared new : Option AreaAnswer} {start p q r : Pool} {earlier between later : List BoCall}
    {created first : Called} (initialised : initCtx table task memSize area shared = some start)
    (reached : Runs.exec call start earlier = some p)
    (create : p.createBo size new bo = some created) (ok : created.code = .ok)
    (others : Runs.exec call created.pool between = some q)
    (destroy : q.destroyBo created.bo = some first)
    (others' : Runs.exec call first.pool later = some r) :
    (∃ second, r.destroyBo first.bo = some second ∧ NoOp r first.bo second)
      ↔ memSize ≤ 1 ∨ Settled r.ctx.boList first.bo.paddr := by
  -- Whatever the calls in between do, they keep the mode and the free mutex.
  obtain ⟨made, handle⟩ := ((Ready.init initialised).run reached).createBo create
  obtain ⟨gone, cleared, kept⟩ := (made.run others).destroyBo destroy
  have ready := gone.run others'
  by_cases pooled : 1 < memSize
  · -- The record still has its handle, and the block at its address may be anyone's.
    have live : first.bo.handle ≠ 0 := by
      rw [kept pooled]
      exact handle pooled ok
    simp only [Pool.destroyBo, ready.mode, if_pos pooled, Nat.not_le.mpr pooled, false_or]
    exact fastFreeBo_noOp ready.unlocked live
  · refine iff_of_true ?_ (.inl (Nat.le_of_not_lt pooled))
    simp only [Pool.destroyBo, ready.mode, if_neg pooled]
    exact ⟨_, rfl, directFreeBo_noOp (cleared (Nat.le_of_not_lt pooled))⟩

/-- Without a pool the second destroy does nothing, whatever was created in between. -/
theorem destroy_twice_iff_direct : ∃ start created first r,
    initCtx .init ⟨1, 1⟩ 1 ⟨0, 1, 4096⟩ (some ⟨8192, 1, 4096⟩) = some start ∧
    start.createBo 64 (some ⟨16384, 2, 16384⟩) ⟨0, 0, 0, 0, 0, 0⟩ = some created ∧
    created.pool.destroyBo created.bo = some first ∧
    Runs.exec call first.pool [.create 64 (some ⟨16384, 2, 16384⟩) ⟨0, 0, 0, 0, 0, 0⟩] = some r ∧
    ∃ second, r.destroyBo first.bo = some second ∧ NoOp r first.bo second := by
  have state : ((initCtx .init ⟨1, 1⟩ 1 ⟨0, 1, 4096⟩ (some ⟨8192, 1, 4096⟩)).bind fun start =>
      (start.createBo 64 (some ⟨16384, 2, 16384⟩) ⟨0, 0, 0, 0, 0, 0⟩).bind fun created =>
        (created.pool.destroyBo created.bo).bind fun first =>
          (Runs.exec call first.pool
            [.create 64 (some ⟨16384, 2, 16384⟩) ⟨0, 0, 0, 0, 0, 0⟩]).map fun _ => created.code)
      = some .ok := rfl
  obtain ⟨start, initialised, state⟩ := Option.bind_eq_some_iff.mp state
  obtain ⟨created, create, state⟩ := Option.bind_eq_some_iff.mp state
  obtain ⟨first, destroy, state⟩ := Option.bind_eq_some_iff.mp state
  obtain ⟨r, reached, ok⟩ := Option.map_eq_some_iff.mp state
  have stays (s : Pool) : Runs.exec call s [] = some s := rfl
  exact ⟨start, created, first, r, initialised, create, destroy, reached,
    (destroy_twice_iff initialised (stays _) create ok (stays _) destroy reached).mpr
      (.inl (Nat.le_refl 1))⟩

/-- From the pool the second destroy of a buffer takes the next buffer's block away. -/
theorem destroy_twice_reused : ∃ start created first r second,
    initCtx .init ⟨1, 1⟩ 4096 ⟨0, 1, 4096⟩ none = some start ∧
    start.createBo 64 none ⟨0, 0, 0, 0, 0, 0⟩ = some created ∧ created.code = .ok ∧
    created.pool.destroyBo created.bo = some first ∧
    Runs.exec call first.pool [.create 128 none ⟨0, 0, 0, 0, 0, 0⟩] = some r ∧
    (r.outstanding.map Bo.paddr, r.ctx.boList.map fun block => (block.paddr, block.idle))
      = ([0, 64], [(0, false), (64, false), (192, true)]) ∧
    r.destroyBo first.bo = some second ∧ second.code = .ok ∧ ¬ NoOp r first.bo second ∧
    second.pool.ctx.boList.map (fun block => (block.paddr, block.idle)) = [(0, false), (64, true)] := by
  -- The list has lost a block, which a call that does nothing cannot have done.
  refine ⟨_, _, _, _, _, rfl, rfl, rfl, rfl, rfl, rfl, rfl, rfl, fun noOp => ?_, rfl⟩
  have same := congrArg (fun ctx => ctx.boList.length) noOp.ctx
  revert same
  decide

end Aip.Pool
