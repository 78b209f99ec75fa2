import Aip.Api.Buffers
import Aip.Pool.PoolSafe

/-! The mutex of a context during an allocation, call by call. -/

namespace Aip.Pool

/-- The calls on `ctx->mutex_lock`. -/
inductive MutexCall where
  | lock
  | unlock
  deriving DecidableEq, Repr

/-- A pool and the calls on its mutex so far. -/
structure Traced where
  pool : Pool
  calls : List MutexCall

namespace Traced

/-- The lock word of the mutex is written. -/
def setWord (s : Traced) (word : Bool) : Traced :=
  { s with pool := { s.pool with ctx := { s.pool.ctx with mutexLock := word } } }

/-- `pthread_mutex_lock`; a mutex whose word says that it is locked is waited for. -/
def lock (s : Traced) : Option Traced :=
  if s.pool.ctx.mutexLock then none
  else some { s.setWord true with calls := s.calls ++ [.lock] }

/-- `pthread_mutex_unlock`. -/
def unlock (s : Traced) : Traced := { s.setWord false with calls := s.calls ++ [.unlock] }

/-- `aip_list_add_tail` of a new block. -/
def addTail (s : Traced) (block : Block) : Traced :=
  { s with pool := { s.pool with
      ctx := { s.pool.ctx with boList := s.pool.ctx.boList ++ [block] } } }

/-- A block is handed out, and the list is as given. -/
def give (s : Traced) (size : Nat) (curr : Block) (blocks : List Block) : Traced :=
  { s with pool := { s.pool with
      ctx := { s.pool.ctx with boList := blocks }
      outstanding := s.pool.outstanding ++ [curr.toBo size] } }

/-- `create_bo_node`, which takes the mutex itself. -/
def createBoNode (s : Traced) (size : Nat) : Option AreaAnswer → Option (Bool × Traced)
  | none => some (false, s)
  | some answer =>
    match s.pool.table.append s.pool.task.nr size answer.dma answer.handle with
    | none => none
    | some table =>
      ({ s with pool := { s.pool with table := table } } : Traced).lock.map fun held =>
        (true, (held.addTail
          ⟨size, true, true, answer.handle, answer.dma, answer.vaddr⟩).unlock)

/-- `iaic_fast_alloc_bo`. -/
def alloc (s : Traced) (size : Nat) (answer : Option AreaAnswer) : Option (Bool × Traced) :=
  s.lock.bind fun held =>
    match takeIdle (alignSize size) held.pool.ctx.boList with
    | some (curr, blocks) => some (true, (held.give size curr blocks).unlock)
    | none =>
      -- `curr_bo->idle = 0` with the list head for `curr_bo` writes to the lock word.
      ((held.setWord false).createBoNode size answer).bind fun (created, grown) =>
        if created then
          (useLast grown.pool.ctx.boList).map fun (curr, blocks) =>
            (true, (grown.give size curr blocks).unlock)
        -- `return IAIC_CODE_BO_CREATE_FAIL`
        else some (false, grown)

end Traced

/-- Who follows the calls knows whether the mutex is held, as long as they are in order. -/
def replay : Bool → List MutexCall → Option Bool
  | held, [] => some held
  | held, .lock :: calls => if held then none else replay true calls
  | held, .unlock :: calls => if held then replay false calls else none

/-- The mutex was never taken while held and is released, and a failed call changed no field. -/
structure LockSafe (pool : Pool) (done : Bool) (after : Traced) : Prop where
  released : replay false after.calls = some false
  unchanged : done = false → after.pool.ctx = pool.ctx

/-- The kernel can give the answer. -/
def Possible (pool : Pool) (size : Nat) (answer : Option AreaAnswer) : Prop :=
  ∀ area, answer = some area →
    (pool.table.append pool.task.nr size area.dma area.handle).isSome

variable {pool : Pool} {size : Nat} {answer : Option AreaAnswer}

/-- Without the calls the function is the allocation of the pool. -/
theorem traced_alloc (calls : List MutexCall) :
    ((Traced.mk pool calls).alloc size answer).map (fun result => (result.1, result.2.pool))
      = pool.alloc size answer := by
  obtain ⟨⟨maxMemSize, blocks, lock⟩, task, table, outstanding⟩ := pool
  simp only [Traced.alloc, Traced.lock, Pool.alloc]
  cases lock with
  | true => simp
  | false =>
    simp only [Bool.false_eq_true, if_false, Option.bind_some, Traced.setWord]
    cases takeIdle (alignSize size) blocks with
    | some found => rfl
    | none =>
      cases answer with
      | none => rfl
      | some area =>
        simp only [Traced.createBoNode, createBoNode]
        cases table.append task.nr size area.dma area.handle with
        | none => rfl
        | some grown =>
          -- The block that was appended is the one handed out.
          simp [Traced.lock, Traced.setWord, Traced.addTail, Traced.unlock, Traced.give, useLast]

/-- The calls when an idle block is large enough. -/
theorem traced_found {used : Block} {blocks : List Block} (answer : Option AreaAnswer)
    (unlocked : pool.ctx.mutexLock = false)
    (found : takeIdle (alignSize size) pool.ctx.boList = some (used, blocks)) :
    ∃ after, (Traced.mk pool []).alloc size answer = some (true, after) ∧
      after.calls = [.lock, .unlock] := by
  simp [Traced.alloc, Traced.lock, Traced.setWord, unlocked, found, Traced.give, Traced.unlock]

/-- The calls when the kernel refuses an area: the function returns without the unlock. -/
theorem traced_refused (unlocked : pool.ctx.mutexLock = false)
    (exhausted : takeIdle (alignSize size) pool.ctx.boList = none) :
    ∃ after, (Traced.mk pool []).alloc size none = some (false, after) ∧
      after.calls = [.lock] := by
  simp [Traced.alloc, Traced.lock, Traced.setWord, unlocked, exhausted, Traced.createBoNode]

/-- The calls when the pool grows: the helper takes the mutex that the function holds. -/
theorem traced_grown {area : AreaAnswer} {table : BoTable} (unlocked : pool.ctx.mutexLock = false)
    (exhausted : takeIdle (alignSize size) pool.ctx.boList = none)
    (appended : pool.table.append pool.task.nr size area.dma area.handle = some table) :
    ∃ after, (Traced.mk pool []).alloc size (some area) = some (true, after) ∧
      after.calls = [.lock, .lock, .unlock, .unlock] := by
  simp [Traced.alloc, Traced.lock, Traced.setWord, unlocked, exhausted, Traced.createBoNode, appended,
    Traced.addTail, Traced.unlock, useLast, Traced.give]

/--
An allocation returns with the mutex taken and released in order, exactly if an idle block is large
enough: otherwise the mutex is taken twice, or is not given back.
-/
theorem lockSafe_iff (unlocked : pool.ctx.mutexLock = false) (possible : Possible pool size answer) :
    (∃ done after, (Traced.mk pool []).alloc size answer = some (done, after) ∧
        LockSafe pool done after)
      ↔ ∃ block ∈ pool.ctx.boList, block.idle = true ∧ alignSize size ≤ block.size := by
  -- The three ways through the function have three sequences of calls.
  cases found : takeIdle (alignSize size) pool.ctx.boList with
  | some result =>
    have fits : ∃ block ∈ pool.ctx.boList, block.idle = true ∧ alignSize size ≤ block.size := by
      by_contra none
      have exhausted : takeIdle (alignSize size) pool.ctx.boList = .none :=
        takeIdle_eq_none.mpr fun block member idle =>
          Nat.not_le.mp fun large => none ⟨block, member, idle, large⟩
      simp [exhausted] at found
    refine iff_of_true ?_ fits
    obtain ⟨after, taken, calls⟩ := traced_found answer unlocked found
    refine ⟨true, after, taken, ?_, nofun⟩
    rw [calls]
    rfl
  | none =>
    refine iff_of_false ?_ ?_
    · rintro ⟨done, after, taken, safe⟩
      cases answer with
      | none =>
        obtain ⟨other, refused, calls⟩ := traced_refused unlocked found
        cases taken.symm.trans refused
        -- The mutex is still held.
        have released := safe.released
        rw [calls] at released
        cases released
      | some area =>
        obtain ⟨table, appended⟩ := Option.isSome_iff_exists.mp (possible area rfl)
        obtain ⟨other, grown, calls⟩ := traced_grown unlocked found appended
        cases taken.symm.trans grown
        -- The second call takes a mutex that is held.
        have released := safe.released
        rw [calls] at released
        cases released
    · rintro ⟨block, member, idle, large⟩
      exact absurd large (Nat.not_le.mpr (takeIdle_eq_none.mp found block member idle))

/-- A buffer of 64 bytes from a context of one page takes the mutex once and gives it back. -/
theorem lockSafe_iff_page : ∃ pool, onePage = some pool ∧
    ∃ done after, (Traced.mk pool []).alloc 64 none = some (done, after) ∧
      LockSafe pool done after := by
  -- The shared buffer has taken the first 64 bytes of the page, and the rest is idle.
  obtain ⟨pool, initialised⟩ : ∃ pool, onePage = some pool := ⟨_, rfl⟩
  have state : onePage.map (fun pool => (pool.ctx.mutexLock, pool.ctx.boList.map fun block =>
      (block.idle, block.size))) = some (false, [(false, 64), (true, 4032)]) := rfl
  rw [initialised, Option.map_some, Option.some.injEq, Prod.mk.injEq] at state
  have possible : Possible pool 64 none := fun area given => by cases given
  refine ⟨pool, initialised, (lockSafe_iff state.1 possible).mpr ?_⟩
  have rest : (true, 4032) ∈ pool.ctx.boList.map fun block => (block.idle, block.size) := by
    simp [state.2]
  obtain ⟨block, member, fields⟩ := List.mem_map.mp rest
  obtain ⟨idle, size⟩ := Prod.mk.inj fields
  exact ⟨block, member, idle, by rw [size]; decide⟩

/-- More bytes than the page has: the mutex is taken twice, or kept if the kernel has no area. -/
theorem lockSafe_exhausted : ∃ pool, onePage = some pool ∧
    (∃ after, (Traced.mk pool []).alloc 8192 (some ⟨4096, 2, 8192⟩) = some (true, after) ∧
      ¬ LockSafe pool true after) ∧
    ∃ after, (Traced.mk pool []).alloc 8192 none = some (false, after) ∧
      ¬ LockSafe pool false after := by
  refine ⟨_, rfl, ⟨_, rfl, fun safe => ?_⟩, ⟨_, rfl, fun safe => ?_⟩⟩
  · cases safe.released
  · cases safe.released

end Aip.Pool
