import Aip.Pool.Layout

/-! The buffer calls of the library, `iaic_api.c` and `iaic_bo.c`, in both modes of a context. -/

namespace Aip

/-- What the buffer calls return, of `iaic_ret_code_t`; one of them returns a bare -1. -/
inductive BoCode where
  | ok
  | boCreateFail
  | boCreateMmapFail
  | boCreateExtFail
  | boDestroyFail
  | minusOne
  deriving DecidableEq, Repr

/-- What a call gives back to the kernel: an area by its handle, or a mapping. -/
inductive Release where
  | area (handle : Nat)
  | mapping (vaddr size : Nat)
  deriving DecidableEq, Repr

/-- The pages of the machine, `PAGE_SIZE`. -/
def pageSize : Nat := 4096

/-- The address that `mmap` fails with, `MAP_FAILED`. -/
def mapFailed : Nat := 2 ^ 32 - 1

/-- The chip whose descriptor chains have a node more. -/
def chipA1 : Nat := 0xa1

/-- `sizeof(aip_v20_f_node_t)`. -/
def fNodeSize : Nat := 104

/-- `sizeof(aip_v20_p_node_t)`. -/
def pNodeSize : Nat := 216

namespace Pool

/-- How a buffer call ends: its code, the caller's record of the buffer, and what it released. -/
structure Called where
  code : BoCode
  bo : Bo
  pool : Pool
  released : List Release

/-- `iaic_fast_alloc_bo`; the record filled in is the last one of the outstanding buffers. -/
def fastAllocBo (pool : Pool) (size : Nat) (answer : Option AreaAnswer) (bo : Bo) : Option Called :=
  (pool.alloc size answer).map fun (done, after) =>
    if done then ⟨.ok, after.outstanding.getLastD bo, after, []⟩ else ⟨.boCreateFail, bo, after, []⟩

/-- The block that `iaic_fast_free_bo` is left with after merging. -/
def mergedBlock (pool : Pool) (bo : Bo) : Option Block :=
  (lookup bo.paddr [] pool.ctx.boList).map fun (before, curr, after) =>
    (mergeNext (mergePrev before { curr with idle := true }).2 after).1

/-- `iaic_fast_free_bo`, which does not write to the caller's record. -/
def fastFreeBo (pool : Pool) (bo : Bo) : Option Called :=
  (pool.freeBo (pool.outstanding.idxOf bo) bo).map fun after =>
    if bo.handle = 0 then ⟨.ok, bo, after, []⟩
    else
      match pool.mergedBlock bo with
      | none => ⟨.minusOne, bo, after, []⟩
      | some curr =>
        if curr.isBo then
          -- The driver answers 0 for every handle and leaves the handle of the request alone.
          if curr.handle = 0 then ⟨.boDestroyFail, bo, after, [.area curr.handle]⟩
          else
            ⟨.ok, bo, after, .area curr.handle ::
              if bo.vaddr = mapFailed then [] else [.mapping bo.vaddr pool.ctx.maxMemSize]⟩
        else ⟨.ok, bo, after, []⟩

/-- `iaic_free_bo`. -/
def directFreeBo (pool : Pool) (bo : Bo) : Called :=
  if bo.handle = 0 then ⟨.ok, bo, pool, []⟩
  else
    { code := .ok
      bo := { bo with handle := 0, vaddr := mapFailed }
      pool := { pool with
        table := pool.table.destroy bo.handle
        outstanding := pool.outstanding.erase bo }
      released := .area bo.handle ::
        if bo.vaddr = mapFailed then [] else [.mapping bo.evaddr bo.esize] }

/-- `iaic_destroy_bo`. -/
def destroyBo (pool : Pool) (bo : Bo) : Option Called :=
  if 1 < pool.ctx.maxMemSize then pool.fastFreeBo bo else some (pool.directFreeBo bo)

/-- `iaic_alloc_bo`; an answer that the kernel cannot give has no result. -/
def directAllocBo (pool : Pool) (size : Nat) (bo : Bo) : Option AreaAnswer → Option Called
  -- "[IAIC] BO create failed"
  | none => some ⟨.boCreateFail, bo, pool, []⟩
  | some answer =>
    match pool.table.append pool.task.nr size answer.dma answer.handle with
    | none => none
    | some table =>
      let appended := { pool with table := table }
      let bo := { bo with size := size, handle := answer.handle, paddr := answer.dma }
      -- A buffer that is destroyed here has not been handed out.
      let failed (called : Called) (code : BoCode) : Called :=
        { called with code := code, pool := { called.pool with outstanding := pool.outstanding } }
      -- The address is compared as a signed number.
      if answer.dma < pageSize ∨ 2 ^ 31 ≤ answer.dma then
        (appended.destroyBo bo).map fun called => failed called .boCreateExtFail
      else
        let bo := { bo with
          esize := (size + pageSize * 2) % 2 ^ 32
          evaddr := answer.vaddr
          vaddr := (answer.vaddr + pageSize) % 2 ^ 32 }
        if bo.vaddr = mapFailed then
          (appended.destroyBo bo).map fun called => failed called .boCreateMmapFail
        else some ⟨.ok, bo, { appended with outstanding := pool.outstanding ++ [bo] }, []⟩

/-- `iaic_create_bo`; the record is what the caller's variable holds before the call. -/
def createBo (pool : Pool) (size : Nat) (answer : Option AreaAnswer) (bo : Bo) : Option Called :=
  if 1 < pool.ctx.maxMemSize then pool.fastAllocBo size answer bo
  else pool.directAllocBo size bo answer

/-- The two functions that create a buffer for a chain of nodes, with an `int` number of them. -/
def createNodes (nodeSize chip : Nat) (pool : Pool) (num : Int) (answer : Option AreaAnswer)
    (bo : Bo) : Option Called :=
  if num < 1 then some ⟨.ok, bo, pool, []⟩
  else
    let num := if chip = chipA1 then (num + 1).bmod (2 ^ 32) else num
    let size := (num % 2 ^ 32).toNat * nodeSize % 2 ^ 32
    pool.createBo size answer bo

/-- `iaic_create_fnode`. -/
def createFnode := createNodes fNodeSize

/-- `iaic_create_pnode`. -/
def createPnode := createNodes pNodeSize

/-- A context before its first block, after `AIP_LIST_INIT` and `pthread_mutex_init`. -/
def openedCtx (table : BoTable) (task : Task) (memSize : Nat) : Pool where
  ctx := { maxMemSize := memSize, boList := [], mutexLock := false }
  task := task
  table := table
  outstanding := []

/-- A successful `iaic_ctx_init` of either mode, which also gives out the buffer `shared_bo`. -/
def initCtx (table : BoTable) (task : Task) (memSize : Nat) (answer : AreaAnswer)
    (shared : Option AreaAnswer) : Option Pool :=
  if 1 < memSize then ctxInit table task memSize answer shared
  else
    ((openedCtx table task memSize).createBo 0x10 shared ⟨0, 0, 0, 0, 0, 0⟩).bind fun called =>
      if called.code = .ok then some called.pool else none

/-- The calls on a context, each with what the caller's variable holds. -/
inductive BoCall where
  | create (size : Nat) (answer : Option AreaAnswer) (bo : Bo)
  | destroy (bo : Bo)
  deriving DecidableEq, Repr

/-- One call on the context; a `size_t` has 32 bits. -/
def call (pool : Pool) : BoCall → Option Pool
  | .create size answer bo =>
    if size < 2 ^ 32 then (pool.createBo size answer bo).map Called.pool else none
  | .destroy bo => (pool.destroyBo bo).map Called.pool

section Laws

variable {pool after : Pool} {size : Nat} {answer : Option AreaAnswer}

/-- What a free does: nothing without a handle or a block, else it merges the block it finds. -/
theorem freeBo_cases {i : Nat} {bo : Bo} (freed : pool.freeBo i bo = some after) :
    (bo.handle = 0 ∧ after = { pool with outstanding := pool.outstanding.eraseIdx i }) ∨
    (bo.handle ≠ 0 ∧ pool.ctx.mutexLock = false ∧
      ((lookup bo.paddr [] pool.ctx.boList = none ∧ after = pool) ∨
        ∃ before curr rest, lookup bo.paddr [] pool.ctx.boList = some (before, curr, rest) ∧
          let merged := mergePrev before { curr with idle := true }
          let joined := mergeNext merged.2 rest
          after = { pool with
            ctx := { pool.ctx with boList := merged.1.reverse ++ joined.1 :: joined.2 }
            outstanding := pool.outstanding.eraseIdx i
            table := if joined.1.isBo then pool.table.destroy joined.1.handle else pool.table })) := by
  -- The tests of the function, one after the other: the handle, the mutex, the search.
  obtain ⟨⟨maxMemSize, blocks, lock⟩, task, table, outstanding⟩ := pool
  simp only [Pool.freeBo] at freed
  split at freed
  case isTrue handle =>
    cases freed
    exact .inl ⟨handle, rfl⟩
  case isFalse handle =>
    split at freed
    case isTrue => cases freed
    case isFalse unlocked =>
      obtain rfl : lock = false := by simpa using unlocked
      refine .inr ⟨handle, rfl, ?_⟩
      split at freed
      case h_1 missing =>
        cases freed
        exact .inl ⟨missing, rfl⟩
      case h_2 before curr rest found =>
        cases freed
        exact .inr ⟨before, curr, rest, found, rfl⟩

/--
What an allocation without a pool does: nothing when the kernel refuses, else it hands the area out
between two pages, or destroys it again where it does not lie well.
-/
theorem directAllocBo_cases {bo : Bo} {called : Called}
    (done : pool.directAllocBo size bo answer = some called) :
    (answer = none ∧ called = ⟨.boCreateFail, bo, pool, []⟩) ∨
    ∃ area table, answer = some area ∧
      pool.table.append pool.task.nr size area.dma area.handle = some table ∧
      let placed := pageSize ≤ area.dma ∧ area.dma < 2 ^ 31 ∧
        (area.vaddr + pageSize) % 2 ^ 32 ≠ mapFailed
      ((¬ placed ∧ ∃ code record destroyed, code ≠ .ok ∧
          { pool with table := table }.destroyBo record = some destroyed ∧
          called = { destroyed with
            code := code
            pool := { destroyed.pool with outstanding := pool.outstanding } }) ∨
        (placed ∧ ∃ record : Bo, record.handle = area.handle ∧ record.paddr = area.dma ∧
          record.evaddr = area.vaddr ∧
          called = ⟨.ok, record,
            { pool with table := table, outstanding := pool.outstanding ++ [record] }, []⟩)) := by
  cases answer with
  | none =>
    cases done
    exact .inl ⟨rfl, rfl⟩
  | some area =>
    simp only [directAllocBo] at done
    split at done
    case h_1 => cases done
    case h_2 table appended =>
      refine .inr ⟨area, table, rfl, appended, ?_⟩
      -- The address of the memory is tested first, then that of its mapping.
      split at done
      case isTrue outside =>
        obtain ⟨destroyed, gone, rfl⟩ := Option.map_eq_some_iff.mp done
        refine .inl ⟨?_, _, _, destroyed, by decide, gone, rfl⟩
        rintro ⟨low, high, _⟩
        omega
      case isFalse inside =>
        split at done
        case isTrue unmapped =>
          obtain ⟨destroyed, gone, rfl⟩ := Option.map_eq_some_iff.mp done
          exact .inl ⟨fun placed => placed.2.2 unmapped, _, _, destroyed, by decide, gone, rfl⟩
        case isFalse mapped =>
          cases done
          refine .inr ⟨⟨by omega, by omega, mapped⟩, _, ?_, ?_, ?_, rfl⟩ <;> rfl

section Blocks

variable {P : Block → Prop} {blocks before rest : List Block} {curr : Block}

/-- What growing keeps holds of the blocks that merging to the front leaves. -/
theorem mergePrev_forall (grow : ∀ block next, P block → P (block.grow next))
    (all : ∀ block ∈ before, P block) (here : P curr) :
    (∀ block ∈ (mergePrev before curr).1, P block) ∧ P (mergePrev before curr).2 := by
  -- The induction is on the blocks before, which the loop swallows one after the other.
  induction before generalizing curr with
  | nil => exact ⟨by simp [mergePrev], here⟩
  | cons prev before ih =>
    rw [List.forall_mem_cons] at all
    simp only [mergePrev]
    split
    · exact ih all.2 (grow prev curr all.1)
    · exact ⟨List.forall_mem_cons.mpr all, here⟩

/-- What growing keeps holds of the blocks that merging to the back leaves. -/
theorem mergeNext_forall (grow : ∀ block next, P block → P (block.grow next)) (here : P curr)
    (all : ∀ block ∈ rest, P block) :
    P (mergeNext curr rest).1 ∧ ∀ block ∈ (mergeNext curr rest).2, P block := by
  -- The induction is on the blocks behind.
  induction rest generalizing curr with
  | nil => exact ⟨here, by simp [mergeNext]⟩
  | cons next rest ih =>
    rw [List.forall_mem_cons] at all
    simp only [mergeNext]
    split
    · exact ih (grow curr next here) all.2
    · exact ⟨here, List.forall_mem_cons.mpr all⟩

/-- What growing and idling keep holds of all blocks after a free. -/
theorem freeBo_forall {i : Nat} {bo : Bo} (freed : pool.freeBo i bo = some after)
    (grow : ∀ block next, P block → P (block.grow next))
    (idle : ∀ block, P block → P { block with idle := true })
    (all : ∀ block ∈ pool.ctx.boList, P block) : ∀ block ∈ after.ctx.boList, P block := by
  obtain ⟨_, rfl⟩ | ⟨_, _, ⟨_, rfl⟩ | ⟨before, curr, rest, found, rfl⟩⟩ := freeBo_cases freed
  · exact all
  · exact all
  · -- Only the merged block is new, and it has grown from an old one that was made idle.
    obtain ⟨same, -, -⟩ := lookup_spec found
    simp only [List.reverse_nil, List.nil_append] at same
    simp only [same, List.forall_mem_append, List.forall_mem_cons, List.mem_reverse] at all
    obtain ⟨early, here, late⟩ := all
    obtain ⟨front, merged⟩ := mergePrev_forall grow early (idle curr here)
    obtain ⟨joined, back⟩ := mergeNext_forall grow merged late
    simp only [List.forall_mem_append, List.forall_mem_cons, List.mem_reverse]
    exact ⟨front, joined, back⟩

/-- What cutting keeps holds of all blocks after an allocation, if it holds of a new area. -/
theorem alloc_forall {done : Bool} (taken : pool.alloc size answer = some (done, after))
    (whole : ∀ block, P block → P { block with idle := false })
    (cut : ∀ block, P block → alignSize size < block.size →
      P { block with size := alignSize size, idle := false } ∧ P (block.rest (alignSize size)))
    (area : ∀ area table, answer = some area →
      pool.table.append pool.task.nr size area.dma area.handle = some table →
      P ⟨size, false, true, area.handle, area.dma, area.vaddr⟩)
    (all : ∀ block ∈ pool.ctx.boList, P block) : ∀ block ∈ after.ctx.boList, P block := by
  obtain ⟨_, ⟨used, blocks, found, -, rfl⟩ | ⟨_, -, -, rfl⟩ |
    ⟨_, -, new, table, given, appended, rfl⟩⟩ := alloc_cases taken
  · -- The block found is handed out whole, or cut into itself and a rest.
    obtain ⟨before, curr, rest, same, -, cases⟩ := takeIdle_spec found
    simp only [same, List.forall_mem_append, List.forall_mem_cons] at all
    obtain ⟨early, here, late⟩ := all
    rcases cases with ⟨rfl, rfl⟩ | ⟨fits, rfl, rfl⟩
    · simp only [List.forall_mem_append, List.forall_mem_cons]
      exact ⟨early, whole curr here, late⟩
    · simp only [List.forall_mem_append, List.forall_mem_cons]
      exact ⟨early, (cut curr here fits).1, (cut curr here fits).2, late⟩
  · exact all
  · rw [List.forall_mem_append]
    refine ⟨all, fun block member => ?_⟩
    rw [List.mem_singleton.mp member]
    exact area new table given appended

end Blocks

/-- What the initialisation of a context with a pool does. -/
theorem ctxInit_cases {table : BoTable} {task : Task} {memSize : Nat} {area : AreaAnswer}
    {shared : Option AreaAnswer} (initialised : ctxInit table task memSize area shared = some pool) :
    1 < memSize ∧ memSize < 2 ^ 32 ∧ ∃ grown,
      table.append task.nr memSize area.dma area.handle = some grown ∧
      alloc ⟨⟨memSize, [⟨memSize, true, true, area.handle, area.dma, area.vaddr⟩], false⟩,
        task, grown, []⟩ 0x10 shared = some (true, pool) := by
  obtain ⟨large, bounded, opened, created, allocated⟩ := ctxInit_opened initialised
  refine ⟨large, bounded, ?_⟩
  simp only [createBoNode] at created
  cases appended : table.append task.nr memSize area.dma area.handle with
  | none => simp [appended] at created
  | some grown =>
    -- The list was empty, so the area is its only block.
    simp only [appended, Bool.false_eq_true, if_false, List.nil_append, Option.some.injEq,
      Prod.mk.injEq, true_and] at created
    subst created
    exact ⟨grown, rfl, allocated⟩

end Laws

end Pool

end Aip
