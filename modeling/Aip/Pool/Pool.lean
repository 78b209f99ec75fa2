import Aip.Driver.Bo

/-! The buffer pool of a library context, `iaic_bo.c`, on top of the driver's buffer objects. -/

namespace Aip

/-- A block of a kernel area, `block_t`, without its links and the field that nothing reads. -/
structure Block where
  size : Nat
  idle : Bool
  isBo : Bool
  handle : Nat
  paddr : Nat
  vaddr : Nat
  deriving DecidableEq, Repr

/-- A buffer object handed out to the caller, `iaic_bo_t`. -/
structure Bo where
  size : Nat
  esize : Nat
  handle : Nat
  paddr : Nat
  vaddr : Nat
  evaddr : Nat
  deriving DecidableEq, Repr

/-- The fields of `iaic_ctx_t` that the pool uses; of the mutex, its lock word. -/
structure Ctx where
  maxMemSize : Nat
  boList : List Block
  mutexLock : Bool
  deriving DecidableEq, Repr

/--
A context, the process that uses it, the driver's buffer objects and, as history, the buffers that
were handed out and have not been freed yet.
-/
structure Pool where
  ctx : Ctx
  task : Task
  table : BoTable
  outstanding : List Bo

/-- What the kernel answers to `AIP_BO_OP_APPEND` and to the `mmap` of the area. -/
structure AreaAnswer where
  dma : Nat
  handle : Nat
  vaddr : Nat
  deriving DecidableEq, Repr

/-- The calls on a context; a free names the buffer by its place among the outstanding ones. -/
inductive PoolStep where
  | alloc (size : Nat) (answer : Option AreaAnswer)
  | free (bo : Nat)
  deriving DecidableEq, Repr

namespace Block

/-- `prev->size += curr->size` on 32 bits. -/
def grow (block next : Block) : Block := { block with size := (block.size + next.size) % 2 ^ 32 }

/-- The buffer that `iaic_fast_alloc_bo` fills in from a block. -/
def toBo (block : Block) (size : Nat) : Bo :=
  { size := size, esize := block.size, handle := block.handle, paddr := block.paddr,
    vaddr := block.vaddr, evaddr := block.vaddr }

/-- The idle rest of a block whose first bytes are handed out. -/
def rest (block : Block) (alignSize : Nat) : Block :=
  { size := block.size - alignSize
    idle := true
    isBo := false
    handle := block.handle
    paddr := (block.paddr + alignSize) % 2 ^ 32
    vaddr := (block.vaddr + alignSize) % 2 ^ 32 }

end Block

namespace Pool

/-- A size rounded up to the granularity of the pool, `(size + (64 - 1)) & ~(64 - 1)` on 32 bits. -/
def alignSize (size : Nat) : Nat := (size + 63) % 2 ^ 32 / 64 * 64

/-- The loop of `iaic_fast_alloc_bo`: the block handed out, and the list afterwards. -/
def takeIdle (alignSize : Nat) : List Block → Option (Block × List Block)
  | [] => none
  | curr :: after =>
    if curr.idle ∧ alignSize ≤ curr.size then
      if curr.size - alignSize < 0x200 then
        let used := { curr with idle := false }
        some (used, used :: after)
      else
        let used := { curr with size := alignSize, idle := false }
        some (used, used :: curr.rest alignSize :: after)
    else (takeIdle alignSize after).map fun found => (found.1, curr :: found.2)

/-- The loop of `iaic_fast_free_bo` that looks the block up, the blocks before it nearest first. -/
def lookup (paddr : Nat) (before : List Block) :
    List Block → Option (List Block × Block × List Block)
  | [] => none
  | curr :: after =>
    if curr.paddr = paddr then some (before, curr, after) else lookup paddr (curr :: before) after

/-- The loop that merges a block into the idle ones before it, up to the start of an area. -/
def mergePrev : List Block → Block → List Block × Block
  -- The list head reads as idle, and the loop leaves there.
  | [], curr => ([], curr)
  | prev :: before, curr =>
    if prev.idle ∧ curr.isBo = false then mergePrev before (prev.grow curr)
    else (prev :: before, curr)

/-- The loop that merges the idle blocks behind a block into it. -/
def mergeNext (curr : Block) : List Block → Block × List Block
  | [] => (curr, [])
  | next :: after => if next.idle then mergeNext (curr.grow next) after else (curr, next :: after)

/-- `create_bo_node`; an answer that the kernel cannot give has no result. -/
def createBoNode (pool : Pool) (size : Nat) : Option AreaAnswer → Option (Bool × Pool)
  -- "[IAIC] BO application failed"
  | none => some (false, pool)
  | some answer =>
    match pool.table.append pool.task.nr size answer.dma answer.handle with
    | none => none
    | some table =>
      -- A mutex that is locked is waited for.
      if pool.ctx.mutexLock then none
      else
        let block : Block :=
          { size := size, idle := true, isBo := true, handle := answer.handle, paddr := answer.dma,
            vaddr := answer.vaddr }
        some (true, { pool with
          table := table
          ctx := { pool.ctx with boList := pool.ctx.boList ++ [block] } })

/-- `list_last_entry` of the list is handed out. -/
def useLast (blocks : List Block) : Option (Block × List Block) :=
  blocks.getLast?.map fun last =>
    ({ last with idle := false }, blocks.dropLast ++ [{ last with idle := false }])

/-- `iaic_fast_alloc_bo`, which returns whether it gave out a buffer. -/
def alloc (pool : Pool) (size : Nat) (answer : Option AreaAnswer) : Option (Bool × Pool) :=
  if pool.ctx.mutexLock then none
  else
    match takeIdle (alignSize size) pool.ctx.boList with
    | some (curr, blocks) =>
      some (true, { pool with
        ctx := { pool.ctx with boList := blocks, mutexLock := false }
        outstanding := pool.outstanding ++ [curr.toBo size] })
    | none =>
      -- The loop ends at the list head, whose field `idle` is the lock word of the mutex taken above.
      let cleared := { pool with ctx := { pool.ctx with mutexLock := false } }
      match createBoNode cleared size answer with
      | none => none
      | some (false, grown) => some (false, grown)
      | some (true, grown) =>
        (useLast grown.ctx.boList).map fun (curr, blocks) =>
          (true, { grown with
            ctx := { grown.ctx with boList := blocks, mutexLock := false }
            outstanding := grown.outstanding ++ [curr.toBo size] })

/-- `iaic_fast_free_bo` on an outstanding buffer. -/
def freeBo (pool : Pool) (i : Nat) (bo : Bo) : Option Pool :=
  if bo.handle = 0 then some { pool with outstanding := pool.outstanding.eraseIdx i }
  else if pool.ctx.mutexLock then none
  else
    match lookup bo.paddr [] pool.ctx.boList with
    -- "Can not find this bo!"
    | none => some pool
    | some (before, curr, after) =>
      let (before, curr) := mergePrev before { curr with idle := true }
      let (curr, after) := mergeNext curr after
      -- The block of an area that is destroyed is freed, but its links and contents stay in place.
      some { pool with
        ctx := { pool.ctx with boList := before.reverse ++ curr :: after, mutexLock := false }
        outstanding := pool.outstanding.eraseIdx i
        table := if curr.isBo then pool.table.destroy curr.handle else pool.table }

/-- One call on the context; a `size_t` has 32 bits. -/
def step (pool : Pool) : PoolStep → Option Pool
  | .alloc size answer =>
    if size < 2 ^ 32 then (pool.alloc size answer).map Prod.snd else none
  | .free i =>
    match pool.outstanding[i]? with
    | none => none
    | some bo => pool.freeBo i bo

/-- A successful `iaic_ctx_init` with a pool, which also gives out the buffer `shared_bo`. -/
def ctxInit (table : BoTable) (task : Task) (memSize : Nat) (answer : AreaAnswer)
    (shared : Option AreaAnswer) : Option Pool :=
  let opened : Pool :=
    { ctx := { maxMemSize := memSize, boList := [], mutexLock := false }
      task := task
      table := table
      outstanding := [] }
  if 1 < memSize ∧ memSize < 2 ^ 32 then
    match createBoNode opened memSize (some answer) with
    | some (true, pool) =>
      match pool.alloc 0x10 shared with
      | some (true, initialised) => some initialised
      | _ => none
    | _ => none
  else none

end Pool

end Aip
