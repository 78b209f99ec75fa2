import Aip.Hal.Chainbuf

/-! `ingenic_aip_init`, the process calls and `ingenic_aip_deinit` of the T41 and of the A1 library. -/

namespace Aip

/-- The chips whose libraries are two copies of one text. -/
inductive Chip where
  | t41
  | a1
  deriving DecidableEq, Repr

/-- A cached array of nodes, `pnode`, `anode` or `fnode`, with its size in bytes. -/
structure NodeCache where
  ptr : Ptr
  size : Nat
  deriving DecidableEq, Repr

/-- The caches; `ingenic_aip_perspective_process` has `pnode`, and the affine one has `anode`. -/
inductive CacheIndex where
  | pnode
  | anode
  | fnode
  deriving DecidableEq, Repr

/--
The variables of the library, and as history: what nothing points to any more though it was never
released, whether something was released twice or used behind its release, and how many successful
inits have not been followed by a deinit.
-/
structure AipLib where
  -- `open_cnt` on the T41, an `uint32_t`, and `manage_malloc_count` on the A1, an `int`.
  count : Int
  manage : AipIndex → AipManage
  chainBufSize : Nat
  -- The mapped registers, and the descriptor of `/dev/mem`.
  regs : Ptr
  memFd : Ptr
  cache : CacheIndex → NodeCache
  -- `dst_base_useless_vaddr`, which only the A1 has.
  dummy : Ptr
  leaked : Nat
  broken : Bool
  outstanding : Nat

/-- What the system answers to an init: three times `malloc`, `open`, `mmap`, and `ddr_memalign`. -/
structure InitAnswers where
  managers : AipIndex → Bool
  opened : Bool
  mapped : Bool
  dummy : Bool

/-- The process calls; `bs_covert_cfg` is the one of the T unit. -/
inductive ProcessKind where
  | affine
  | perspective
  | covert
  | resize
  deriving DecidableEq, Repr

/-- A process call, with the answers to the `malloc` of its nodes and to `aip_chainbuf_alloc`. -/
structure ProcessCall where
  kind : ProcessKind
  boxNum : Int
  malloc : Bool
  answers : ChainbufAnswers
  deriving DecidableEq, Repr

/-- The calls on the library. -/
inductive LibStep where
  | init (answers : InitAnswers)
  | process (call : ProcessCall)
  | deinit

/-- One more of the things that stand for something. -/
def Ptr.held (ptr : Ptr) : Nat := if ptr = .live then 1 else 0

namespace AipManage

/-- `NULL`. -/
def null : AipManage :=
  { ptr := .null, fdOpenCnt := 0, fd := .null, chainNum := 0, size := 0, buffer := .null,
    mapped := 0 }

/-- What a manager has of its own: the descriptor, the buffer and the mapping. -/
def held (manage : AipManage) : Nat :=
  manage.fd.held + manage.buffer.held + if 0 < manage.mapped then 1 else 0

/-- The pages of a number of bytes. -/
def pages (bytes : Nat) : Nat := (bytes + 4095) / 4096

/-- `aip_chainbuf_free`, and whether it has released something twice. -/
def chainbufFree (manage : AipManage) : AipManage × Bool :=
  if 0 < manage.fdOpenCnt then
    let closed := { manage with fd := .stale }
    if manage.chainNum = 0 then (closed, decide (manage.fd ≠ .live))
    else
      -- `munmap` takes away the pages of the size that the last call has recorded.
      ({ closed with
          mapped := manage.mapped - 4096 * pages manage.size
          buffer := if manage.buffer = .live then .stale else manage.buffer },
        decide (manage.fd ≠ .live ∨ pages manage.mapped < pages manage.size))
  else (manage, false)

end AipManage

namespace AipLib

/-- The library when the program starts. -/
def start : AipLib :=
  { count := 0, manage := fun _ => .null, chainBufSize := 0, regs := .null, memFd := .null,
    cache := fun _ => ⟨.null, 0⟩, dummy := .null, leaked := 0, broken := false, outstanding := 0 }

/-- Set one of the managers. -/
def setManage (lib : AipLib) (index : AipIndex) (manage : AipManage) : AipLib :=
  { lib with manage := fun other => if other = index then manage else lib.manage other }

/-- Set one of the caches. -/
def setCache (lib : AipLib) (index : CacheIndex) (cache : NodeCache) : AipLib :=
  { lib with cache := fun other => if other = index then cache else lib.cache other }

/-- Something is released, which must not have been released before. -/
def releasing (lib : AipLib) (ptr : Ptr) : AipLib :=
  { lib with broken := lib.broken || decide (ptr = .stale) }

/-- The pointer of a manager is filled in by `malloc`, unless it is set. -/
def allocManager (lib : AipLib) (index : AipIndex) (answers : InitAnswers) : Option AipLib :=
  if (lib.manage index).ptr = .null then
    if answers.managers index then some (lib.setManage index .fresh) else none
  else some lib

/-- `get_aip_ioaddr`, whose failures nobody looks at, and the reset of the counters behind it. -/
def getIoaddr (lib : AipLib) (answers : InitAnswers) : AipLib :=
  { lib with
    leaked := lib.leaked + lib.memFd.held + lib.regs.held + (lib.manage .p).held +
      (lib.manage .t).held + (lib.manage .f).held
    memFd := if answers.opened then .live else .null
    regs := if answers.opened ∧ answers.mapped then .live else .null
    manage := fun index =>
      { lib.manage index with fdOpenCnt := 0, fd := .null, buffer := .null, mapped := 0 } }

/-- The body of `aip_mem_init`: whether it succeeds, and the managers that it has got. -/
def memInit (lib : AipLib) (answers : InitAnswers) : Bool × AipLib :=
  match lib.allocManager .p answers with
  | none => (false, lib)
  | some lib =>
    match lib.allocManager .f answers with
    | none => (false, lib)
    | some lib =>
      match lib.allocManager .t answers with
      | none => (false, lib)
      | some lib => (true, lib.getIoaddr answers)

/-- The caches are forgotten, whether or not they are in use. -/
def forgetCaches (lib : AipLib) : AipLib :=
  { lib with
    leaked := lib.leaked + (lib.cache .pnode).ptr.held + (lib.cache .anode).ptr.held +
      (lib.cache .fnode).ptr.held
    cache := fun _ => ⟨.null, 0⟩ }

/-- `ingenic_aip_init`, and whether it returns 0. -/
def init (chip : Chip) (lib : AipLib) (answers : InitAnswers) : Bool × AipLib :=
  match chip with
  | .t41 =>
    let lib : AipLib := { lib with count := (lib.count + 1) % 2 ^ 32 }
    -- "Ingenic AIP has been init!"
    if 1 < lib.count then (true, { lib with outstanding := lib.outstanding + 1 })
    else
      match lib.memInit answers with
      | (false, lib) => (false, lib)
      | (true, lib) => (true, { lib.forgetCaches with outstanding := lib.outstanding + 1 })
  | .a1 =>
    match if lib.count = 0 then lib.memInit answers else (true, lib) with
    | (false, lib) => (false, lib)
    | (true, lib) =>
      (true, { lib.forgetCaches with
        count := lib.count + 1
        leaked := lib.forgetCaches.leaked + lib.dummy.held
        dummy := if answers.dummy then .live else .null
        outstanding := lib.outstanding + 1 })

/-- A cache is freed if its pointer is set, and the pointer stays. -/
def freeCache (lib : AipLib) (index : CacheIndex) : AipLib :=
  let cache := lib.cache index
  if cache.ptr = .null then lib
  else (lib.releasing cache.ptr).setCache index { cache with ptr := .stale }

/-- A manager is freed with its chain buffer, if its pointer is set. -/
def freeManager (lib : AipLib) (index : AipIndex) : AipLib :=
  let manage := lib.manage index
  if manage.ptr = .null then lib
  else
    let lib := (lib.releasing manage.ptr).setManage index .null
    { lib with
      leaked := lib.leaked + manage.chainbufFree.1.held
      broken := lib.broken || manage.chainbufFree.2 }

/-- `release_aip_ioaddr` of a manager. -/
def releaseIoaddr (chip : Chip) (lib : AipLib) : AipLib :=
  match chip with
  | .t41 =>
    { lib with
      broken := lib.broken || decide ((lib.manage .p).ptr ≠ .live ∨ lib.regs = .stale)
      regs := if lib.regs = .live then .stale else lib.regs
      memFd := if lib.memFd = .live then .stale else lib.memFd }
  -- It reads the size and the descriptor of `manage_f`, in which they are never set.
  | .a1 => { lib with broken := lib.broken || decide ((lib.manage .f).ptr ≠ .live) }

/-- The body of `aip_mem_free`. -/
def memFree (chip : Chip) (lib : AipLib) : AipLib :=
  (((lib.releaseIoaddr chip).freeManager .p).freeManager .f).freeManager .t

/-- The caches are freed. -/
def freeCaches (lib : AipLib) : AipLib :=
  ((lib.freeCache .pnode).freeCache .anode).freeCache .fnode

/-- `ingenic_aip_deinit`. -/
def deinit (chip : Chip) (lib : AipLib) : AipLib :=
  let returned := { lib with outstanding := lib.outstanding - 1 }
  match chip with
  | .t41 =>
    let lib : AipLib := { returned with count := (returned.count - 1) % 2 ^ 32 }
    -- "still need to be deinit %d times"
    if 1 < lib.count then { lib with count := lib.count - 1 }
    -- An unsigned counter is never below zero, so the check for one deinit too many is dead.
    else lib.freeCaches.memFree chip
  | .a1 =>
    let lib : AipLib :=
      { returned with dummy := if returned.dummy = .live then .null else returned.dummy }
    let lib : AipLib := { lib.freeCaches with count := lib.count - 1 }
    if lib.count = 0 then lib.memFree chip else lib

end AipLib

namespace ProcessCall

/-- The cache of the call and the size of its nodes; the T unit has a node on the stack. -/
def cache (call : ProcessCall) : Option (CacheIndex × Nat) :=
  match call.kind with
  | .affine => some (.anode, 104)
  | .perspective => some (.pnode, 104)
  | .covert => none
  | .resize => some (.fnode, 48)

/-- The unit that works on the call. -/
def index (call : ProcessCall) : AipIndex :=
  match call.kind with
  | .affine => .p
  | .perspective => .p
  | .covert => .t
  | .resize => .f

/-- The number of nodes; on the A1 a resize has one more. -/
def nodes (chip : Chip) (call : ProcessCall) : Int :=
  match call.kind, chip with
  | .covert, _ => 1
  | .resize, .a1 => call.boxNum + 1
  | _, _ => call.boxNum

/-- The bytes of the nodes, on 32 bits. -/
def nodeBytes (chip : Chip) (call : ProcessCall) (size : Nat) : Nat :=
  (size * call.nodes chip % 2 ^ 32).toNat

/-- The size of the chain; the descriptor of the F unit has one entry more on the A1. -/
def chainBytes (chip : Chip) (call : ProcessCall) : Nat :=
  match call.index, chip with
  | .f, .a1 => (112 * call.nodes chip % 2 ^ 32).toNat
  | index, _ => chainSize index (call.nodes chip)

/-- An `int`, and a kernel that hands out at least what it is asked for. -/
def Possible (chip : Chip) (call : ProcessCall) : Prop :=
  (-2 ^ 31 ≤ call.boxNum ∧ call.boxNum < 2 ^ 31) ∧
    ∀ size ∈ call.answers.malloc, (call.chainBytes chip + 4096) % 2 ^ 32 ≤ size ∧ size < 2 ^ 32

instance (chip : Chip) (call : ProcessCall) : Decidable (call.Possible chip) :=
  inferInstanceAs (Decidable (_ ∧ _))

end ProcessCall

namespace AipLib

/-- The nodes of the call get a cache that is large enough, or there is no memory for it. -/
def growCache (chip : Chip) (lib : AipLib) (call : ProcessCall) : Bool × AipLib :=
  match call.cache with
  | none => (true, lib)
  | some (index, size) =>
    let bytes := call.nodeBytes chip size
    let cache := lib.cache index
    if cache.size < bytes then
      let lib := lib.releasing cache.ptr
      if call.malloc then (true, lib.setCache index ⟨.live, bytes⟩)
      else (false, lib.setCache index ⟨.null, 0⟩)
    -- The nodes are written through the pointer as it is.
    else (true, { lib with broken := lib.broken || decide (0 < bytes ∧ cache.ptr ≠ .live) })

/-- The manager as the call leaves it to `aip_chainbuf_alloc`. -/
def prepared (chip : Chip) (lib : AipLib) (call : ProcessCall) : AipManage :=
  { lib.manage call.index with
    chainNum := (call.nodes chip % 2 ^ 32).toNat
    size := call.chainBytes chip }

/-- `aip_p_init` and its like: a manager that is not there is refused, one that was freed is used. -/
def chainInit (chip : Chip) (lib : AipLib) (call : ProcessCall) : AipLib :=
  if (lib.manage call.index).ptr = .null then lib
  else
    let prepared := lib.prepared chip call
    let alloc := aipChainbufAlloc lib.chainBufSize prepared call.answers
    { lib.setManage call.index alloc.manage with
      chainBufSize := alloc.chainBufSize
      -- A second rejection closes the descriptor a second time.
      broken := lib.broken || decide (prepared.ptr = .stale) ||
        (alloc.tooMuch && decide (prepared.fd ≠ .live)) }

/-- A process call. -/
def process (chip : Chip) (lib : AipLib) (call : ProcessCall) : AipLib :=
  match lib.growCache chip call with
  | (false, lib) => lib
  | (true, lib) =>
    -- On the A1 a resize first flushes the dummy buffer.
    let dummy := decide (chip = .a1 ∧ call.kind = .resize ∧ lib.dummy ≠ .live)
    ({ lib with broken := lib.broken || dummy }).chainInit chip call

/-- One call; a process call that the system cannot answer has no result. -/
def step (chip : Chip) (lib : AipLib) : LibStep → Option AipLib
  | .init answers => some (lib.init chip answers).2
  | .process call => if call.Possible chip then some (lib.process chip call) else none
  | .deinit => some (lib.deinit chip)

end AipLib

end Aip
