import Aip.Api.Buffers

/-! `iaic_ctx_init_internal` with its ladder of labels, over every answer of the calls it makes. -/

namespace Aip.CtxInit

/-- The codes of `iaic_ret_code_t` that the initialisation returns. -/
inductive Code where
  | ok
  | noAipDevice
  | noMemDevice
  | nnaStatusFail
  | nnaOramInitFail
  | nnaDmaInitFail
  | nnaDmaDesramInitFail
  | drvVersionNomatch
  | cpuFastIobInitFail
  | initFail
  | bo (code : BoCode)
  deriving DecidableEq, Repr

/-- The sizes that `NNA_OP_STATUS` answers with. -/
structure NnaStatus where
  currL2cSize : Nat
  oramSize : Nat
  dmaSize : Nat
  dmaDesramSize : Nat
  deriving DecidableEq, Repr

/-- The answers of all calls; one that is not made is ignored. Those of `mmap` are addresses. -/
structure Answers where
  aipOpens : Bool
  locks : Bool
  unlocks : Bool
  keyed : Bool
  shmCreated : Bool
  shmFound : Bool
  shmAttached : Bool
  shmMutexInit : Bool
  drvVersion : Nat
  chipVersion : Nat
  memOpens : Bool
  nna : Option NnaStatus
  oram : Nat
  dma : Nat
  dmaDesram : Nat
  cpuFastIob : Nat
  aipIob : Nat
  area : Option AreaAnswer
  shared : Option AreaAnswer
  deriving DecidableEq, Repr

/-- `AIP_V20_DRV_VERSION`. -/
def drvVersion : Nat := 0x20001

/-- The local variable `max_size`. -/
def Answers.maxSize (a : Answers) : Nat :=
  if a.chipVersion = chipA1 then 0x10000000 else 0x8000000

/-- What the process holds. -/
structure Held where
  aipFd : Bool
  memFd : Bool
  locked : Bool
  attached : Bool
  shmMutex : Bool
  ctxMutex : Bool
  maps : List (Nat × Nat)
  table : BoTable

/-- How the initialisation ends; the list of blocks is there once it has been initialised. -/
structure Outcome where
  code : Code
  held : Held
  pool : Option Pool
  sharedBo : Bo

/-- The contents of a record that nothing was written to. -/
def noBo : Bo := ⟨0, 0, 0, 0, 0, 0⟩

namespace Held

/-- A process that holds nothing. -/
def nothing (table : BoTable) : Held := ⟨false, false, false, false, false, false, [], table⟩

/-- `iaic_mutex_unlock`, whose result is ignored. -/
def unlock (s : Held) (a : Answers) : Held := { s with locked := !a.unlocks }

/-- A successful `mmap`, of whole pages. -/
def map (s : Held) (addr size : Nat) : Held :=
  { s with maps := s.maps ++ [(addr, BoTable.roundUp size)] }

/-- `munmap`: what a mapping has before the range and behind it stays. -/
def unmap (s : Held) (addr size : Nat) : Held :=
  { s with maps := s.maps.flatMap fun (start, length) =>
      let low := (start, min length (addr - start))
      let above := max start (addr + BoTable.roundUp size)
      [low, (above, start + length - above)].filter fun range => 0 < range.2 }

/-- The label `err`. -/
def err (s : Held) (code : Code) : Outcome := ⟨code, { s with aipFd := false }, none, noBo⟩

/-- The label `fail`. -/
def fail (s : Held) (code : Code) : Outcome := { s with memFd := false }.err code

/-- The label `nna_dma_fail`; the range starts `curr_l2c_size` below the mapping. -/
def nnaDmaFail (s : Held) (a : Answers) (nna : NnaStatus) (code : Code) : Outcome :=
  (s.unmap ((a.oram + (2 ^ 32 - nna.currL2cSize % 2 ^ 32)) % 2 ^ 32) nna.oramSize).fail code

/-- The label `nna_dma_desram_fail`. -/
def nnaDmaDesramFail (s : Held) (a : Answers) (nna : NnaStatus) (code : Code) : Outcome :=
  (s.unmap a.dma nna.dmaSize).nnaDmaFail a nna code

/-- The label `cpu_fast_iob_fail`. -/
def cpuFastIobFail (s : Held) (a : Answers) (nna : NnaStatus) (code : Code) : Outcome :=
  (s.unmap a.dmaDesram nna.dmaDesramSize).nnaDmaDesramFail a nna code

/-- The label `aip_iobase_fail`. -/
def aipIobaseFail (s : Held) (a : Answers) (nna : NnaStatus) (code : Code) : Outcome :=
  (s.unmap a.cpuFastIob pageSize).cpuFastIobFail a nna code

end Held

/-- The part under the cross-process lock, which attaches the shared memory. -/
def openShm (a : Answers) (s : Held) : Except Outcome Held :=
  -- Without the lock there is nothing to unlock.
  if a.locks = false then .error (s.err .initFail)
  else
    let s := { s with locked := true }
    if a.keyed = false then .error ((s.unlock a).err .initFail)
    else if a.shmCreated = false ∧ a.shmFound = false then .error ((s.unlock a).err .initFail)
    else if a.shmAttached = false then .error ((s.unlock a).err .initFail)
    else
      let s := { s with attached := true }
      -- `is_existing` is set when the first `shmget` fails.
      if a.shmCreated ∧ a.shmMutexInit = false then .error ((s.unlock a).err .initFail)
      else .ok ({ s with shmMutex := a.shmCreated }.unlock a)

/-- The versions, the size asked for, and the status of the NNA. -/
def readStatus (a : Answers) (memSize : Nat) (s : Held) : Except Outcome (Held × NnaStatus) :=
  -- From here on failures leave the shared memory attached.
  if a.drvVersion < drvVersion then .error (s.err .drvVersionNomatch)
  -- "Max_mem_size is set too large!"; `ret_code` is still the one of the status.
  else if a.maxSize < memSize then .error (s.err .ok)
  else if a.memOpens = false then .error (s.err .noMemDevice)
  else
    let s := { s with memFd := true }
    match a.nna with
    | none => .error (s.fail .nnaStatusFail)
    | some nna => .ok (s, nna)

/-- The five mappings. -/
def mapWindows (a : Answers) (nna : NnaStatus) (s : Held) : Except Outcome Held :=
  -- Each failure goes to the label that undoes the mappings before it.
  if a.oram = mapFailed then .error (s.fail .nnaOramInitFail)
  else
    let s := s.map a.oram nna.oramSize
    if a.dma = mapFailed then .error (s.nnaDmaFail a nna .nnaDmaInitFail)
    else
      let s := s.map a.dma nna.dmaSize
      if a.dmaDesram = mapFailed then .error (s.nnaDmaDesramFail a nna .nnaDmaDesramInitFail)
      else
        let s := s.map a.dmaDesram nna.dmaDesramSize
        if a.cpuFastIob = mapFailed then .error (s.cpuFastIobFail a nna .cpuFastIobInitFail)
        else
          let s := s.map a.cpuFastIob pageSize
          if a.aipIob = mapFailed then .error (s.aipIobaseFail a nna .cpuFastIobInitFail)
          else .ok (s.map a.aipIob pageSize)

/-- `return iaic_create_bo(ctx, 0x10, &ctx->shared_bo)`. -/
def createShared (a : Answers) (s : Held) (pool : Pool) : Option Outcome :=
  (pool.createBo 0x10 a.shared noBo).map fun called =>
    { code := if called.code = .ok then .ok else .bo called.code
      held := { s with table := called.pool.table }
      pool := some called.pool
      sharedBo := called.bo }

/-- The list of blocks and its first area. -/
def openPool (a : Answers) (nna : NnaStatus) (task : Task) (memSize : Nat) (s : Held) :
    Option Outcome :=
  -- `pthread_mutex_init` of the context's own mutex.
  let s := { s with ctxMutex := true }
  let opened := Pool.openedCtx s.table task memSize
  if 1 < memSize then
    match Pool.createBoNode opened memSize a.area with
    | none => none
    -- `ret_code` is still the one of the NNA's status.
    | some (false, _) => some ({ s with ctxMutex := false }.aipIobaseFail a nna .ok)
    | some (true, pool) => createShared a s pool
  -- Direct mode has no first area.
  else createShared a s opened

/-- `iaic_ctx_init_internal`; an answer that the kernel cannot give has no result. -/
def ctxInitInternal (table : BoTable) (task : Task) (memSize : Nat) (a : Answers) :
    Option Outcome :=
  let s := Held.nothing table
  if a.aipOpens = false then some ⟨.noAipDevice, s, none, noBo⟩
  else
    match openShm a { s with aipFd := true } with
    | .error outcome => some outcome
    | .ok s =>
      match readStatus a memSize s with
      | .error outcome => some outcome
      | .ok (s, nna) =>
        match mapWindows a nna s with
        | .error outcome => some outcome
        | .ok s => openPool a nna task memSize s

end Aip.CtxInit
