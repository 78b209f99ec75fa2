import Aip.Api.CtxInit

/-! When the initialisation of a context is all or nothing. -/

namespace Aip.CtxInit

/-- The mappings that the context keeps. -/
def Answers.windows (a : Answers) (nna : NnaStatus) : List (Nat × Nat) :=
  [(a.oram, BoTable.roundUp nna.oramSize), (a.dma, BoTable.roundUp nna.dmaSize),
    (a.dmaDesram, BoTable.roundUp nna.dmaDesramSize), (a.cpuFastIob, BoTable.roundUp pageSize),
    (a.aipIob, BoTable.roundUp pageSize)]

/-- The shared buffer is handed out, and it and every area of the pool are mapped. -/
structure Usable (pool : Pool) (sharedBo : Bo) : Prop where
  given : sharedBo ∈ pool.outstanding
  mapped : sharedBo.evaddr ≠ mapFailed
  areas : ∀ block ∈ pool.ctx.boList, block.isBo = true → block.vaddr ≠ mapFailed

/-- Everything was acquired, and the pool can be used. -/
structure Complete (a : Answers) (o : Outcome) : Prop where
  descriptors : o.held.aipFd = true ∧ o.held.memFd = true
  attached : o.held.attached = true
  windows : ∃ nna, a.nna = some nna ∧ ∀ window ∈ a.windows nna,
    window.1 ≠ mapFailed ∧ window ∈ o.held.maps
  mutex : o.held.ctxMutex = true
  pool : ∃ pool, o.pool = some pool ∧ Usable pool o.sharedBo

/-- Nothing is held any more, and the kernel's areas are those from before. -/
structure Released (table : BoTable) (held : Held) : Prop where
  descriptors : held.aipFd = false ∧ held.memFd = false
  unlocked : held.locked = false
  detached : held.attached = false
  mutexes : held.shmMutex = false ∧ held.ctxMutex = false
  unmapped : held.maps = []
  areas : held.table.handles = table.handles

/-- Success is reported for everything, and everything else leaves nothing behind. -/
structure AllOrNothing (table : BoTable) (a : Answers) (o : Outcome) : Prop where
  reports : o.code = .ok ↔ Complete a o
  releases : o.code ≠ .ok → Released table o.held

/-- A call fails before the shared memory is attached, and the lock is given back. -/
def StopsEarly (a : Answers) : Prop :=
  a.aipOpens = false ∨ a.locks = false ∨
    (a.unlocks = true ∧
      (a.keyed = false ∨ (a.shmCreated = false ∧ a.shmFound = false) ∨ a.shmAttached = false))

/-- The calls before the first mapping succeed. -/
structure Opens (a : Answers) (memSize : Nat) : Prop where
  aipOpens : a.aipOpens = true
  locks : a.locks = true
  keyed : a.keyed = true
  shm : a.shmCreated = true ∨ a.shmFound = true
  attached : a.shmAttached = true
  shmMutex : a.shmCreated = true → a.shmMutexInit = true
  version : drvVersion ≤ a.drvVersion
  size : memSize ≤ a.maxSize
  memOpens : a.memOpens = true
  nna : a.nna.isSome

/-- No `mmap` of the five fails. -/
def MapsAll (a : Answers) : Prop :=
  a.oram ≠ mapFailed ∧ a.dma ≠ mapFailed ∧ a.dmaDesram ≠ mapFailed ∧ a.cpuFastIob ≠ mapFailed ∧
    a.aipIob ≠ mapFailed

instance (a : Answers) : Decidable (MapsAll a) := inferInstanceAs (Decidable (_ ∧ _))

/-- An area is given out and mapped. -/
def Mapped (answer : Option AreaAnswer) : Prop := ∃ area, answer = some area ∧ area.vaddr ≠ mapFailed

/--
The first area is there, and so is a second one if the first has no 64 bytes for `shared_bo`.

Without a pool the buffer also has to lie where its pages around it can be mapped.
-/
def Pools (a : Answers) (memSize : Nat) : Prop :=
  (1 < memSize → Mapped a.area) ∧ (memSize < 64 → Mapped a.shared) ∧
    (memSize ≤ 1 → ∀ area, a.shared = some area → pageSize ≤ area.dma ∧ area.dma < 2 ^ 31 ∧
      (area.vaddr + pageSize) % 2 ^ 32 ≠ mapFailed)

variable {table : BoTable} {task : Task} {memSize : Nat} {a : Answers} {o : Outcome} {s t : Held}

/-- The call fails with a shared memory that stays attached, or with the lock. -/
def Leaks (o : Outcome) : Prop := (o.held.attached = true ∨ o.held.locked = true) ∧ o.pool = none

/-- What is left behind is not all, and not nothing. -/
theorem Leaks.not_sound (leaks : Leaks o) : ¬ AllOrNothing table a o := by
  -- Whichever code is returned, one half of the law fails.
  intro sound
  by_cases ok : o.code = .ok
  · -- Success is reported without a pool.
    obtain ⟨pool, there, _⟩ := (sound.reports.mp ok).pool
    rw [leaks.2] at there
    cases there
  · have released := sound.releases ok
    rcases leaks.1 with attached | locked
    · exact absurd attached (by simp [released.detached])
    · exact absurd locked (by simp [released.unlocked])

/-- A failure that leaves nothing behind is as claimed. -/
theorem sound_of_released (failed : o.code ≠ .ok) (none : o.pool = none)
    (released : Released table o.held) : AllOrNothing table a o := by
  -- Without a pool nothing is complete, so the code has to be an error.
  refine ⟨iff_of_false failed fun complete => ?_, fun _ => released⟩
  obtain ⟨pool, there, _⟩ := complete.pool
  rw [none] at there
  cases there

/-- A failure before the attachment gives the lock back, or keeps it if that fails too. -/
theorem unlock_early (opens : a.aipOpens = true) (locks : a.locks = true)
    (stopped : a.keyed = false ∨ (a.shmCreated = false ∧ a.shmFound = false) ∨ a.shmAttached = false)
    (s : Held) (fresh : s = { Held.nothing table with aipFd := true, locked := true }) :
    let o := (s.unlock a).err .initFail
    (StopsEarly a ∧ o.code ≠ .ok ∧ o.pool = none ∧ Released table o.held) ∨
      (¬ StopsEarly a ∧ ¬ Opens a memSize ∧ Leaks o) := by
  -- The lock is given back unless the ioctl fails, and its failure is ignored.
  subst fresh
  cases unlocks : a.unlocks with
  | true =>
    refine .inl ⟨.inr (.inr ⟨unlocks, stopped⟩), nofun, rfl, ⟨rfl, rfl⟩, ?_, rfl, ⟨rfl, rfl⟩, rfl, rfl⟩
    simp [Held.err, Held.unlock, unlocks]
  | false =>
    refine .inr ⟨by simp [StopsEarly, opens, locks, unlocks], fun all => ?_, .inr ?_, rfl⟩
    · rcases stopped with missing | missing | missing
      · simp [all.keyed] at missing
      · rcases all.shm with created | found
        · simp [created] at missing
        · simp [found] at missing
      · simp [all.attached] at missing
    · simp [Held.err, Held.unlock, unlocks]

/-- The part under the lock ends early, or with a leak, or with the shared memory attached. -/
theorem openShm_cases (opens : a.aipOpens = true) (table : BoTable) (memSize : Nat) :
    (∃ o, openShm a { Held.nothing table with aipFd := true } = .error o ∧
      ((StopsEarly a ∧ o.code ≠ .ok ∧ o.pool = none ∧ Released table o.held) ∨
        (¬ StopsEarly a ∧ ¬ Opens a memSize ∧ Leaks o))) ∨
    (∃ t, openShm a { Held.nothing table with aipFd := true } = .ok t ∧ ¬ StopsEarly a ∧
      (t.aipFd = true ∧ t.attached = true ∧ t.maps = [] ∧ t.table = table) ∧
      a.locks = true ∧ a.keyed = true ∧ (a.shmCreated = true ∨ a.shmFound = true) ∧
      a.shmAttached = true ∧ (a.shmCreated = true → a.shmMutexInit = true)) := by
  simp only [openShm]
  by_cases locks : a.locks = false
  · rw [if_pos locks]
    exact .inl ⟨_, rfl, .inl ⟨.inr (.inl locks), nofun, rfl, ⟨rfl, rfl⟩, rfl, rfl, ⟨rfl, rfl⟩, rfl, rfl⟩⟩
  rw [if_neg locks]
  have locks : a.locks = true := by simpa using locks
  by_cases keyed : a.keyed = false
  · rw [if_pos keyed]
    exact .inl ⟨_, rfl, unlock_early opens locks (.inl keyed) _ rfl⟩
  rw [if_neg keyed]
  by_cases shm : a.shmCreated = false ∧ a.shmFound = false
  · rw [if_pos shm]
    exact .inl ⟨_, rfl, unlock_early opens locks (.inr (.inl shm)) _ rfl⟩
  rw [if_neg shm]
  by_cases attached : a.shmAttached = false
  · rw [if_pos attached]
    exact .inl ⟨_, rfl, unlock_early opens locks (.inr (.inr attached)) _ rfl⟩
  rw [if_neg attached]
  -- From here on nothing detaches the shared memory again.
  have late : ¬ StopsEarly a := by
    rintro (closed | unlocked | ⟨_, stopped⟩)
    · simp [opens] at closed
    · simp [locks] at unlocked
    · exact stopped.elim keyed fun rest => rest.elim shm attached
  by_cases shmMutex : a.shmCreated = true ∧ a.shmMutexInit = false
  · rw [if_pos shmMutex]
    refine .inl ⟨_, rfl, .inr ⟨late, fun all => ?_, .inl rfl, rfl⟩⟩
    simp [all.shmMutex shmMutex.1] at shmMutex
  · rw [if_neg shmMutex]
    refine .inr ⟨_, rfl, late, ⟨rfl, rfl, rfl, rfl⟩, locks, by simpa using keyed, ?_,
      by simpa using attached, ?_⟩
    · by_contra neither
      simp only [not_or, Bool.not_eq_true] at neither
      exact shm neither
    · intro created
      by_contra failed
      exact shmMutex ⟨created, by simpa using failed⟩

/-- The descriptor of the memory and the sizes are there, or there is a leak. -/
theorem readStatus_cases (attached : s.attached = true) (memSize : Nat) :
    (∃ o, readStatus a memSize s = .error o ∧ ¬ Opens a memSize ∧ Leaks o) ∨
    (∃ nna, readStatus a memSize s = .ok ({ s with memFd := true }, nna) ∧ a.nna = some nna ∧
      drvVersion ≤ a.drvVersion ∧ memSize ≤ a.maxSize ∧ a.memOpens = true) := by
  -- Each test that stops leaves the shared memory attached.
  simp only [readStatus]
  by_cases version : a.drvVersion < drvVersion
  · rw [if_pos version]
    exact .inl ⟨_, rfl, fun all => absurd all.version (Nat.not_le.mpr version), .inl attached, rfl⟩
  rw [if_neg version]
  by_cases size : a.maxSize < memSize
  · rw [if_pos size]
    exact .inl ⟨_, rfl, fun all => absurd all.size (Nat.not_le.mpr size), .inl attached, rfl⟩
  rw [if_neg size]
  by_cases memOpens : a.memOpens = false
  · rw [if_pos memOpens]
    exact .inl ⟨_, rfl, fun all => by simp [all.memOpens] at memOpens, .inl attached, rfl⟩
  rw [if_neg memOpens]
  cases status : a.nna with
  | none =>
    refine .inl ⟨_, rfl, fun all => ?_, .inl attached, rfl⟩
    have known := all.nna
    simp [status] at known
  | some nna =>
    exact .inr ⟨nna, rfl, rfl, Nat.not_lt.mp version, Nat.not_lt.mp size, by simpa using memOpens⟩

section Labels

variable {nna : NnaStatus} {code : Code}

/-- No label detaches the shared memory. -/
theorem Leaks.fail (attached : s.attached = true) : Leaks (s.fail code) := ⟨.inl attached, rfl⟩

theorem Leaks.nnaDmaFail (attached : s.attached = true) : Leaks (s.nnaDmaFail a nna code) :=
  Leaks.fail (s := s.unmap _ _) attached

theorem Leaks.nnaDmaDesramFail (attached : s.attached = true) :
    Leaks (s.nnaDmaDesramFail a nna code) :=
  Leaks.nnaDmaFail (s := s.unmap _ _) attached

theorem Leaks.cpuFastIobFail (attached : s.attached = true) : Leaks (s.cpuFastIobFail a nna code) :=
  Leaks.nnaDmaDesramFail (s := s.unmap _ _) attached

theorem Leaks.aipIobaseFail (attached : s.attached = true) : Leaks (s.aipIobaseFail a nna code) :=
  Leaks.cpuFastIobFail (s := s.unmap _ _) attached

end Labels

/-- All five mappings are there, or there is a leak: no label detaches the shared memory. -/
theorem mapWindows_cases (attached : s.attached = true) (none : s.maps = []) (nna : NnaStatus) :
    (∃ o, mapWindows a nna s = .error o ∧ ¬ MapsAll a ∧ Leaks o) ∨
    (mapWindows a nna s = .ok { s with maps := a.windows nna } ∧ MapsAll a) := by
  -- The labels unmap what was mapped before, and each falls through to the next.
  simp only [mapWindows]
  by_cases oram : a.oram = mapFailed
  · rw [if_pos oram]
    exact .inl ⟨_, rfl, fun all => all.1 oram, .fail attached⟩
  rw [if_neg oram]
  by_cases dma : a.dma = mapFailed
  · rw [if_pos dma]
    exact .inl ⟨_, rfl, fun all => all.2.1 dma, .nnaDmaFail attached⟩
  rw [if_neg dma]
  by_cases dmaDesram : a.dmaDesram = mapFailed
  · rw [if_pos dmaDesram]
    exact .inl ⟨_, rfl, fun all => all.2.2.1 dmaDesram, .nnaDmaDesramFail attached⟩
  rw [if_neg dmaDesram]
  by_cases cpuFastIob : a.cpuFastIob = mapFailed
  · rw [if_pos cpuFastIob]
    exact .inl ⟨_, rfl, fun all => all.2.2.2.1 cpuFastIob, .cpuFastIobFail attached⟩
  rw [if_neg cpuFastIob]
  by_cases aipIob : a.aipIob = mapFailed
  · rw [if_pos aipIob]
    exact .inl ⟨_, rfl, fun all => all.2.2.2.2 aipIob, .aipIobaseFail attached⟩
  rw [if_neg aipIob]
  refine .inr ⟨?_, oram, dma, dmaDesram, cpuFastIob, aipIob⟩
  simp [Held.map, none, Answers.windows]

/-- The shared buffer from a pool whose first area is idle: the area serves it, or a second one. -/
theorem createBo_first {pool : Pool} {area : AreaAnswer} {shared : Option AreaAnswer} {bo : Bo}
    {called : Pool.Called} (pooled : 1 < memSize) (mode : pool.ctx.maxMemSize = memSize)
    (list : pool.ctx.boList = [⟨memSize, true, true, area.handle, area.dma, area.vaddr⟩])
    (created : pool.createBo 0x10 shared bo = some called) :
    (called.code = .ok ∧ Usable called.pool called.bo)
      ↔ area.vaddr ≠ mapFailed ∧ (memSize < 64 → Mapped shared) := by
  -- There is one block, of the size of the area.
  rw [Pool.createBo, if_pos (mode ▸ pooled)] at created
  obtain ⟨⟨done, after⟩, taken, rfl⟩ := Option.map_eq_some_iff.mp created
  have rounded : Pool.alignSize 0x10 = 64 := rfl
  obtain ⟨_, ⟨used, blocks, found, rfl, rfl⟩ | ⟨missing, rfl, rfl, rfl⟩ |
    ⟨missing, rfl, new, table, rfl, appended, rfl⟩⟩ := Pool.alloc_cases taken
  · -- The first area has the bytes, so the loop takes its block or a part of it.
    have large : ¬ memSize < 64 := by
      intro small
      have none : Pool.takeIdle 64 pool.ctx.boList = none := by
        apply Pool.takeIdle_eq_none.mpr
        intro block member _
        rw [list, List.mem_singleton] at member
        rw [member]
        exact small
      rw [rounded, none] at found
      cases found
    simp only [list, rounded, Pool.takeIdle, true_and, if_pos (Nat.not_lt.mp large)] at found
    simp only [if_true, List.getLastD_concat, large, false_implies, and_true, true_and]
    split at found
    · cases found
      constructor
      · exact fun usable => usable.mapped
      · exact fun mapped => ⟨by simp, mapped, by simpa using mapped⟩
    · cases found
      constructor
      · exact fun usable => usable.mapped
      · exact fun mapped => ⟨by simp, mapped, by simpa [Block.rest] using mapped⟩
  · -- "[IAIC] BO application failed"
    apply iff_of_false (fun usable => by cases usable.1)
    rintro ⟨_, served⟩
    have small := Pool.takeIdle_eq_none.mp missing _ (list ▸ List.mem_singleton_self _) rfl
    obtain ⟨area, given, _⟩ := served small
    cases given
  · have small : memSize < 64 :=
      Pool.takeIdle_eq_none.mp missing _ (list ▸ List.mem_singleton_self _) rfl
    simp only [if_true, List.getLastD_concat, small, forall_const, true_and]
    constructor
    · intro usable
      have first := usable.areas ⟨memSize, true, true, area.handle, area.dma, area.vaddr⟩
        (by simp [list]) rfl
      exact ⟨first, new, rfl, usable.mapped⟩
    · rintro ⟨first, other, given, mapped⟩
      cases given
      refine ⟨by simp, mapped, ?_⟩
      simp only [list, List.forall_mem_append, List.forall_mem_singleton]
      exact ⟨fun _ => first, fun _ => mapped⟩

/-- The shared buffer without a pool is an area of its own, with a page on each side. -/
theorem createBo_direct {shared : Option AreaAnswer} {called : Pool.Called} (direct : ¬ 1 < memSize)
    (created : (Pool.openedCtx table task memSize).createBo 0x10 shared noBo = some called) :
    (called.code = .ok ∧ Usable called.pool called.bo)
      ↔ Mapped shared ∧ ∀ area, shared = some area → pageSize ≤ area.dma ∧ area.dma < 2 ^ 31 ∧
        (area.vaddr + pageSize) % 2 ^ 32 ≠ mapFailed := by
  have mode : (Pool.openedCtx table task memSize).ctx.maxMemSize = memSize := rfl
  rw [Pool.createBo, mode, if_neg direct] at created
  obtain ⟨rfl, rfl⟩ | ⟨area, table, rfl, _,
    ⟨unplaced, _, _, _, failed, _, rfl⟩ | ⟨placed, record, _, _, mapping, rfl⟩⟩ :=
      Pool.directAllocBo_cases created
  · apply iff_of_false (fun usable => by cases usable.1)
    rintro ⟨⟨area, given, _⟩, _⟩
    cases given
  · -- The area is destroyed again.
    exact iff_of_false (fun usable => failed usable.1) fun given => unplaced (given.2 area rfl)
  · constructor
    · rintro ⟨_, usable⟩
      refine ⟨⟨area, rfl, fun failed => usable.mapped (mapping.trans failed)⟩, fun other given => ?_⟩
      cases given
      exact placed
    · rintro ⟨⟨other, given, mapped⟩, _⟩
      cases given
      exact ⟨rfl, by simp, fun failed => mapped (mapping.symm.trans failed),
        by simp [Pool.openedCtx]⟩

/-- The last call ends the initialisation with what is held up to there. -/
theorem createShared_spec {pool : Pool} (ended : createShared a s pool = some o) :
    ∃ called, pool.createBo 0x10 a.shared noBo = some called ∧
      (o.code = .ok ↔ called.code = .ok) ∧ o.pool = some called.pool ∧ o.sharedBo = called.bo ∧
      o.held = { s with table := called.pool.table } := by
  -- The code is the only thing that depends on how the call ends.
  obtain ⟨called, created, rfl⟩ := Option.map_eq_some_iff.mp ended
  refine ⟨called, created, ?_, rfl, rfl, rfl⟩
  by_cases ok : called.code = .ok <;> simp [ok]

/-- The outcome once everything up to the mappings is there: only the pool decides. -/
theorem sound_pool {called : Pool.Called} {nna : NnaStatus} (status : a.nna = some nna)
    (maps : MapsAll a) (code : o.code = .ok ↔ called.code = .ok) (pool : o.pool = some called.pool)
    (bo : o.sharedBo = called.bo) (held : o.held = { s with table := called.pool.table })
    (fds : s.aipFd = true ∧ s.memFd = true) (attached : s.attached = true)
    (windows : s.maps = a.windows nna) (mutex : s.ctxMutex = true) :
    AllOrNothing table a o ↔ called.code = .ok ∧ Usable called.pool called.bo := by
  -- What is held is complete up to the pool, and no label runs any more.
  constructor
  · intro sound
    by_cases ok : o.code = .ok
    · obtain ⟨other, there, usable⟩ := (sound.reports.mp ok).pool
      cases pool.symm.trans there
      exact ⟨code.mp ok, bo ▸ usable⟩
    · -- A failure of the last call releases nothing.
      have released := sound.releases ok
      rw [held] at released
      have detached : s.attached = false := released.detached
      exact absurd attached (by simp [detached])
  · rintro ⟨ok, usable⟩
    have complete : Complete a o := by
      refine ⟨by rw [held]; exact fds, by rw [held]; exact attached, ⟨nna, status, ?_⟩,
        by rw [held]; exact mutex, called.pool, pool, bo ▸ usable⟩
      intro window listed
      refine ⟨?_, by rw [held]; exact windows ▸ listed⟩
      obtain ⟨oram, dma, dmaDesram, cpuFastIob, aipIob⟩ := maps
      simp only [Answers.windows, List.mem_cons, List.not_mem_nil, or_false] at listed
      rcases listed with rfl | rfl | rfl | rfl | rfl <;> assumption
    exact ⟨iff_of_true (code.mpr ok) complete, fun failed => absurd (code.mpr ok) failed⟩

/-- The pool is there and serves the shared buffer, exactly if the outcome is as claimed. -/
theorem openPool_iff {nna : NnaStatus} (status : a.nna = some nna) (maps : MapsAll a)
    (fds : s.aipFd = true ∧ s.memFd = true) (attached : s.attached = true)
    (windows : s.maps = a.windows nna) (ended : openPool a nna task memSize s = some o) :
    AllOrNothing table a o ↔ Pools a memSize := by
  -- With a pool the first area comes before the shared buffer, without one there is only that.
  simp only [openPool] at ended
  split at ended
  case isTrue pooled =>
    have direct : ¬ memSize ≤ 1 := Nat.not_le.mpr pooled
    split at ended
    case h_1 => cases ended
    case h_2 refused =>
      cases ended
      refine iff_of_false (Leaks.not_sound (Leaks.aipIobaseFail attached)) ?_
      rintro ⟨first, _⟩
      obtain ⟨area, given, _⟩ := first pooled
      simp only [Pool.createBoNode, given, Pool.openedCtx] at refused
      split at refused <;> simp at refused
    case h_3 pool grown =>
      obtain ⟨called, created, code, there, bo, held⟩ := createShared_spec ended
      rw [sound_pool status maps code there bo held fds attached windows rfl]
      cases answer : a.area with
      | none => simp [Pool.createBoNode, answer] at grown
      | some area =>
        simp only [Pool.createBoNode, answer, Pool.openedCtx, Bool.false_eq_true, if_false] at grown
        split at grown
        case h_1 => simp at grown
        case h_2 =>
          cases grown
          rw [createBo_first pooled rfl rfl created]
          simp only [Pools, pooled, forall_const, direct, false_implies, and_true, answer]
          apply and_congr_left
          intro _
          constructor
          · exact fun mapped => ⟨area, rfl, mapped⟩
          · rintro ⟨other, given, mapped⟩
            cases given
            exact mapped
  case isFalse direct =>
    obtain ⟨called, created, code, there, bo, held⟩ := createShared_spec ended
    rw [sound_pool status maps code there bo held fds attached windows rfl]
    rw [createBo_direct direct created]
    have small : memSize < 64 := by omega
    have none : memSize ≤ 1 := by omega
    simp only [Pools, direct, false_implies, small, none, forall_const, true_and]

/-- How the initialisation ends: early, with a leak, or with the pool. -/
theorem ctxInitInternal_cases (ended : ctxInitInternal table task memSize a = some o) :
    (StopsEarly a ∧ o.code ≠ .ok ∧ o.pool = none ∧ Released table o.held) ∨
    (¬ StopsEarly a ∧ ¬ (Opens a memSize ∧ MapsAll a) ∧ Leaks o) ∨
    (¬ StopsEarly a ∧ Opens a memSize ∧ MapsAll a ∧ ∃ nna t, a.nna = some nna ∧
      (t.aipFd = true ∧ t.memFd = true) ∧ t.attached = true ∧ t.maps = a.windows nna ∧
      t.table = table ∧ openPool a nna task memSize t = some o) := by
  -- The parts of the function one after the other; each may stop it.
  simp only [ctxInitInternal] at ended
  by_cases closed : a.aipOpens = false
  · rw [if_pos closed] at ended
    cases ended
    exact .inl ⟨.inl closed, nofun, rfl, ⟨rfl, rfl⟩, rfl, rfl, ⟨rfl, rfl⟩, rfl, rfl⟩
  rw [if_neg closed] at ended
  have opens : a.aipOpens = true := by simpa using closed
  rcases openShm_cases opens table memSize with
    ⟨early, stopped, clean | ⟨late, not, leaks⟩⟩ |
      ⟨t, opened, late, ⟨aipFd, attached, maps, same⟩, locks, keyed, found, shmAttached, shmMutex⟩
  · rw [stopped] at ended
    cases ended
    exact .inl clean
  · rw [stopped] at ended
    cases ended
    exact .inr (.inl ⟨late, fun all => not all.1, leaks⟩)
  rw [opened] at ended
  dsimp only at ended
  rcases readStatus_cases (a := a) attached memSize with
    ⟨wrong, stopped, not, leaks⟩ | ⟨nna, read, status, version, size, memOpens⟩
  · rw [stopped] at ended
    cases ended
    exact .inr (.inl ⟨late, fun all => not all.1, leaks⟩)
  rw [read] at ended
  dsimp only at ended
  rcases mapWindows_cases (a := a) (s := { t with memFd := true }) attached maps nna with
    ⟨wrong, stopped, not, leaks⟩ | ⟨mapped, windows⟩
  · rw [stopped] at ended
    cases ended
    exact .inr (.inl ⟨late, fun all => not all.2, leaks⟩)
  rw [mapped] at ended
  dsimp only at ended
  refine .inr (.inr ⟨late, ?_, windows, nna, { t with memFd := true, maps := a.windows nna }, status,
    ⟨aipFd, rfl⟩, attached, rfl, same, ended⟩)
  exact ⟨opens, locks, keyed, found, shmAttached, shmMutex, version, size, memOpens, by simp [status]⟩

/-- The pool of a successful initialisation is a new context of the mode asked for. -/
theorem ctxInitInternal_pool {pool : Pool} (ended : ctxInitInternal table task memSize a = some o)
    (ok : o.code = .ok) (there : o.pool = some pool) :
    ∃ area, Pool.initCtx table task memSize area a.shared = some pool := by
  -- Only the last of the cases has a pool.
  rcases ctxInitInternal_cases ended with ⟨_, failed, _⟩ | ⟨_, _, _, none⟩ |
    ⟨_, opens, _, nna, t, _, _, _, _, rfl, opened⟩
  · exact absurd ok failed
  · cases none.symm.trans there
  simp only [openPool] at opened
  split at opened
  case isTrue pooled =>
    have bounded : memSize < 2 ^ 32 := by
      have size := opens.size
      simp only [Answers.maxSize] at size
      split at size <;> omega
    split at opened
    case h_1 => cases opened
    case h_2 =>
      cases opened
      cases there
    case h_3 grown created =>
      obtain ⟨called, shared, code, pool', _⟩ := createShared_spec opened
      cases pool'.symm.trans there
      cases answer : a.area with
      | none => simp [Pool.createBoNode, answer] at created
      | some area =>
        refine ⟨area, ?_⟩
        rw [answer] at created
        have mode : grown.ctx.maxMemSize = memSize := by
          simp only [Pool.createBoNode, Pool.openedCtx, Bool.false_eq_true, if_false] at created
          split at created
          case h_1 => simp at created
          case h_2 =>
            cases created
            rfl
        rw [Pool.createBo, mode, if_pos pooled] at shared
        obtain ⟨⟨done, after⟩, taken, rfl⟩ := Option.map_eq_some_iff.mp shared
        cases done with
        | false => cases code.mp ok
        | true =>
          simp only [Pool.initCtx, if_pos pooled, Pool.ctxInit, if_pos (And.intro pooled bounded)]
          simp only [Pool.openedCtx] at created
          rw [created]
          simp only [taken]
          rfl
  case isFalse direct =>
    obtain ⟨called, shared, code, pool', _⟩ := createShared_spec opened
    cases pool'.symm.trans there
    refine ⟨⟨0, 0, 0⟩, ?_⟩
    have created : (Pool.openedCtx t.table task memSize).createBo 0x10 a.shared ⟨0, 0, 0, 0, 0, 0⟩
        = some called := shared
    rw [Pool.initCtx, if_neg direct, created, Option.bind_some, if_pos (code.mp ok)]

/--
The initialisation is all or nothing, exactly if it fails before the shared memory is attached with
the lock given back, or nothing fails at all.
-/
theorem allOrNothing_iff (ended : ctxInitInternal table task memSize a = some o) :
    AllOrNothing table a o ↔ StopsEarly a ∨ (Opens a memSize ∧ MapsAll a ∧ Pools a memSize) := by
  -- An early stop is clean, a later one leaks, and then the pool decides.
  rcases ctxInitInternal_cases ended with ⟨early, failed, none, released⟩ | ⟨late, not, leaks⟩ |
    ⟨late, opens, maps, nna, t, status, fds, attached, windows, _, opened⟩
  · exact iff_of_true (sound_of_released failed none released) (.inl early)
  · apply iff_of_false leaks.not_sound
    rintro (early | ⟨opens, maps, _⟩)
    · exact late early
    · exact not ⟨opens, maps⟩
  · rw [openPool_iff status maps fds attached windows opened]
    simp only [late, false_or, opens, maps, true_and]

/-- The answers on a chip whose first-level cache is empty, with nothing that fails. -/
def served : Answers where
  aipOpens := true
  locks := true
  unlocks := true
  keyed := true
  shmCreated := true
  shmFound := false
  shmAttached := true
  shmMutexInit := true
  drvVersion := 0x20001
  chipVersion := 0x41
  memOpens := true
  nna := some ⟨0, 0x10000, 0x1000, 0x4000⟩
  oram := 0x70000000
  dma := 0x70100000
  dmaDesram := 0x70200000
  cpuFastIob := 0x70300000
  aipIob := 0x70400000
  area := some ⟨0x1000000, 1, 0x71000000⟩
  shared := none

/-- A pool of a page is there as a whole. -/
theorem allOrNothing_iff_served : ∃ o, ctxInitInternal .init ⟨1, 1⟩ 4096 served = some o ∧
    AllOrNothing .init served o := by
  obtain ⟨o, ended⟩ : ∃ o, ctxInitInternal .init ⟨1, 1⟩ 4096 served = some o := ⟨_, rfl⟩
  refine ⟨o, ended, (allOrNothing_iff ended).mpr (.inr ⟨?_, by decide, ?_⟩)⟩
  · exact ⟨rfl, rfl, rfl, .inl rfl, rfl, fun _ => rfl, by decide, by decide, rfl, rfl⟩
  · exact ⟨fun _ => ⟨_, rfl, by decide⟩, fun small => absurd small (by decide),
      fun small => absurd small (by decide)⟩

/-- A size that is too large is reported as success, with nothing there but the shared memory. -/
theorem not_allOrNothing_large : ∃ o,
    ctxInitInternal .init ⟨1, 1⟩ 0x8000001 served = some o ∧ o.code = .ok ∧ o.pool = none ∧
      o.held.aipFd = false ∧ o.held.attached = true ∧ ¬ AllOrNothing .init served o := by
  -- The code says success, so there would have to be a pool.
  refine ⟨_, rfl, rfl, rfl, rfl, rfl, fun sound => ?_⟩
  obtain ⟨pool, there, _⟩ := (sound.reports.mp rfl).pool
  cases there

end Aip.CtxInit
