import Mathlib.Data.List.Perm.Basic
import Aip.Driver.AieMmap

/-! When `__aie_mmap` is all or nothing, over every answer of the system. -/

namespace Aip.AieMmap

/-- The text of the command line names memory that is there. -/
def nmemNamed (text : List Char) : Bool :=
  match nmemOf text with
  | .found addr size => addr ≠ 0 ∧ size ≠ 0
  | _ => false

/-- The system grants what a step asks for. -/
def Stage.granted (env : Env) (w : World) : Stage → Bool
  | openMem => 0 ≤ openAs env w .mem
  | openSocNna => 0 ≤ openAs env w .socNna
  | openNnaLock => w.multiprocessChoose = 0 ∨ 0 ≤ openAs env w .nnaLock
  | oramL2cache => (mapAs env w .l2cacheSize).isSome
  | nndmaIo => (mapAs env w .nndmaIo).isSome
  | nndmaDesram => (mapAs env w .nndmaDesram).isSome
  | oram => (mapAs env w .oram).isSome
  | nmemInfo => (env.cmdline.join.map nmemNamed).getD false
  | ddrAlloc =>
    if w.bUseRmem ≠ 0 then
      w.ddrMemSize = 0 ∨ (env.nmemInit w.nnalockfd { w.unmem with size := w.ddrMemSize }).isSome
    else (env.nnaMalloc w.nnafd w.ddrNnaBuf).isSome
  | version => env.version w.nnafd (versionBuf w)
  | ddr => (mapAs env w .ddr).isSome
  | nndmaFastio => (mapAs env w .nndmaFastio).isSome
  | ddrMemoryInit => env.ddrMemoryInit w.ddrVbase (u32 w.ddrMemSize)

/-- The first of several steps for which the system does not grant what it asks for. -/
def refusal (env : Env) : List Stage → World → Option Stage
  | [], _ => none
  | stage :: rest, w =>
    if stage.granted env w then
      match stage.perform env w with
      | .ok w => refusal env rest w
      | .error _ => none
    else some stage

/-- The first step of a call for which the system does not grant what it asks for. -/
def refused (env : Env) (args : Args) (entry : Statics) : Option Stage :=
  refusal env stages (enter args entry)

/-- A call succeeds exactly when all its steps do, and gives everything back otherwise; after a
success the other function gives everything back. -/
structure AllOrNothing (env : Env) (args : Args) (entry : Statics) : Prop where
  zero : (aieMmap env args entry).1 = .returned 0 ↔ refused env args entry = none
  undone : refused env args entry ≠ none → (aieMmap env args entry).1 = .returned (-1) ∧
    (aieMmap env args entry).2.released.Perm (aieMmap env args entry).2.acquired
  unmapped : (aieMmap env args entry).1 = .returned 0 →
    (aieMunmap env (aieMmap env args entry).2).2.released.Perm
      (aieMunmap env (aieMmap env args entry).2).2.acquired

/-- The command line mentions the memory without an `@` behind it, and is read through null. -/
def Unreadable (env : Env) : Prop := env.cmdline.join.map nmemOf = some .crash

/-- The steps in front of which the descriptor of the lock is still that of the entry. -/
def Stage.opens (stage : Stage) : Bool :=
  stage = .openMem ∨ stage = .openSocNna ∨ stage = .openNnaLock

/-- A step fails, and the first one that does is undone: it is neither the mapping of the register
nor the request for the version, the command line can be read through, and a call for a single
process that fails behind the opening of its files finds no descriptor of the lock from before. -/
def Undone (env : Env) (args : Args) (entry : Statics) : Prop :=
  ∃ stage, refused env args entry = some stage ∧ stage ≠ .oramL2cache ∧ stage ≠ .version ∧
    (stage = .nmemInfo → ¬ Unreadable env) ∧
      (stage.opens = false → args.ddrMemSize = 0 → entry.nnalockfd < 0)

/-- What the labels from one on give back. -/
def held (w : World) (label : Label) : List Resource := (below label).flatMap (rung w)

/-- The label that gives back what is held in front of a step. -/
def Stage.label : Stage → Label
  | openMem => .errOpenMem
  | openSocNna => .errOpenSocNna
  | openNnaLock => .errOpenNnaLock
  | oramL2cache => .errOramRealSize
  | nndmaIo => .errMmapNndmaIo
  | nndmaDesram => .errMmapNndmaDesram
  | oram => .errMmapOram
  | nmemInfo => .errGetRmemInfo
  | ddrAlloc => .errIoctlNnaMalloc
  | version | ddr => .errMmapDdrNna
  | nndmaFastio => .errMmapFastio
  | ddrMemoryInit => .errDdrMemoryInit

/-- The step behind another. -/
def Stage.next : Stage → Option Stage
  | openMem => some openSocNna
  | openSocNna => some openNnaLock
  | openNnaLock => some oramL2cache
  | oramL2cache => some nndmaIo
  | nndmaIo => some nndmaDesram
  | nndmaDesram => some oram
  | oram => some nmemInfo
  | nmemInfo => some ddrAlloc
  | ddrAlloc => some version
  | version => some ddr
  | ddr => some nndmaFastio
  | nndmaFastio => some ddrMemoryInit
  | ddrMemoryInit => none

/-- The steps behind the one that may change the size. -/
def Stage.sized (stage : Stage) : Bool :=
  stage = .version ∨ stage = .ddr ∨ stage = .nndmaFastio ∨ stage = .ddrMemoryInit

/-- What the labels would give back beyond what the call has acquired. -/
def stale (args : Args) (entry : Statics) (stage : Stage) : List Resource :=
  if args.ddrMemSize = 0 ∧ stage.opens = false then World.closing entry.nnalockfd else []

/-- In front of a step, the labels below it give back what is held, but for a stale descriptor. -/
structure Holds (args : Args) (entry : Statics) (stage : Stage) (w : World) : Prop where
  rmem : w.bUseRmem = args.bUseRmem
  choose : w.multiprocessChoose = args.ddrMemSize
  lock : stage.opens = true ∨ args.ddrMemSize = 0 → w.nnalockfd = entry.nnalockfd
  size : stage.sized = false → w.ddrMemSize = args.ddrMemSize
  balance : (w.acquired ++ stale args entry stage).Perm (w.released ++ held w stage.label)

variable {env : Env} {args : Args} {entry : Statics} {stage : Stage} {w : World} {label : Label}

/-- What is logged does not change what a label gives back. -/
theorem rung_release (rs : List Resource) : rung (w.release rs) label = rung w label := by
  cases label <;> rfl

/-- A label resets no variable that another one reads. -/
theorem rung_reset {other : Label} (differ : label ≠ other) :
    rung (reset w label) other = rung w other := by
  -- Only three labels reset a variable, each a descriptor that it closes itself.
  cases label with
  | errOramRealSize => cases other <;> first | rfl | exact absurd rfl differ
  | errOpenNnaLock => cases other <;> first | rfl | exact absurd rfl differ
  | errOpenSocNna => cases other <;> first | rfl | exact absurd rfl differ
  | _ => rfl

/-- The statements behind different labels give back what each of them names at the start. -/
theorem fold_released {labels : List Label} (differ : labels.Nodup) :
    (labels.foldl (fun w label => reset (w.release (rung w label)) label) w).released =
      w.released ++ labels.flatMap (rung w) := by
  -- No label stands there twice, so none resets what a later one reads.
  induction labels generalizing w with
  | nil => simp
  | cons label labels ih =>
    obtain ⟨absent, rest⟩ := List.nodup_cons.mp differ
    have released : (reset (w.release (rung w label)) label).released =
        w.released ++ rung w label := by cases label <;> rfl
    have same : labels.flatMap (rung (reset (w.release (rung w label)) label)) =
        labels.flatMap (rung w) := by
      refine List.flatMap_congr fun other member => ?_
      rw [rung_reset (by rintro rfl; exact absent member), rung_release]
    rw [List.foldl_cons, ih rest, released, same, List.flatMap_cons, List.append_assoc]

/-- They acquire nothing. -/
theorem fold_acquired {labels : List Label} :
    (labels.foldl (fun w label => reset (w.release (rung w label)) label) w).acquired =
      w.acquired := by
  -- A label closes, unmaps and resets, and nothing else.
  induction labels generalizing w with
  | nil => rfl
  | cons label labels ih =>
    rw [List.foldl_cons, ih]
    cases label <;> rfl

/-- Behind a label, what is held there is given back. -/
theorem unwind_released (w : World) (label : Label) :
    (unwind w label).released = w.released ++ held w label :=
  fold_released (List.Nodup.sublist (List.dropWhile_sublist _) (by decide))

theorem unwind_acquired (w : World) (label : Label) :
    (unwind w label).acquired = w.acquired := fold_acquired

/-- A label gives back its own part and then what the next one does. -/
theorem held_next (w : World) (label other : Label) (follows : below label = label :: below other) :
    held w label = rung w label ++ held w other := by
  rw [held, follows, List.flatMap_cons, held]

/-- A descriptor that was opened is closed. -/
theorem closing_open {fd : Int} (opened : 0 ≤ fd) : World.closing fd = [.descriptor fd] :=
  if_neg (Int.not_lt.mpr opened)

/-- The variables of a call that a step leaves to the later ones. -/
structure Passes (w after : World) (next : Stage) : Prop where
  rmem : after.bUseRmem = w.bUseRmem
  choose : after.multiprocessChoose = w.multiprocessChoose
  lock : next.opens = true ∨ w.multiprocessChoose = 0 → after.nnalockfd = w.nnalockfd
  size : next.sized = false → after.ddrMemSize = w.ddrMemSize

/-- A step keeps the balance when what it acquires is what the labels give back in addition. -/
theorem Holds.step (holds : Holds args entry stage w) {after : World} {next : Stage}
    (rs back : List Resource) (passes : Passes w after next)
    (opens : next.opens = true → stage.opens = true)
    (sized : next.sized = false → stage.sized = false)
    (acquired : after.acquired = w.acquired ++ rs) (released : after.released = w.released ++ back)
    (gives : (rs ++ stale args entry next ++ held w stage.label).Perm
      (stale args entry stage ++ back ++ held after next.label)) :
    Holds args entry next after := by
  refine ⟨passes.rmem.trans holds.rmem, passes.choose.trans holds.choose,
    fun early => (passes.lock (early.imp_right holds.choose.trans)).trans
      (holds.lock (early.imp_left opens)),
    fun early => (passes.size early).trans (holds.size (sized early)), ?_⟩
  -- Both lists are counted resource by resource.
  have old := List.perm_iff_count.mp holds.balance
  have new := List.perm_iff_count.mp gives
  apply List.perm_iff_count.mpr
  intro r
  have first := old r
  have second := new r
  rw [acquired, released]
  simp only [List.count_append] at first second ⊢
  omega

/-- A step of which the label of the next one gives back what it acquires. -/
theorem Holds.take (holds : Holds args entry stage w) {after : World} {next : Stage}
    (rs : List Resource) (passes : Passes w after next) (opens : next.opens = stage.opens)
    (sized : next.sized = false → stage.sized = false)
    (acquired : after.acquired = w.acquired ++ rs) (released : after.released = w.released)
    (follows : below next.label = next.label :: below stage.label)
    (own : rung after next.label = rs) (kept : held after stage.label = held w stage.label) :
    Holds args entry next after := by
  -- The next label gives back what is acquired, and falls through to the one of this step.
  have same : stale args entry next = stale args entry stage := by rw [stale, stale, opens]
  refine holds.step rs [] passes (fun early => opens ▸ early) sized acquired
    (released.trans (List.append_nil _).symm) ?_
  rw [held_next after next.label stage.label follows, own, kept, same, List.append_nil,
    ← List.append_assoc]
  exact List.perm_append_comm.append_right _

/-- Opening the file of the memory. -/
theorem Holds.openMem (holds : Holds args entry .openMem w)
    (granted : Stage.granted env w .openMem) :
    ∃ after, Stage.perform env w .openMem = .ok after ∧ Holds args entry .openSocNna after := by
  -- A descriptor that is not negative is one to be closed.
  have opened : 0 ≤ openAs env w .mem := of_decide_eq_true granted
  refine ⟨_, if_neg (Int.not_lt.mpr opened), ?_⟩
  exact holds.take _ ⟨rfl, rfl, fun _ => rfl, fun _ => rfl⟩ rfl (fun _ => rfl) rfl rfl rfl
    (closing_open opened) rfl

/-- Opening the file of the driver. -/
theorem Holds.openSocNna (holds : Holds args entry .openSocNna w)
    (granted : Stage.granted env w .openSocNna) :
    ∃ after, Stage.perform env w .openSocNna = .ok after ∧ Holds args entry .openNnaLock after := by
  -- As for the first file.
  have opened : 0 ≤ openAs env w .socNna := of_decide_eq_true granted
  refine ⟨_, if_neg (Int.not_lt.mpr opened), ?_⟩
  exact holds.take _ ⟨rfl, rfl, fun _ => rfl, fun _ => rfl⟩ rfl (fun _ => rfl) rfl rfl rfl
    (closing_open opened) rfl

/-- Opening the lock, or leaving it with the descriptor that it had. -/
theorem Holds.openNnaLock (holds : Holds args entry .openNnaLock w)
    (granted : Stage.granted env w .openNnaLock) :
    ∃ after, Stage.perform env w .openNnaLock = .ok after ∧
      Holds args entry .oramL2cache after := by
  have before : stale args entry .openNnaLock = [] := by simp [stale, Stage.opens]
  by_cases single : w.multiprocessChoose = 0
  · -- The label closes a descriptor that is not of this call.
    have extra : stale args entry .oramL2cache = World.closing w.nnalockfd := by
      rw [stale, if_pos ⟨holds.choose ▸ single, rfl⟩, holds.lock (.inl rfl)]
    refine ⟨w, if_neg (not_not.mpr single), ?_⟩
    refine holds.step [] [] ⟨rfl, rfl, fun _ => rfl, fun _ => rfl⟩ nofun
      (fun _ => rfl) (List.append_nil _).symm (List.append_nil _).symm ?_
    rw [extra, before]
    exact List.Perm.refl _
  · have opened : 0 ≤ openAs env w .nnaLock := by
      simpa [Stage.granted, single] using granted
    have extra : stale args entry .oramL2cache = [] :=
      if_neg fun both => single (holds.choose.trans both.1)
    refine ⟨_, (if_pos single).trans (if_neg (Int.not_lt.mpr opened)), ?_⟩
    refine holds.step [.descriptor (openAs env w .nnaLock)] []
      ⟨rfl, rfl, fun early => early.elim nofun fun one => absurd one single, fun _ => rfl⟩ nofun
      (fun _ => rfl) rfl (List.append_nil _).symm ?_
    rw [extra, before, held_next _ (Stage.label .oramL2cache) .errOpenNnaLock rfl]
    show List.Perm _ ([] ++ [] ++ (World.closing (openAs env w .nnaLock) ++ _))
    rw [closing_open opened]
    exact List.Perm.refl _

/-- Mapping the register, whose address is read through. -/
theorem Holds.oramL2cache (holds : Holds args entry .oramL2cache w)
    (granted : Stage.granted env w .oramL2cache) :
    ∃ after, Stage.perform env w .oramL2cache = .ok after ∧ Holds args entry .nndmaIo after := by
  -- The mapping has an address, behind which the word of the register is read.
  obtain ⟨addr, found⟩ := Option.isSome_iff_exists.mp granted
  simp only [Stage.perform, getOramL2cache, found, Except.ok.injEq, exists_eq_left']
  exact holds.take [.mapping addr l2cacheSizeLen] ⟨rfl, rfl, fun _ => rfl, fun _ => rfl⟩ rfl
    (fun _ => rfl) rfl rfl rfl rfl rfl

/-- Mapping the registers of the NNDMA. -/
theorem Holds.nndmaIo (holds : Holds args entry .nndmaIo w)
    (granted : Stage.granted env w .nndmaIo) :
    ∃ after, Stage.perform env w .nndmaIo = .ok after ∧ Holds args entry .nndmaDesram after := by
  -- The pointer that is stored is the one that the next label unmaps.
  obtain ⟨addr, found⟩ := Option.isSome_iff_exists.mp granted
  simp only [Stage.perform, mapNndmaIo, found, World.checkMap, Except.ok.injEq, exists_eq_left']
  exact holds.take [.mapping addr nndmaIoSize] ⟨rfl, rfl, fun _ => rfl, fun _ => rfl⟩ rfl
    (fun _ => rfl) rfl rfl rfl rfl rfl

/-- Mapping the descriptors of the NNDMA. -/
theorem Holds.nndmaDesram (holds : Holds args entry .nndmaDesram w)
    (granted : Stage.granted env w .nndmaDesram) :
    ∃ after, Stage.perform env w .nndmaDesram = .ok after ∧ Holds args entry .oram after := by
  obtain ⟨addr, found⟩ := Option.isSome_iff_exists.mp granted
  simp only [Stage.perform, mapNndmaDesram, found, World.checkMap, Except.ok.injEq, exists_eq_left']
  exact holds.take [.mapping addr nndmaDesramSize] ⟨rfl, rfl, fun _ => rfl, fun _ => rfl⟩ rfl
    (fun _ => rfl) rfl rfl rfl rfl rfl

/-- Mapping the on-chip memory. -/
theorem Holds.oram (holds : Holds args entry .oram w)
    (granted : Stage.granted env w .oram) :
    ∃ after, Stage.perform env w .oram = .ok after ∧ Holds args entry .nmemInfo after := by
  obtain ⟨addr, found⟩ := Option.isSome_iff_exists.mp granted
  simp only [Stage.perform, mapOram, found, World.checkMap, Except.ok.injEq, exists_eq_left']
  exact holds.take [.mapping addr w.oramRealSize] ⟨rfl, rfl, fun _ => rfl, fun _ => rfl⟩ rfl
    (fun _ => rfl) rfl rfl rfl rfl rfl

/-- Reading the command line, whose stream is closed again. -/
theorem Holds.nmemInfo (holds : Holds args entry .nmemInfo w)
    (granted : Stage.granted env w .nmemInfo) :
    ∃ after, Stage.perform env w .nmemInfo = .ok after ∧ Holds args entry .ddrAlloc after := by
  obtain ⟨text, read, named⟩ : ∃ text, env.cmdline = some (some text) ∧ nmemNamed text := by
    simp only [Stage.granted] at granted
    cases opened : env.cmdline with
    | none => simp [opened] at granted
    | some text =>
      cases text with
      | none => simp [opened] at granted
      | some text => exact ⟨text, rfl, by simpa [opened] using granted⟩
  cases parsed : nmemOf text with
  | missing => simp [nmemNamed, parsed] at named
  | crash => simp [nmemNamed, parsed] at named
  | found addr size =>
    have there : ¬ (addr = 0 ∨ size = 0) := by simpa [nmemNamed, parsed] using named
    simp only [Stage.perform, getNmemInfo, read, Option.map_some, parsed, if_neg there,
      Except.ok.injEq, exists_eq_left']
    refine holds.step [.stream] [.stream] ⟨rfl, rfl, fun _ => rfl, fun _ => rfl⟩
      (by intros; contradiction) (fun _ => rfl) rfl rfl ?_
    -- No label gives back anything for the step.
    have same : stale args entry .ddrAlloc = stale args entry .nmemInfo := rfl
    rw [same]
    have swap : ([Resource.stream] ++ stale args entry .nmemInfo).Perm
        (stale args entry .nmemInfo ++ [.stream]) := List.perm_append_comm
    exact swap.append_right _

/-- Taking the memory for the data, which is named by the same structure when it is given back. -/
theorem Holds.ddrAlloc (holds : Holds args entry .ddrAlloc w)
    (granted : Stage.granted env w .ddrAlloc) :
    ∃ after, Stage.perform env w .ddrAlloc = .ok after ∧ Holds args entry .version after := by
  have size := (holds.size rfl).trans holds.choose.symm
  by_cases rmem : w.bUseRmem = 0
  · -- Memory of the driver.
    have asked : (env.nnaMalloc w.nnafd w.ddrNnaBuf).isSome := by
      simpa [Stage.granted, rmem] using granted
    obtain ⟨buf, given⟩ := Option.isSome_iff_exists.mp asked
    refine ⟨{ w with ddrNnaBuf := buf }.acquire (.nna buf), ?_, ?_⟩
    · show allocDdr env w = _
      rw [allocDdr, if_neg (not_not.mpr rmem), given]
    · exact holds.take _ ⟨rfl, rfl, fun _ => rfl, nofun⟩ rfl nofun rfl rfl rfl
        (if_neg (not_not.mpr rmem)) rfl
  · by_cases single : w.ddrMemSize = 0
    · -- All the memory that is reserved, which is nobody's to give back.
      have own : ∀ after : World, after.bUseRmem = w.bUseRmem →
          after.multiprocessChoose = w.multiprocessChoose →
            rung after (Stage.label .version) = [] := by
        intro after same equal
        rw [Stage.label, rung, same, equal, if_pos rmem,
          if_neg (not_not.mpr (size.symm.trans single))]
      refine ⟨_, (if_pos rmem).trans (if_pos single), ?_⟩
      exact holds.take _ ⟨rfl, rfl, fun _ => rfl, nofun⟩ rfl nofun (List.append_nil _).symm rfl rfl
        (own _ rfl rfl) rfl
    · -- A part of it, which the driver hands out.
      have asked : (env.nmemInit w.nnalockfd { w.unmem with size := w.ddrMemSize }).isSome := by
        simpa [Stage.granted, rmem, single] using granted
      obtain ⟨unmem, given⟩ := Option.isSome_iff_exists.mp asked
      refine ⟨{ w with
        unmem := unmem
        ddrPbase := u32 unmem.paddr
        ddrMemSize := unmem.size }.acquire (.nmem unmem), ?_, ?_⟩
      · show allocDdr env w = _
        rw [allocDdr, if_pos rmem, if_neg single]
        simp only [given]
      · exact holds.take _ ⟨rfl, rfl, fun _ => rfl, nofun⟩ rfl nofun rfl rfl rfl
          ((if_pos rmem).trans (if_pos fun none => single (size.trans none))) rfl

/-- The request for the version changes nothing. -/
theorem Holds.version (holds : Holds args entry .version w)
    (granted : Stage.granted env w .version) :
    ∃ after, Stage.perform env w .version = .ok after ∧ Holds args entry .ddr after :=
  ⟨w, if_pos granted, holds.rmem, holds.choose, fun early => holds.lock (early.imp_left nofun), nofun,
    holds.balance⟩

/-- Mapping the memory for the data. -/
theorem Holds.ddr (holds : Holds args entry .ddr w)
    (granted : Stage.granted env w .ddr) :
    ∃ after, Stage.perform env w .ddr = .ok after ∧ Holds args entry .nndmaFastio after := by
  -- The length is that of the call, which nothing changes from here on.
  obtain ⟨addr, found⟩ := Option.isSome_iff_exists.mp granted
  simp only [Stage.perform, mapDdr, found, World.checkMap, Except.ok.injEq, exists_eq_left']
  exact holds.take [.mapping addr (u32 w.ddrMemSize)] ⟨rfl, rfl, fun _ => rfl, nofun⟩ rfl nofun rfl
    rfl rfl rfl rfl

/-- Mapping the fast registers. -/
theorem Holds.nndmaFastio (holds : Holds args entry .nndmaFastio w)
    (granted : Stage.granted env w .nndmaFastio) :
    ∃ after, Stage.perform env w .nndmaFastio = .ok after ∧ Holds args entry .ddrMemoryInit after := by
  obtain ⟨addr, found⟩ := Option.isSome_iff_exists.mp granted
  simp only [Stage.perform, mapFastio, found, World.checkMap, Except.ok.injEq, exists_eq_left']
  exact holds.take [.mapping addr fastioSize] ⟨rfl, rfl, fun _ => rfl, nofun⟩ rfl nofun rfl
    rfl rfl rfl rfl

/-- A step that is granted leads to the next one. -/
theorem Holds.next (holds : Holds args entry stage w) (granted : stage.granted env w)
    {next : Stage} (follows : stage.next = some next) :
    ∃ after, stage.perform env w = .ok after ∧ Holds args entry next after := by
  -- Each step has its own lemma, with what it acquires.
  cases stage <;> cases follows
  case openMem => exact holds.openMem granted
  case openSocNna => exact holds.openSocNna granted
  case openNnaLock => exact holds.openNnaLock granted
  case oramL2cache => exact holds.oramL2cache granted
  case nndmaIo => exact holds.nndmaIo granted
  case nndmaDesram => exact holds.nndmaDesram granted
  case oram => exact holds.oram granted
  case nmemInfo => exact holds.nmemInfo granted
  case ddrAlloc => exact holds.ddrAlloc granted
  case version => exact holds.version granted
  case ddr => exact holds.ddr granted
  case nndmaFastio => exact holds.nndmaFastio granted

/-- The steps stop at the first one that is refused, or get to the end. -/
theorem Holds.run (env : Env) (rest : List Stage) (holds : Holds args entry stage w)
    (chain : List.IsChain (fun s t : Stage => s.next = some t) (stage :: rest))
    (last : (stage :: rest).getLast? = some .ddrMemoryInit) :
    (refusal env (stage :: rest) w = none ∧ ∃ after,
      performAll env (stage :: rest) w = .ok after ∧ Holds args entry .ddrMemoryInit after) ∨
    ∃ found before, refusal env (stage :: rest) w = some found ∧ Holds args entry found before ∧
      found.granted env before = false ∧ ∀ stop, found.perform env before = .error stop →
        performAll env (stage :: rest) w = .error stop := by
  -- The induction is on the steps that are left, and each step granted hands the balance on.
  induction rest generalizing stage w with
  | nil =>
    obtain rfl : stage = .ddrMemoryInit := by simpa using last
    by_cases granted : Stage.granted env w .ddrMemoryInit
    · have done : Stage.perform env w .ddrMemoryInit = .ok w := if_pos granted
      exact .inl ⟨by simp [refusal, granted, done], w, by simp [performAll, done], holds⟩
    · refine .inr ⟨.ddrMemoryInit, w, by simp [refusal, granted], holds, by simpa using granted, ?_⟩
      intro stop stopped
      simp [performAll, stopped]
  | cons next rest ih =>
    by_cases granted : stage.granted env w
    · -- The step leads to the next one, from which the rest goes on.
      obtain ⟨follows, more⟩ := List.isChain_cons_cons.mp chain
      obtain ⟨after, done, kept⟩ := holds.next granted follows
      have stops : (next :: rest).getLast? = some .ddrMemoryInit := by
        rwa [List.getLast?_cons_cons] at last
      have goes := ih kept more stops
      have asks : refusal env (stage :: next :: rest) w = refusal env (next :: rest) after := by
        rw [refusal, if_pos granted, done]
      have steps : performAll env (stage :: next :: rest) w = performAll env (next :: rest) after := by
        rw [performAll, done]
      rwa [asks, steps]
    · refine .inr ⟨stage, w, by rw [refusal, if_neg granted], holds, by simpa using granted, ?_⟩
      intro stop stopped
      rw [performAll, stopped]

/-- Nothing is held when a call begins. -/
theorem holds_enter (args : Args) (entry : Statics) :
    Holds args entry .openMem (enter args entry) := by
  have none : stale args entry .openMem = [] := if_neg fun both => Bool.noConfusion both.2
  refine ⟨rfl, rfl, fun _ => rfl, fun _ => rfl, ?_⟩
  rw [none]
  exact List.Perm.refl _

/-- The labels below a step that fails give back what is held. -/
def Unwinds (args : Args) (entry : Statics) (stage : Stage) (stop : Stop) : Prop :=
  ∃ label after, stop = .goto label after ∧ (after.acquired ++ stale args entry stage).Perm
    (after.released ++ held after label)

/-- A step that fails without a change to what is held unwinds. -/
theorem Holds.unwinds (holds : Holds args entry stage w) {after : World}
    (acquired : after.acquired = w.acquired) (released : after.released = w.released)
    (kept : held after label = held w stage.label) :
    Unwinds args entry stage (.goto label after) := by
  -- What is held is what the balance in front of the step says.
  refine ⟨label, after, rfl, ?_⟩
  rw [acquired, released, kept]
  exact holds.balance

/-- So does a step whose mapping fails. -/
theorem Holds.unmapped (holds : Holds args entry stage w) {after : World} {addr : Option Address}
    {len : Nat} (refused : addr.isSome = false) (acquired : after.acquired = w.acquired)
    (released : after.released = w.released) (kept : held after label = held w stage.label) :
    ∃ stop, after.checkMap addr len label = .error stop ∧ Unwinds args entry stage stop := by
  have none : addr = none := by simpa using refused
  subst none
  exact ⟨_, rfl, holds.unwinds acquired released kept⟩

/-- A text that is read and names no memory leaves through the label behind the on-chip memory. -/
theorem Holds.nmemInfo_refused (holds : Holds args entry .nmemInfo w)
    (refused : Stage.granted env w .nmemInfo = false) (read : ¬ Unreadable env) :
    ∃ stop, Stage.perform env w .nmemInfo = .error stop ∧
      Unwinds args entry .nmemInfo stop := by
  cases opened : env.cmdline with
  | none =>
    refine ⟨.goto .errGetRmemInfo w, ?_, holds.unwinds rfl rfl rfl⟩
    simp [Stage.perform, getNmemInfo, opened]
  | some text =>
    -- The stream is open, and is closed on the way out.
    have closed : ∀ after : World, after.acquired = w.acquired ++ [.stream] →
        after.released = w.released ++ [.stream] →
          held after .errGetRmemInfo = held w .errGetRmemInfo →
            Unwinds args entry .nmemInfo (.goto .errGetRmemInfo after) := by
      intro after acquired released kept
      refine ⟨_, after, rfl, ?_⟩
      have old := List.perm_iff_count.mp holds.balance
      rw [acquired, released, kept]
      apply List.perm_iff_count.mpr
      intro r
      have count := old r
      simp only [List.count_append, Stage.label] at count ⊢
      omega
    cases text with
    | none =>
      refine ⟨.goto .errGetRmemInfo ((w.acquire .stream).release [.stream]), ?_,
        closed _ rfl rfl rfl⟩
      simp [Stage.perform, getNmemInfo, opened]
    | some text =>
      cases parsed : nmemOf text with
      | missing =>
        refine ⟨.goto .errGetRmemInfo ((w.acquire .stream).release [.stream]), ?_,
          closed _ rfl rfl rfl⟩
        simp [Stage.perform, getNmemInfo, opened, parsed]
      | crash => exact absurd (by simp [Unreadable, opened, parsed]) read
      | found addr size =>
        have absent : addr = 0 ∨ size = 0 := by
          simp only [Stage.granted, opened, Option.join_some, Option.map_some, Option.getD_some,
            nmemNamed, parsed, decide_eq_false_iff_not] at refused
          tauto
        let after : World :=
          { w.acquire .stream with ddrNnaBuf := { w.ddrNnaBuf with paddr := addr }, rmemSize := size }
        refine ⟨.goto .errGetRmemInfo (after.release [.stream]), ?_, closed _ rfl rfl rfl⟩
        simp [Stage.perform, getNmemInfo, opened, parsed, absent, after, World.acquire]

/-- A text that cannot be read through ends in a crash. -/
theorem nmemInfo_crashes (cut : Unreadable env) :
    ∃ after, Stage.perform env w .nmemInfo = .error (.crash after) := by
  obtain ⟨text, read, parsed⟩ := Option.map_eq_some_iff.mp cut
  have opened : env.cmdline = some (some text) := Option.join_eq_some_iff.mp read
  exact ⟨w.acquire .stream, by simp [Stage.perform, getNmemInfo, opened, parsed]⟩

/-- Memory that is not handed out leaves nothing to give back. -/
theorem Holds.ddrAlloc_refused (holds : Holds args entry .ddrAlloc w)
    (refused : Stage.granted env w .ddrAlloc = false) :
    ∃ stop, Stage.perform env w .ddrAlloc = .error stop ∧
      Unwinds args entry .ddrAlloc stop := by
  -- The memory is the one that is reserved, or comes from the driver.
  by_cases rmem : w.bUseRmem = 0
  · have none : env.nnaMalloc w.nnafd w.ddrNnaBuf = none := by
      simpa [Stage.granted, rmem] using refused
    refine ⟨.goto .errIoctlNnaMalloc w, ?_, holds.unwinds rfl rfl rfl⟩
    show allocDdr env w = _
    rw [allocDdr, if_neg (not_not.mpr rmem), none]
  · have both : w.ddrMemSize ≠ 0 ∧
        env.nmemInit w.nnalockfd { w.unmem with size := w.ddrMemSize } = none := by
      simpa [Stage.granted, rmem] using refused
    refine ⟨.goto .errGetRmemInfo { w with unmem := { w.unmem with size := w.ddrMemSize } }, ?_,
      holds.unwinds rfl rfl rfl⟩
    show allocDdr env w = _
    rw [allocDdr, if_pos rmem, if_neg both.1]
    simp only [both.2]

/-- A step that fails unwinds, but for the three that do not. -/
theorem Holds.refuse (holds : Holds args entry stage w) (refused : stage.granted env w = false)
    (register : stage ≠ .oramL2cache) (version : stage ≠ .version)
    (read : stage = .nmemInfo → ¬ Unreadable env) :
    ∃ stop, stage.perform env w = .error stop ∧ Unwinds args entry stage stop := by
  -- A failed open, mapping or request goes to the label of its own step.
  cases stage with
  | openMem =>
    have failed : openAs env w .mem < 0 := by simpa [Stage.granted] using refused
    exact ⟨_, if_pos failed, holds.unwinds rfl rfl rfl⟩
  | openSocNna =>
    have failed : openAs env w .socNna < 0 := by simpa [Stage.granted] using refused
    exact ⟨_, if_pos failed, holds.unwinds rfl rfl rfl⟩
  | openNnaLock =>
    have failed : w.multiprocessChoose ≠ 0 ∧ openAs env w .nnaLock < 0 := by
      simpa [Stage.granted] using refused
    exact ⟨_, (if_pos failed.1).trans (if_pos failed.2), holds.unwinds rfl rfl rfl⟩
  | oramL2cache => exact absurd rfl register
  | nndmaIo => exact holds.unmapped refused rfl rfl rfl
  | nndmaDesram => exact holds.unmapped refused rfl rfl rfl
  | oram => exact holds.unmapped refused rfl rfl rfl
  | nmemInfo => exact holds.nmemInfo_refused refused (read rfl)
  | ddrAlloc => exact holds.ddrAlloc_refused refused
  | version => exact absurd rfl version
  | ddr => exact holds.unmapped refused rfl rfl rfl
  | nndmaFastio => exact holds.unmapped refused rfl rfl rfl
  | ddrMemoryInit =>
    have failed : ¬ env.ddrMemoryInit w.ddrVbase (u32 w.ddrMemSize) = true := by
      simpa [Stage.granted] using refused
    exact ⟨_, if_neg failed, holds.unwinds rfl rfl rfl⟩

/-- The other function gives back one thing less than is held, since it leaves the register mapped. -/
theorem aieMunmap_released (env : Env) (w : World) : (aieMunmap env w).2.acquired = w.acquired ∧
    (aieMunmap env w).2.released.length + 1 +
      (if w.multiprocessChoose = 0 then (World.closing w.nnalockfd).length else 0) ≤
        w.released.length + (held w .errDdrMemoryInit).length := by
  have all : below .errDdrMemoryInit = ladder := rfl
  have ends : (held w .errDdrMemoryInit).length = 6 + (rung w .errMmapDdrNna).length +
      (World.closing w.nnalockfd).length + (World.closing w.nnafd).length +
        (World.closing w.memfd).length := by
    simp only [held, all, ladder, List.flatMap_cons, List.flatMap_nil, List.length_append,
      List.length_nil]
    simp only [rung, List.length_cons, List.length_nil]
    omega
  rw [ends]
  unfold aieMunmap
  dsimp only [World.release]
  split
  · -- The memory of the driver cannot be given back, and the rest is kept with it.
    refine ⟨rfl, ?_⟩
    simp only [List.length_append, List.length_cons, List.length_nil]
    split <;> omega
  · by_cases single : w.multiprocessChoose = 0
    · simp only [single, ne_eq, not_true_eq_false, if_false, if_true, rung]
      refine ⟨trivial, ?_⟩
      simp only [List.length_append, List.length_cons, List.length_nil]
      omega
    · simp only [single, ne_eq, not_false_eq_true, if_false, if_true, rung]
      refine ⟨trivial, ?_⟩
      simp only [List.length_append, List.length_cons, List.length_nil]
      omega

/-- After a success, not all is given back. -/
theorem Holds.not_unmapped (holds : Holds args entry .ddrMemoryInit w) :
    ¬ (aieMunmap env w).2.released.Perm (aieMunmap env w).2.acquired := by
  -- Both sides are counted: what is given back is one thing short.
  intro same
  obtain ⟨acquired, less⟩ := aieMunmap_released env w
  have lengths := same.length_eq
  have balance := holds.balance.length_eq
  rw [acquired] at lengths
  simp only [List.length_append, Stage.label] at balance
  have extra : (stale args entry .ddrMemoryInit).length =
      if w.multiprocessChoose = 0 then (World.closing w.nnalockfd).length else 0 := by
    rw [stale, holds.choose]
    by_cases single : args.ddrMemSize = 0
    · rw [if_pos ⟨single, rfl⟩, if_pos single, holds.lock (.inr single)]
    · rw [if_neg fun both => single both.1, if_neg single]
      rfl
  omega

/-- A call whose steps are all granted returns zero, and is not undone by the other function. -/
theorem aieMmap_granted (all : refused env args entry = none) :
    (aieMmap env args entry).1 = .returned 0 ∧
      ¬ (aieMunmap env (aieMmap env args entry).2).2.released.Perm
        (aieMunmap env (aieMmap env args entry).2).2.acquired := by
  -- Either all steps have been granted, or one was refused, which is excluded.
  rcases (holds_enter args entry).run env stages.tail (by decide) rfl with
    ⟨_, after, done, kept⟩ | ⟨stage, _, asked, _⟩
  · have run : aieMmap env args entry = (.returned 0, after) := by
      rw [aieMmap, show performAll env stages (enter args entry) = .ok after from done]
    rw [run]
    exact ⟨rfl, kept.not_unmapped⟩
  · have none : refusal env stages (enter args entry) = none := all
    rw [show refusal env stages (enter args entry) = some stage from asked] at none
    cases none

/-- A call stops at the first step that is not granted, with what is held in front of it. -/
theorem aieMmap_refused (first : refused env args entry = some stage) :
    ∃ before, Holds args entry stage before ∧ stage.granted env before = false ∧
      ∀ stop, stage.perform env before = .error stop →
        performAll env stages (enter args entry) = .error stop := by
  -- The run stops at the step that was refused first.
  rcases (holds_enter args entry).run env stages.tail (by decide) rfl with
    ⟨all, _⟩ | ⟨found, before, asked, holds, denied, stops⟩
  · have none : refused env args entry = none := all
    rw [first] at none
    cases none
  · have same : refused env args entry = some found := asked
    obtain rfl : stage = found := Option.some.inj (first.symm.trans same)
    exact ⟨before, holds, denied, stops⟩

/-- No descriptor is stale where none is left from before. -/
theorem stale_eq_nil : stale args entry stage = [] ↔
    (stage.opens = false → args.ddrMemSize = 0 → entry.nnalockfd < 0) := by
  -- Only a call for a single process, behind its opens, has a descriptor of another one.
  rw [stale]
  split
  case isTrue both =>
    rw [World.closing]
    by_cases closed : entry.nnalockfd < 0 <;> simp [closed, both]
  case isFalse other =>
    refine ⟨fun _ late single => absurd ⟨single, late⟩ other, fun _ => rfl⟩

/-- A call that is refused where it is undone returns minus one with everything given back. -/
theorem Undone.gives_back (undone : Undone env args entry) :
    (aieMmap env args entry).1 = .returned (-1) ∧
      (aieMmap env args entry).2.released.Perm (aieMmap env args entry).2.acquired := by
  -- The step that fails goes to its label, and without a stale descriptor nothing is left over.
  obtain ⟨stage, first, register, version, read, fresh⟩ := undone
  obtain ⟨before, holds, denied, stops⟩ := aieMmap_refused first
  obtain ⟨stop, failed, label, after, rfl, balance⟩ := holds.refuse denied register version read
  have run : aieMmap env args entry = (.returned (-1), unwind after label) := by
    rw [aieMmap, stops _ failed]
  rw [stale_eq_nil.mpr fresh, List.append_nil] at balance
  rw [run, unwind_released, unwind_acquired]
  exact ⟨rfl, balance.symm⟩

/-- At most one descriptor is stale. -/
theorem length_stale (args : Args) (entry : Statics) (stage : Stage) :
    (stale args entry stage).length ≤ 1 := by
  -- It is the one of the lock.
  rw [stale, World.closing]
  split_ifs <;> simp

/-- Four mappings at least are held in front of that of the memory for the data. -/
theorem four_held (w : World) : 4 ≤ (held w .errMmapDdrNna).length := by
  -- The labels in between unmap the areas that have been mapped by then.
  have labels : below .errMmapDdrNna = [.errMmapDdrNna, .errIoctlNnaMalloc, .errGetRmemInfo,
    .errMmapOram, .errMmapNndmaDesram, .errMmapNndmaIo] ++ below .errOramRealSize := rfl
  rw [held, labels, List.flatMap_append, List.length_append]
  simp only [List.flatMap_cons, List.length_append, List.flatMap_nil]
  simp only [rung, List.length_cons, List.length_nil]
  omega

/-- A call that is refused elsewhere crashes, or does not give everything back. -/
theorem not_undone (first : refused env args entry = some stage) (other : ¬ Undone env args entry) :
    ¬ ((aieMmap env args entry).1 = .returned (-1) ∧
      (aieMmap env args entry).2.released.Perm (aieMmap env args entry).2.acquired) := by
  rintro ⟨returned, same⟩
  obtain ⟨before, holds, denied, stops⟩ := aieMmap_refused first
  have crashes : ∀ after, stage.perform env before ≠ .error (.crash after) := by
    intro after crashed
    rw [aieMmap, stops _ crashed] at returned
    cases returned
  by_cases register : stage = .oramL2cache
  · -- The address of the mapping that failed is read through.
    subst register
    have none : mapAs env before .l2cacheSize = none := by simpa [Stage.granted] using denied
    apply crashes
    simp only [Stage.perform, getOramL2cache, none]
    rfl
  by_cases version : stage = .version
  · -- The last label gives back nothing, and the on-chip memory at least is held.
    subst version
    have failed : Stage.perform env before .version = .error (.goto .errIoctlNnaVersion before) :=
      if_neg (by simpa [Stage.granted] using denied)
    have run : aieMmap env args entry = (.returned (-1), unwind before .errIoctlNnaVersion) := by
      rw [aieMmap, stops _ failed]
    rw [run, unwind_released, unwind_acquired] at same
    have lengths := same.length_eq
    have balance := holds.balance.length_eq
    have four := four_held before
    have one := length_stale args entry .version
    simp only [List.length_append, Stage.label] at lengths balance
    have none : (held before .errIoctlNnaVersion).length = 0 := rfl
    omega
  by_cases read : stage = .nmemInfo → ¬ Unreadable env
  · -- What is left is a descriptor of the lock that is not of this call.
    obtain ⟨stop, failed, label, after, rfl, balance⟩ := holds.refuse denied register version read
    have run : aieMmap env args entry = (.returned (-1), unwind after label) := by
      rw [aieMmap, stops _ failed]
    rw [run, unwind_released, unwind_acquired] at same
    have fresh : stale args entry stage = [] := by
      apply List.length_eq_zero_iff.mp
      have lengths := same.length_eq
      have both := balance.length_eq
      simp only [List.length_append] at lengths both
      omega
    exact other ⟨stage, first, register, version, read, stale_eq_nil.mp fresh⟩
  · -- The text that cannot be read through is.
    obtain ⟨rfl, cut⟩ : stage = .nmemInfo ∧ Unreadable env := by tauto
    obtain ⟨after, crashed⟩ := nmemInfo_crashes (w := before) cut
    exact crashes after crashed

/-- A call is all or nothing exactly when a step is refused where it is undone. -/
theorem mmapAllOrNothing_iff (env : Env) (args : Args) (entry : Statics) :
    AllOrNothing env args entry ↔ Undone env args entry := by
  constructor
  · intro whole
    by_contra other
    cases first : refused env args entry with
    | none =>
      -- Even a success is not undone.
      obtain ⟨returned, kept⟩ := aieMmap_granted first
      exact kept (whole.unmapped returned)
    | some stage =>
      refine not_undone first other (whole.undone ?_)
      rw [first]
      exact Option.some_ne_none stage
  · intro undone
    obtain ⟨returned, given⟩ := undone.gives_back
    have denied : refused env args entry ≠ none := by
      obtain ⟨stage, first, _⟩ := undone
      rw [first]
      exact Option.some_ne_none stage
    refine ⟨?_, fun _ => ⟨returned, given⟩, ?_⟩
    · rw [returned]
      exact ⟨nofun, fun none => absurd none denied⟩
    · rw [returned]
      exact nofun

/-- A system that grants everything, but for the version if it is told so. -/
def granting (version : Bool) : Env where
  openFile file _ := match file with
    | .mem => 3
    | .socNna => 4
    | .nnaLock => 5
  mmap area _ _ _ := match area with
    | .l2cacheSize => some ⟨0x70000000, by decide⟩
    | .nndmaIo => some ⟨0x70001000, by decide⟩
    | .nndmaDesram => some ⟨0x70002000, by decide⟩
    | .oram => some ⟨0x70010000, by decide⟩
    | .ddr => some ⟨0x71000000, by decide⟩
    | .nndmaFastio => some ⟨0x78000000, by decide⟩
  gpio _ := 0x800
  cmdline := some (some "mem=64M@0x0 nmem=16M@0x4000000".toList)
  nmemInit _ unmem := some unmem
  nmemUninit _ _ := true
  nnaMalloc _ buf := some buf
  version _ _ := version
  ddrMemoryInit _ _ := true

/-- A call for all the memory that is reserved. -/
def wholeReserve : Args := ⟨0, 1, nnaUncached, nnaUncached, nnaCached⟩

/-- Where the version is refused, the call returns with its files and mappings left as they are. -/
theorem version_leaks : ¬ AllOrNothing (granting false) wholeReserve {} := by
  -- The version is the first step that is refused, and its label gives back nothing.
  intro whole
  have first : refused (granting false) wholeReserve {} = some .version := by decide
  refine not_undone first ?_ (whole.undone ?_)
  · rintro ⟨stage, found, _, version, _⟩
    exact version (Option.some.inj (found.symm.trans first))
  · rw [first]
    exact Option.some_ne_none _

end Aip.AieMmap
