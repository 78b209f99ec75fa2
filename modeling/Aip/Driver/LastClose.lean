import Aip.Driver.DeviceLaws
import Aip.Lib.Runs

/-! What the last close finds on the device, over whole runs of many processes. -/

namespace Aip.Device

/-- The numbers under which jobs, buffer objects and NNA memory are on the device. -/
def owners (s : Device) : List Nat :=
  s.life.owners ++ s.t.owners ++ s.oram.values.map (·.pid)

/-- The process whose call the step begins. -/
def caller : DeviceStep → List Nat
  | .life a => a.caller
  | .t a => a.caller
  | .nna a => a.caller
  | .oramAlloc pid _ _ _ => [pid]
  | _ => []

/-- The number under which the step registers a buffer object. -/
def maker : DeviceStep → List Nat
  | .life a => a.maker
  | _ => []

/-- The check of the last close has passed whenever the device has no reference. -/
def Sound (s : Device) : Prop := s.bug = false ∧ (s.ref = 0 → s.Idle)

/-- A release for the process leaves nothing on the device. -/
def Reclaimable (s : Device) (pid : Nat) : Prop :=
  (∀ owner ∈ s.owners, owner = pid) ∧
    (s.nna.nna.nnaMutex = none ∨ pid ∈ s.nna.nna.nnaJobList)

/-- The close that drops the last reference is made by a process that can reclaim all there is. -/
def Reclaims (s : Device) : DeviceStep → Prop
  | .close file task => s.files[file]? = some [task] → s.ref = 1 → s.nna.nna.nnaJobLock = false →
      s.Reclaimable task.vnr
  | _ => True

/--
The step leaves nothing behind that its process could not reclaim later.

Buffer objects are registered under the number that the release looks for, the NNA is used by its
protocol, and a process that gives up the device has no CTX lock open and leaves nothing to those it
shares its file with.
-/
def Tidy (s : Device) : DeviceStep → Prop
  | .life (.boAppend task _ _ _) => task.nr = task.vnr
  | .nna a => s.nna.KeepsProtocol a
  | .close file task => Reaches (drop s.files file task) task.vnr ∨
      task.vnr ∉ s.nna.ctxOpen ∧
        (s.files[file]? = some [task] ∨ task.vnr ∉ s.owners ++ s.nna.nna.nnaJobList)
  | _ => True

/-- What opening and closing keep track of. -/
structure Consistent (s : Device) : Prop where
  counted : s.files.length ≤ s.ref
  closed : s.isOk = false → s.ref = 0
  attended : ∀ pid ∈ s.callers, Reaches s.files pid

/-- The closed device is consistent. -/
theorem Consistent.init : Consistent init := by
  constructor <;> simp [Device.init, callers, Lifetime.callers, Lifetime.init, Submits.init,
    Clients.init, NnaClients.init]

section Files

/-- Giving up a descriptor of one process leaves the others where they are. -/
theorem reaches_drop {files : List OpenFile} {file pid : Nat} {task : Task}
    (reaches : Reaches files pid) (other : pid ≠ task.vnr) : Reaches (drop files file task) pid := by
  -- The descriptor of the other process is neither in a file that goes nor the one erased.
  obtain ⟨holders, listed, holder, member, rfl⟩ := reaches
  have apart : holder ≠ task := fun same => other (congrArg Task.vnr same)
  unfold drop
  cases found : files[file]? with
  | none => exact ⟨holders, listed, holder, member, rfl⟩
  | some closing =>
    simp only
    by_cases same : holders = closing
    · subst same
      split
      case isTrue single =>
        rw [single] at member
        exact absurd (List.mem_singleton.mp member) apart
      case isFalse =>
        exact ⟨holders.erase task, (Slots.mem_set found).mpr (.inl rfl), holder,
          (List.mem_erase_of_ne apart).mpr member, rfl⟩
    · split
      · exact ⟨holders, Slots.mem_eraseIdx_of_ne found listed same, holder, member, rfl⟩
      · exact ⟨holders, Slots.mem_set_of_ne found _ listed same, holder, member, rfl⟩

/-- A file is gone once its last descriptor is. -/
theorem drop_last {files : List OpenFile} {file : Nat} {task : Task}
    (last : files[file]? = some [task]) : drop files file task = files.eraseIdx file := by
  simp [drop, last]

/-- No file is opened by giving up a descriptor. -/
theorem length_drop (files : List OpenFile) (file : Nat) (task : Task) :
    (drop files file task).length ≤ files.length := by
  -- A file is taken out or stays in its place with one holder fewer.
  unfold drop
  split
  · omega
  · split
    · exact (List.eraseIdx_sublist _ _).length_le
    · simp

/-- Sharing a file takes it from nobody. -/
theorem reaches_share {files : List OpenFile} {file pid : Nat} {heir : Task}
    (reaches : Reaches files pid) : Reaches (files.modify file (heir :: ·)) pid := by
  -- The file at the shared position has one holder more, and the rest are the same.
  obtain ⟨holders, listed, holder, member, rfl⟩ := reaches
  obtain ⟨i, found⟩ := List.mem_iff_getElem?.mp listed
  by_cases here : file = i
  · refine ⟨heir :: holders, List.mem_iff_getElem?.mpr ⟨i, ?_⟩, holder,
      List.mem_cons_of_mem _ member, rfl⟩
    simp [here, found]
  · refine ⟨holders, List.mem_iff_getElem?.mpr ⟨i, ?_⟩, holder, member, rfl⟩
    simp [here, found]

end Files

section Inside

/-- What a step that opens, shares or closes no file does. -/
structure Inside (s : Device) (a : DeviceStep) (t : Device) : Prop where
  files : t.files = s.files
  ref : t.ref = s.ref
  isOk : t.isOk = s.isOk
  bug : t.bug = s.bug
  owners : t.owners ⊆ s.owners ++ s.callers ++ maker a ++ caller a
  callers : t.callers ⊆ s.callers ++ caller a
  nna : t.nna = s.nna ∨ ∃ b, a = .nna b ∧ NnaClients.step s.nna b = some t.nna

/-- The step opens, shares or closes a file. -/
def OnFiles : DeviceStep → Prop
  | .open _ | .share _ _ _ | .close _ _ => True
  | _ => False

/-- A step inside the device adds only the process that takes it. -/
theorem step_inside {s t : Device} {a : DeviceStep} (taken : step s a = some t)
    (inside : ¬ OnFiles a) : Inside s a t := by
  -- Each part of the device says what its own step adds, and the rest is copied.
  simp only [step, Option.ite_none_right_eq_some] at taken
  obtain ⟨_, taken⟩ := taken
  cases a with
  | «open» task | share file task heir | close file task => exact absurd trivial inside
  | life a =>
    obtain ⟨life, worked, rfl⟩ := Option.map_eq_some_iff.mp taken
    obtain ⟨owned, called⟩ := Lifetime.step_owners worked
    refine ⟨rfl, rfl, rfl, rfl, fun pid member => ?_, fun pid member => ?_, .inl rfl⟩
    · have own := @owned pid
      simp only [owners, callers, maker, caller, List.mem_append] at member own ⊢
      tauto
    · have own := @called pid
      simp only [callers, caller, List.mem_append] at member own ⊢
      tauto
  | t a =>
    obtain ⟨t, worked, rfl⟩ := Option.map_eq_some_iff.mp taken
    obtain ⟨owned, called⟩ := Clients.step_owners worked
    refine ⟨rfl, rfl, rfl, rfl, fun pid member => ?_, fun pid member => ?_, .inl rfl⟩
    · have own := @owned pid
      simp only [owners, callers, maker, caller, Clients.callers, List.mem_append] at member own ⊢
      tauto
    · have own := @called pid
      simp only [callers, caller, Clients.callers, List.mem_append] at member own ⊢
      tauto
  | nna a =>
    obtain ⟨nna, worked, rfl⟩ := Option.map_eq_some_iff.mp taken
    have called := (NnaClients.step_lockers worked).2
    refine ⟨rfl, rfl, rfl, rfl, fun pid member => ?_, fun pid member => ?_, .inr ⟨a, rfl, worked⟩⟩
    · simp only [owners, List.mem_append] at member ⊢
      tauto
    · have own := @called pid
      simp only [callers, caller, NnaClients.callers, List.mem_append] at member own ⊢
      tauto
  | oramAlloc pid size kvaddr id =>
    obtain ⟨oram, worked, rfl⟩ := Option.map_eq_some_iff.mp taken
    have values := Idr.alloc_values worked
    refine ⟨rfl, rfl, rfl, rfl, fun owner member => ?_, List.subset_append_left _ _, .inl rfl⟩
    simp only [owners, values, List.map_append, List.map_cons, List.map_nil, maker, caller,
      List.mem_append] at member ⊢
    tauto
  | oramFree pid handle =>
    cases taken
    refine ⟨rfl, rfl, rfl, rfl, fun owner member => ?_, List.subset_append_left _ _, .inl rfl⟩
    have kept : owner ∈ (s.oram.oramFree handle).values.map (·.pid) →
        owner ∈ s.oram.values.map (·.pid) :=
      fun listed => ((s.oram.removeIf_values _).map OramInfo.pid).subset listed
    simp only [owners, List.mem_append] at member ⊢
    tauto

/-- A call is begun by a process that has the device open. -/
theorem reaches_caller {s : Device} {a : DeviceStep} (may : s.mayStep a = true) {pid : Nat}
    (called : pid ∈ caller a) : Reaches s.files pid := by
  -- The guard of each step that begins a call asks for just this.
  cases a with
  | life a => cases a <;> simp_all [caller, LifetimeStep.caller, mayStep]
  | t a => cases a <;> simp_all [caller, ClientStep.caller, mayStep]
  | nna a => cases a <;> simp_all [caller, NnaStep.caller, mayStep]
  | oramAlloc owner size kvaddr id => simp_all [caller, mayStep]
  | «open» task | share file task heir | close file task | oramFree owner handle => cases called

/-- A buffer object is registered for a process that has the device open. -/
theorem holder_maker {s : Device} {a : DeviceStep} (may : s.mayStep a = true) {pid : Nat}
    (made : pid ∈ maker a) : ∃ task size dma id, a = .life (.boAppend task size dma id) ∧
      pid = task.nr ∧ ∃ holders ∈ s.files, task ∈ holders := by
  -- Appending is the only step that registers an object, and its guard names the process.
  cases a with
  | life a =>
    cases a with
    | boAppend task size dma id =>
      refine ⟨task, size, dma, id, rfl, List.mem_singleton.mp made, ?_⟩
      simpa [mayStep] using may
    | boDestroy _ | boRelease _ | fOp _ _ | pOp _ _ | f _ | p _ => cases made
  | t _ | nna _ | oramAlloc _ _ _ _ | oramFree _ _ => cases made
  | «open» _ | share _ _ _ | close _ _ => cases made

end Inside

section Close

/-- Nothing is on the device exactly when nobody owns anything there and the mutex is free. -/
theorem idle_iff {s : Device} : s.Idle ↔ s.owners = [] ∧ s.nna.nna.nnaMutex = none := by
  -- The lists of owners are empty exactly when the lists they are read off are.
  simp only [Idle, owners, Lifetime.owners, Submits.owners, Clients.owners, Idr.values, Idr.isEmpty,
    List.append_eq_nil_iff, List.map_eq_nil_iff, List.isEmpty_iff]
  tauto

/-- The device after the five releases of a process, which `jz_nna_v20_release` lets through. -/
def reclaimed (s : Device) (pid : Nat) : Device :=
  { s with
    life := s.life.release pid
    t := { s.t with chan := s.t.chan.release pid }
    nna := { s.nna with nna := s.nna.nna.dropJob pid }
    oram := s.oram.release pid }

/-- A release gives the reference back unless it spins on the lock that was left taken. -/
theorem release_free {s : Device} (free : s.nna.nna.nnaJobLock = false) (pid : Nat) :
    s.release pid = (s.reclaimed pid).put := by
  simp [release, NnaClients.step, Nna.release, free, reclaimed]

/-- A release that spins on the lock has only withdrawn jobs and buffer objects. -/
theorem release_stuck {s : Device} (stuck : s.nna.nna.nnaJobLock = true) (pid : Nat) :
    s.release pid = { s with
      life := s.life.release pid
      t := { s.t with chan := s.t.chan.release pid } } := by
  simp [release, NnaClients.step, Nna.release, stuck]

/-- The five releases leave what is owned by others. -/
theorem mem_owners_reclaimed {s : Device} {pid owner : Nat} :
    owner ∈ (s.reclaimed pid).owners ↔ owner ∈ s.owners ∧ owner ≠ pid := by
  -- Each part keeps the objects of the other processes.
  have chunks : owner ∈ (s.oram.release pid).values.map (·.pid) ↔
      owner ∈ s.oram.values.map (·.pid) ∧ owner ≠ pid := Idr.mem_map_removeIf
  simp only [owners, reclaimed, Clients.owners, List.mem_append, Channel.mem_release, chunks,
    Lifetime.mem_owners_release]
  tauto

/-- The five releases free the mutex that is free already or stands on the list for the process. -/
theorem mutex_reclaimed {s : Device} {pid : Nat} : (s.reclaimed pid).nna.nna.nnaMutex = none ↔
    s.nna.nna.nnaMutex = none ∨ pid ∈ s.nna.nna.nnaJobList := by
  -- The entry is taken off together with the mutex, or nothing changes.
  simp only [reclaimed, Nna.dropJob]
  split <;> simp_all

/-- What can be reclaimed is what the five releases leave idle. -/
theorem idle_reclaimed {s : Device} {pid : Nat} :
    (s.reclaimed pid).Idle ↔ s.Reclaimable pid := by
  -- After the releases nobody owns anything exactly when nobody else did before.
  rw [idle_iff, Reclaimable, mutex_reclaimed, List.eq_nil_iff_forall_not_mem]
  refine and_congr_left' (forall_congr' fun owner => ?_)
  rw [mem_owners_reclaimed]
  tauto

@[simp] theorem put_files (s : Device) : s.put.files = s.files := by
  unfold put
  split <;> [split; skip] <;> rfl

@[simp] theorem put_callers (s : Device) : s.put.callers = s.callers := by
  unfold put
  split <;> [split; skip] <;> rfl

@[simp] theorem put_owners (s : Device) : s.put.owners = s.owners := by
  unfold put
  split <;> [split; skip] <;> rfl

@[simp] theorem put_nna (s : Device) : s.put.nna = s.nna := by
  unfold put
  split <;> [split; skip] <;> rfl

@[simp] theorem put_ref (s : Device) : s.put.ref = s.ref - 1 := by
  unfold put
  split <;> [split; skip] <;> simp_all

/-- Giving a reference back is sound when it is not the last one, or when nothing is left. -/
theorem sound_put {s : Device} (running : s.bug = false) (referenced : s.ref ≠ 0) :
    s.put.Sound ↔ (s.ref = 1 → s.Idle) := by
  -- Only the last reference runs the check.
  unfold put
  split
  case isTrue last =>
    split
    case isTrue idle => exact ⟨fun _ _ => idle, fun _ => ⟨running, fun _ => idle⟩⟩
    case isFalse busy =>
      constructor
      · intro sound
        cases sound.1
      · intro idle
        exact absurd (idle last) busy
  case isFalse shared =>
    refine ⟨fun _ last => absurd last shared, fun _ => ⟨running, fun none => ?_⟩⟩
    have gone : s.ref - 1 = 0 := none
    omega

end Close

section Runs

/-- The device once a process has given up one descriptor. -/
def dropped (s : Device) (file : Nat) (task : Task) : Device :=
  { s with files := drop s.files file task }

/--
A close gives up a descriptor.

The last one of a file releases it, unless the release spins on the lock that was left taken.
-/
theorem step_close {s t : Device} {file : Nat} {task : Task}
    (taken : step s (.close file task) = some t) :
    (∃ holders, s.files[file]? = some holders ∧ task ∈ holders) ∧
    (∀ pid ∈ s.callers, Reaches (drop s.files file task) pid) ∧
    ((s.files[file]? ≠ some [task] ∧ t = s.dropped file task) ∨
      (s.files[file]? = some [task] ∧ s.nna.nna.nnaJobLock = true ∧ t = { s.dropped file task with
        life := s.life.release task.vnr
        t := { s.t with chan := s.t.chan.release task.vnr } }) ∨
      (s.files[file]? = some [task] ∧ s.nna.nna.nnaJobLock = false ∧
        t = ((s.dropped file task).reclaimed task.vnr).put)) := by
  -- The guard gives the holder, and the lock decides how a release ends.
  simp only [step, mayStep, Option.ite_none_right_eq_some, Bool.and_eq_true, Option.any_eq_true,
    decide_eq_true_eq, List.all_eq_true, effect, Option.some.injEq] at taken
  obtain ⟨⟨holds, attended⟩, rfl⟩ := taken
  refine ⟨holds, attended, ?_⟩
  by_cases last : s.files[file]? = some [task]
  · rw [if_pos last]
    cases lock : s.nna.nna.nnaJobLock with
    | true => exact .inr (.inl ⟨last, rfl, release_stuck (s := s.dropped file task) lock _⟩)
    | false => exact .inr (.inr ⟨last, rfl, release_free (s := s.dropped file task) lock _⟩)
  · rw [if_neg last]
    exact .inl ⟨last, rfl⟩

/-- Opening and closing are kept track of by every step. -/
theorem Consistent.step {s t : Device} {a : DeviceStep} (consistent : Consistent s)
    (taken : step s a = some t) : Consistent t := by
  by_cases inside : OnFiles a
  case neg =>
    have worked := step_inside taken inside
    have may : s.mayStep a = true := (Option.ite_none_right_eq_some.mp taken).1
    refine ⟨by rw [worked.files, worked.ref]; exact consistent.counted,
      by rw [worked.isOk, worked.ref]; exact consistent.closed, fun pid member => ?_⟩
    rw [worked.files]
    rcases List.mem_append.mp (worked.callers member) with old | new
    · exact consistent.attended pid old
    · exact reaches_caller may new
  case pos =>
    have counted := consistent.counted
    cases a with
    | «open» task =>
      simp only [Device.step, effect, Option.ite_none_right_eq_some, Option.some.injEq] at taken
      obtain ⟨_, rfl⟩ := taken
      refine ⟨?_, by simp, fun pid member => ?_⟩
      · -- A device that is not open has no file to count.
        cases opened : s.isOk with
        | true => simpa [opened] using counted
        | false =>
          have none := consistent.closed opened
          simp only [List.length_append, List.length_singleton]
          show s.files.length + 1 ≤ 1
          omega
      · obtain ⟨holders, listed, reaches⟩ := consistent.attended pid member
        exact ⟨holders, List.mem_append_left _ listed, reaches⟩
    -- Sharing opens no file and closes none.
    | share file task heir =>
      simp only [Device.step, effect, Option.ite_none_right_eq_some, Option.some.injEq] at taken
      obtain ⟨_, rfl⟩ := taken
      exact ⟨by simpa using counted, consistent.closed,
        fun pid member => reaches_share (consistent.attended pid member)⟩
    | close file task =>
      obtain ⟨_, attended, ⟨_, rfl⟩ | ⟨_, _, rfl⟩ | ⟨last, _, rfl⟩⟩ := step_close taken
      · exact ⟨Nat.le_trans (length_drop _ _ _) counted, consistent.closed, attended⟩
      · exact ⟨Nat.le_trans (length_drop _ _ _) counted, consistent.closed, attended⟩
      · -- One file is gone, and one reference is given back for it.
        have gone := drop_last last
        have one := List.length_eraseIdx_of_lt (List.getElem?_eq_some_iff.mp last).1
        refine ⟨?_, ?_, ?_⟩
        · rw [put_files, put_ref]
          simp only [reclaimed, dropped, gone, one]
          omega
        · -- The device is shut only when the reference given back was the last.
          intro shut
          rw [put_ref]
          unfold put at shut
          split at shut
          case isTrue final => rw [final]
          case isFalse =>
            have none := consistent.closed shut
            simp [reclaimed, dropped, none]
        · rw [put_files, put_callers]
          exact attended
    | life _ | t _ | nna _ | oramAlloc _ _ _ _ | oramFree _ _ => exact absurd inside (by simp [OnFiles])

/-- With no file open nothing is begun, so the NNA lock stays as it is. -/
theorem nna_closed {s t : Device} {a : DeviceStep} (taken : step s a = some t)
    (none : s.files = []) (quiet : s.callers = []) (worked : Inside s a t) : t.nna = s.nna := by
  rcases worked.nna with same | ⟨b, rfl, locked⟩
  · exact same
  · have may : s.mayStep (.nna b) = true := (Option.ite_none_right_eq_some.mp taken).1
    have calls : s.nna.calls = [] := by simpa using (List.append_eq_nil_iff.mp quiet).2
    -- A step either begins a call of an open file or continues a call in progress.
    cases b <;>
      simp_all [mayStep, Reaches, NnaClients.step, NnaClients.withCall]

/-- From a sound state, exactly the steps that reclaim everything at the last close are sound. -/
theorem sound_step {s t : Device} {a : DeviceStep} (consistent : Consistent s) (sound : Sound s)
    (taken : step s a = some t) : Sound t ↔ Reclaims s a := by
  -- Only a close can break what holds between closes.
  by_cases inside : OnFiles a
  case neg =>
    have worked := step_inside taken inside
    have may : s.mayStep a = true := (Option.ite_none_right_eq_some.mp taken).1
    have free : Reclaims s a := by cases a <;> first | trivial | exact absurd trivial inside
    refine ⟨fun _ => free, fun _ => ⟨worked.bug.trans sound.1, fun none => ?_⟩⟩
    -- Without a reference there is no file, so nobody is there to add anything.
    have unreferenced : s.ref = 0 := worked.ref ▸ none
    have counted := consistent.counted
    have closed : s.files = [] := List.length_eq_zero_iff.mp (by omega)
    have nobody (pid : Nat) : ¬ Reaches s.files pid := by simp [Reaches, closed]
    have quiet : s.callers = [] :=
      List.eq_nil_iff_forall_not_mem.mpr fun pid member => nobody pid (consistent.attended pid member)
    obtain ⟨empty, unlocked⟩ := idle_iff.mp (sound.2 unreferenced)
    rw [idle_iff, nna_closed taken closed quiet worked]
    refine ⟨List.eq_nil_iff_forall_not_mem.mpr fun pid member => ?_, unlocked⟩
    have added := worked.owners member
    rw [empty, quiet, List.nil_append, List.nil_append] at added
    rcases List.mem_append.mp added with made | called
    · obtain ⟨_, _, _, _, _, _, holders, listed, _⟩ := holder_maker may made
      simp [closed] at listed
    · exact nobody pid (reaches_caller may called)
  case pos =>
    cases a with
    | «open» task =>
      simp only [Device.step, effect, Option.ite_none_right_eq_some, Option.some.injEq] at taken
      obtain ⟨_, rfl⟩ := taken
      refine ⟨fun _ => trivial, fun _ => ⟨sound.1, fun none => ?_⟩⟩
      -- An opened device has a reference.
      have counted : (if s.isOk then s.ref + 1 else 1) = 0 := none
      split at counted <;> omega
    | share file task heir =>
      simp only [Device.step, effect, Option.ite_none_right_eq_some, Option.some.injEq] at taken
      obtain ⟨_, rfl⟩ := taken
      exact ⟨fun _ => trivial, fun _ => sound⟩
    | close file task =>
      obtain ⟨⟨holders, found, _⟩, _, cases⟩ := step_close taken
      have within := (List.getElem?_eq_some_iff.mp found).1
      have counted := consistent.counted
      have referenced : s.ref ≠ 0 := by omega
      rcases cases with ⟨shared, rfl⟩ | ⟨_, lock, rfl⟩ | ⟨last, lock, rfl⟩
      · exact ⟨fun _ last => absurd last shared, fun _ => sound⟩
      · -- A release that spins gives no reference back, and the condition asks nothing of it.
        refine ⟨fun _ _ _ free => ?_, fun _ => ⟨sound.1, fun none => absurd none referenced⟩⟩
        rw [lock] at free
        cases free
      · rw [sound_put (s := (s.dropped file task).reclaimed task.vnr) sound.1 referenced,
          idle_reclaimed]
        constructor
        · intro reclaims _ final _
          exact reclaims final
        · intro reclaims final
          exact reclaims last final lock
    | life _ | t _ | nna _ | oramAlloc _ _ _ _ | oramFree _ _ => exact absurd inside (by simp [OnFiles])

end Runs

section Discipline

/-- Whoever has something on the device, or the NNA, has the device open. -/
structure Covered (s : Device) : Prop where
  held : NnaClients.Held s.nna
  owners : s.nna.nna.nnaJobLock = false → ∀ pid ∈ s.owners ++ s.nna.lockers, Reaches s.files pid

/-- Nothing is on the device that was not opened yet. -/
theorem Covered.init : Covered init := by
  refine ⟨NnaClients.Held.init, fun _ pid member => ?_⟩
  -- All the lists are empty.
  simp [Device.init, Device.owners, Lifetime.owners, Lifetime.init, Submits.owners, Submits.init,
    Clients.owners, Clients.init, Channel.init, BoTable.init, Idr.values, Idr.empty,
    NnaClients.lockers, NnaClients.init, Nna.init] at member

/-- The spinlock of the NNA stays taken once a call has left it so. -/
theorem nnaJobLock_step {s t : NnaClients} {a : NnaStep} (taken : NnaClients.step s a = some t)
    (free : t.nna.nnaJobLock = false) : s.nna.nnaJobLock = false := by
  -- Only the failing unlock touches the spinlock, and it leaves it taken.
  cases a with
  | unlock pid force =>
    obtain ⟨nna, unlocked, rfl⟩ := Option.map_eq_some_iff.mp taken
    rcases Nna.unlock_cases unlocked with rfl | ⟨before, _⟩ | ⟨before, _⟩
    · exact free
    · exact before
    · exact before
  | release pid =>
    exact (NnaClients.step_release taken).1
  | lockFinish call allocated =>
    obtain ⟨c, _, _, ⟨_, before, _⟩ | ⟨_, rfl⟩⟩ := NnaClients.step_lockFinish taken
    · exact before
    · exact free
  | acquire call =>
    obtain ⟨c, _, _, _, rfl⟩ := NnaClients.step_acquire taken
    exact free
  | ctxAcquire call =>
    obtain ⟨c, _, _, _, rfl⟩ := NnaClients.step_ctxAcquire taken
    exact free
  | trylock pid =>
    simp only [NnaClients.step] at taken
    split at taken <;> cases taken <;> exact free
  | lock pid | ctxLock pid | ctxUnlock pid =>
    cases taken
    exact free

/-- A process that gives up a descriptor tidily keeps what it leaves covered. -/
theorem reaches_dropped {s : Device} {file pid : Nat} {task : Task} (reaches : Reaches s.files pid)
    (kept : pid = task.vnr → Reaches (drop s.files file task) task.vnr) :
    Reaches (drop s.files file task) pid := by
  -- Only descriptors of the closing process itself may be gone.
  by_cases same : pid = task.vnr
  · exact same ▸ kept same
  · exact reaches_drop reaches same

/-- Tidy steps keep everything covered. -/
theorem Covered.step {s t : Device} {a : DeviceStep} (covered : Covered s)
    (consistent : Consistent s) (taken : step s a = some t) (tidy : Tidy s a) : Covered t := by
  -- What a step adds belongs to a caller, and callers have the device open.
  by_cases inside : OnFiles a
  case neg =>
    have worked := step_inside taken inside
    have may : s.mayStep a = true := (Option.ite_none_right_eq_some.mp taken).1
    have owned : s.nna.nna.nnaJobLock = false → ∀ pid ∈ t.owners, Reaches s.files pid := by
      intro free pid member
      rcases List.mem_append.mp (worked.owners member) with early | called
      · rcases List.mem_append.mp early with earlier | made
        · rcases List.mem_append.mp earlier with old | calling
          · exact covered.owners free pid (List.mem_append_left _ old)
          · exact consistent.attended pid calling
        · -- A buffer object is registered under the number that its process releases.
          obtain ⟨task, _, _, _, rfl, rfl, holders, listed, holds⟩ := holder_maker may made
          have same : task.nr = task.vnr := tidy
          exact ⟨holders, listed, task, holds, same.symm⟩
      · exact reaches_caller may called
    rcases worked.nna with same | ⟨b, rfl, locked⟩
    · refine ⟨same ▸ covered.held, fun free pid member => ?_⟩
      rw [same] at free member
      rw [worked.files]
      rcases List.mem_append.mp member with own | locker
      · exact owned free pid own
      · exact covered.owners free pid (List.mem_append_right _ locker)
    · refine ⟨covered.held.step locked tidy, fun free pid member => ?_⟩
      have before := nnaJobLock_step locked free
      rw [worked.files]
      rcases List.mem_append.mp member with own | locker
      · exact owned before pid own
      · rcases List.mem_append.mp ((NnaClients.step_lockers locked).1 locker) with old | calling
        · exact covered.owners before pid (List.mem_append_right _ old)
        · exact consistent.attended pid (List.mem_append_right _ calling)
  case pos =>
    cases a with
    | «open» task =>
      simp only [Device.step, effect, Option.ite_none_right_eq_some, Option.some.injEq] at taken
      obtain ⟨_, rfl⟩ := taken
      refine ⟨covered.held, fun free pid member => ?_⟩
      obtain ⟨holders, listed, reaches⟩ := covered.owners free pid member
      exact ⟨holders, List.mem_append_left _ listed, reaches⟩
    | share file task heir =>
      simp only [Device.step, effect, Option.ite_none_right_eq_some, Option.some.injEq] at taken
      obtain ⟨_, rfl⟩ := taken
      exact ⟨covered.held, fun free pid member => reaches_share (covered.owners free pid member)⟩
    | close file task =>
      obtain ⟨_, _, ⟨shared, rfl⟩ | ⟨_, lock, rfl⟩ | ⟨_, lock, rfl⟩⟩ := step_close taken
      · refine ⟨covered.held, fun free pid member => ?_⟩
        apply reaches_dropped (covered.owners free pid member)
        intro same
        rcases tidy with reaches | ⟨unlocked, last | absent⟩
        · exact reaches
        · exact absurd last shared
        · subst same
          -- The process owns nothing, has no entry and no CTX lock.
          simp only [Device.owners, NnaClients.lockers, List.mem_append] at member absent
          tauto
      · refine ⟨covered.held, fun free => ?_⟩
        -- The lock is still taken after the release, so there is nothing to cover.
        have stuck : s.nna.nna.nnaJobLock = false := free
        rw [lock] at stuck
        cases stuck
      · -- The release is a step of the NNA lock like any other.
        have released : NnaClients.step s.nna (.release task.vnr)
            = some { s.nna with nna := s.nna.nna.dropJob task.vnr } := by
          simp [NnaClients.step, Nna.release, lock]
        have held := covered.held.step released trivial
        refine ⟨by rw [put_nna]; exact held, fun _ pid member => ?_⟩
        rw [put_files]
        rw [put_owners, put_nna] at member
        rcases List.mem_append.mp member with own | locker
        · obtain ⟨owner, other⟩ := mem_owners_reclaimed.mp own
          exact reaches_drop (covered.owners lock pid (List.mem_append_left _ owner)) other
        · have before : pid ∈ s.nna.lockers := by
            rcases List.mem_append.mp locker with entry | opened
            · exact List.mem_append_left _ (NnaClients.dropJob_subset _ _ entry)
            · exact List.mem_append_right _ opened
          apply reaches_dropped (covered.owners lock pid (List.mem_append_right _ before))
          intro same
          subst same
          rcases tidy with reaches | ⟨unlocked, _⟩
          · exact reaches
          · -- The entry of the process is gone, and it has no CTX lock open.
            rcases List.mem_append.mp locker with entry | opened
            · have owner := (held.entry _ entry).1
              have listed : task.vnr ∈ s.nna.nna.nnaJobList := NnaClients.dropJob_subset _ _ entry
              simp [Nna.dropJob, listed] at owner
            · exact absurd opened unlocked
    | life _ | t _ | nna _ | oramAlloc _ _ _ _ | oramFree _ _ => exact absurd inside (by simp [OnFiles])

/-- A tidy step that is the last close is made by a process that can reclaim all there is. -/
theorem reclaims_of_tidy {s t : Device} {a : DeviceStep} (covered : Covered s)
    (consistent : Consistent s) (taken : step s a = some t) (tidy : Tidy s a) : Reclaims s a := by
  -- At the last close only the closing process can own anything.
  cases a with
  | close file task =>
    intro last final lock
    obtain ⟨_, attended, _⟩ := step_close taken
    -- The only file is held by the closing process alone.
    have counted := consistent.counted
    have within := (List.getElem?_eq_some_iff.mp last).1
    have single : s.files = [[task]] := by
      obtain ⟨holders, one⟩ := List.length_eq_one_iff.mp (show s.files.length = 1 by omega)
      have first : file = 0 := by omega
      subst first
      rw [one] at last ⊢
      simpa using last
    have gone (pid : Nat) : ¬ Reaches (drop s.files file task) pid := by
      have first : file = 0 := by
        rw [single, List.length_singleton] at within
        omega
      rw [drop_last last, single, first]
      simp [Reaches]
    have quiet : s.callers = [] :=
      List.eq_nil_iff_forall_not_mem.mpr fun pid member => gone pid (attended pid member)
    have only (pid : Nat) (reaches : Reaches s.files pid) : pid = task.vnr := by
      simpa [Reaches, single, eq_comm] using reaches
    obtain ⟨unlocked, _⟩ := tidy.resolve_left (gone task.vnr)
    refine ⟨fun pid member => only pid (covered.owners lock pid (List.mem_append_left _ member)), ?_⟩
    have locker (pid : Nat) (member : pid ∈ s.nna.lockers) : pid = task.vnr :=
      only pid (covered.owners lock pid (List.mem_append_right _ member))
    cases mutex : s.nna.nna.nnaMutex with
    | none => exact .inl rfl
    | some owner =>
      right
      -- The holder is a job list entry, since no CTX lock is open and no call is in progress.
      have calls : s.nna.calls = [] := by simpa using (List.append_eq_nil_iff.mp quiet).2
      have closed : s.nna.ctxOpen = [] := by
        apply List.eq_nil_iff_forall_not_mem.mpr
        intro pid opened
        have same := locker pid (List.mem_append_right _ opened)
        exact unlocked (same ▸ opened)
      have count := covered.held.count
      simp only [NnaClients.holders, calls, closed, mutex, Option.toList_some, List.length_nil,
        List.length_singleton, List.countP_nil] at count
      obtain ⟨pid, entry⟩ := List.length_eq_one_iff.mp (show s.nna.nna.nnaJobList.length = 1 by omega)
      have listed : pid ∈ s.nna.nna.nnaJobList := by simp [entry]
      exact locker pid (List.mem_append_left _ listed) ▸ listed
  | «open» _ | share _ _ _ | life _ | t _ | nna _ | oramAlloc _ _ _ _ | oramFree _ _ => trivial

end Discipline

/--
The last close finds an empty device in a run exactly when, at each close that drops the last
reference, the process that closes can reclaim all that is left; and a run of tidy steps is one.
-/
theorem sound_iff (run : List DeviceStep) :
    (Runs.Always step Sound init run ↔ Runs.Each step (fun s a _ => Reclaims s a) init run) ∧
    (Runs.Each step (fun s a _ => Tidy s a) init run →
      Runs.Each step (fun s a _ => Reclaims s a) init run) := by
  have start : Sound init := ⟨rfl, fun _ => by decide⟩
  constructor
  · -- Consistency and soundness are carried along the run.
    apply Runs.always_safe_iff (I := fun s => Consistent s ∧ Sound s) fun s h => h.2
    · intro s a t invariant taken reclaims
      obtain ⟨consistent, sound⟩ := invariant
      exact ⟨consistent.step taken, (sound_step consistent sound taken).mpr reclaims⟩
    · intro s a t invariant taken after
      obtain ⟨consistent, sound⟩ := invariant
      exact (sound_step consistent sound taken).mp after
    · exact ⟨Consistent.init, start⟩
  · apply Runs.each_of_invariant (I := fun s => Consistent s ∧ Covered s)
    · intro s a t invariant taken tidy
      obtain ⟨consistent, covered⟩ := invariant
      exact ⟨consistent.step taken, covered.step consistent taken tidy⟩
    · intro s a t invariant taken tidy
      obtain ⟨consistent, covered⟩ := invariant
      exact reclaims_of_tidy covered consistent taken tidy
    · exact ⟨Consistent.init, Covered.init⟩

/-- One process opens the device, takes the CTX lock and closes the device. -/
def lockedRun : List DeviceStep :=
  [.open ⟨1, 1⟩, .nna (.ctxLock 1), .nna (.ctxAcquire 0), .close 0 ⟨1, 1⟩]

/-- No release unlocks a mutex that was taken as the CTX lock, so the close reaches `BUG()`. -/
theorem sound_locked : ¬ Runs.Always step Sound init lockedRun := by
  intro always
  have last : ∃ t, Runs.exec step init lockedRun = some t ∧ t.bug = true := ⟨_, rfl, rfl⟩
  obtain ⟨t, reached, bug⟩ := last
  rw [(always.last reached).1] at bug
  cases bug

end Aip.Device
