import Aip.Driver.ClientsLaws
import Aip.Driver.Device

/-! Whose work is on the device: what one step adds to the processes that own or call something. -/

namespace Aip

/-- A release leaves the jobs of the other processes. -/
theorem Channel.mem_release {β : Type} {ch : Channel β} {pid owner : Nat} :
    owner ∈ (ch.release pid).jobList.map (·.pid) ↔
      owner ∈ ch.jobList.map (·.pid) ∧ owner ≠ pid := by
  -- Starting the next job changes no owner, so only the filter counts.
  rw [release_map _ _ fun _ _ => rfl]
  simp only [List.mem_map, List.mem_filter, decide_eq_true_eq]
  constructor
  · intro given
    obtain ⟨info, ⟨listed, other⟩, rfl⟩ := given
    exact ⟨⟨info, listed, rfl⟩, other⟩
  · intro given
    obtain ⟨⟨info, listed, rfl⟩, other⟩ := given
    exact ⟨info, ⟨listed, other⟩, rfl⟩

namespace Submits

open Channel

variable {β : Type}

/-- The processes with a job on the channel. -/
def owners (s : Submits β) : List Nat := s.chan.jobList.map (·.pid)

/-- The processes with a submit call in progress on the channel. -/
def callers (s : Submits β) : List Nat := s.calls.map Prod.fst

/-- A locked section queues the job of a call that it ends, and no other. -/
theorem step_owners {s t : Submits β} {a : ChannelStep} (taken : s.step a = some t) :
    t.owners ⊆ s.owners ++ s.callers ∧ t.callers ⊆ s.callers := by
  -- Only the first locked section of a call lengthens the list.
  cases a with
  | enqueue call =>
    obtain ⟨c, found, rfl⟩ := Option.map_eq_some_iff.mp taken
    have called : c.1 ∈ s.callers := List.mem_map_of_mem (List.mem_of_getElem? found)
    constructor
    · intro pid member
      rw [owners, enqueue_map _ _ fun _ _ => rfl] at member
      rcases List.mem_append.mp member with old | new
      · exact List.mem_append_left _ old
      · rw [List.mem_singleton.mp new]
        exact List.mem_append_right _ called
    · exact ((List.eraseIdx_sublist _ _).map _).subset
  | irq =>
    simp only [Submits.step, Option.some.injEq] at taken
    subst taken
    have fewer : s.chan.irqFinishJob.jobList.map (·.pid) ⊆ s.owners :=
      (irqFinishJob_map s.chan fun _ _ => rfl).subset
    exact ⟨fun pid member => List.mem_append_left _ (fewer member), fun _ => id⟩
  | release pid =>
    simp only [Submits.step, Option.some.injEq] at taken
    subst taken
    refine ⟨fun pid member => List.mem_append_left _ ?_, fun _ => id⟩
    rw [owners, release_map _ _ fun _ _ => rfl] at member
    exact (List.filter_sublist.map _).subset member
  | jobDoneWork =>
    simp only [Submits.step, Option.some.injEq] at taken
    subst taken
    exact ⟨fun pid member => List.mem_append_left _ member, fun _ => id⟩

end Submits

/-- The process whose call on a channel the step begins. -/
def LifetimeStep.caller : LifetimeStep → List Nat
  | .fOp pid _ | .pOp pid _ => [pid]
  | _ => []

/-- The number under which the step registers a buffer object. -/
def LifetimeStep.maker : LifetimeStep → List Nat
  | .boAppend task _ _ _ => [task.nr]
  | _ => []

namespace Lifetime

/-- The numbers under which jobs are queued and buffer objects are registered. -/
def owners (life : Lifetime) : List Nat :=
  life.f.owners ++ life.p.owners ++ life.bo.handles.values.map (·.pid)

/-- A job comes from a call and a buffer object from an append; calls are begun by submits. -/
theorem step_owners {s t : Lifetime} {a : LifetimeStep} (taken : step s a = some t) :
    t.owners ⊆ s.owners ++ s.callers ++ a.maker ∧ t.callers ⊆ s.callers ++ a.caller := by
  -- Membership in each part of the two lists is read off the part that the step changes.
  cases a with
  | boAppend task size dma id =>
    obtain ⟨bo, appended, rfl⟩ := Option.map_eq_some_iff.mp taken
    have values := Idr.alloc_values (BoTable.append_spec appended).2.1
    refine ⟨fun pid member => ?_, fun pid member => List.mem_append_left _ member⟩
    simp only [owners, values, List.map_append, List.map_cons, List.map_nil, LifetimeStep.maker,
      List.mem_append] at member ⊢
    tauto
  | boDestroy handle | boRelease pid =>
    simp only [Lifetime.step, Option.some.injEq] at taken
    subst taken
    refine ⟨fun pid member => ?_, fun pid member => List.mem_append_left _ member⟩
    rcases List.mem_append.mp member with job | object
    · exact List.mem_append_left _ (List.mem_append_left _ (List.mem_append_left _ job))
    · have kept := ((s.bo.handles.removeIf_values _).map BoInfo.pid).subset object
      exact List.mem_append_left _ (List.mem_append_left _ (List.mem_append_right _ kept))
  | fOp pid dat =>
    simp only [Lifetime.step] at taken
    split at taken <;> cases taken
    · exact ⟨fun pid member => List.mem_append_left _ (List.mem_append_left _ member), by simp⟩
    · refine ⟨fun pid member => List.mem_append_left _ (List.mem_append_left _ member), ?_⟩
      intro pid member
      simp only [callers, Submits.resolve, List.map_append, List.map_cons, List.map_nil,
        LifetimeStep.caller, List.mem_append] at member ⊢
      tauto
  | pOp pid dat =>
    simp only [Lifetime.step] at taken
    split at taken <;> cases taken
    refine ⟨fun pid member => List.mem_append_left _ (List.mem_append_left _ member), ?_⟩
    intro pid member
    simp only [callers, Submits.resolve, List.map_append, List.map_cons, List.map_nil,
      LifetimeStep.caller, List.mem_append] at member ⊢
    tauto
  | f locked =>
    obtain ⟨f, served, rfl⟩ := Option.map_eq_some_iff.mp taken
    obtain ⟨queued, called⟩ := Submits.step_owners served
    constructor
    · intro pid member
      have own := @queued pid
      simp only [owners, callers, Submits.callers, List.mem_append] at member own ⊢
      tauto
    · intro pid member
      have own := @called pid
      simp only [callers, Submits.callers, List.mem_append] at member own ⊢
      tauto
  | p locked =>
    obtain ⟨p, served, rfl⟩ := Option.map_eq_some_iff.mp taken
    obtain ⟨queued, called⟩ := Submits.step_owners served
    constructor
    · intro pid member
      have own := @queued pid
      simp only [owners, callers, Submits.callers, List.mem_append] at member own ⊢
      tauto
    · intro pid member
      have own := @called pid
      simp only [callers, Submits.callers, List.mem_append] at member own ⊢
      tauto

/-- A release leaves what is owned by others. -/
theorem mem_owners_release {life : Lifetime} {pid owner : Nat} :
    owner ∈ (life.release pid).owners ↔ owner ∈ life.owners ∧ owner ≠ pid := by
  -- Each of the three release functions filters its list by the process.
  have registered : owner ∈ (life.bo.release pid).handles.values.map (·.pid) ↔
      owner ∈ life.bo.handles.values.map (·.pid) ∧ owner ≠ pid := Idr.mem_map_removeIf
  simp only [owners, Submits.owners, release, List.mem_append, Channel.mem_release,
    registered]
  tauto

end Lifetime

/-- The process whose submit call the step begins. -/
def ClientStep.caller {β : Type} : ClientStep β → List Nat
  | .op pid _ | .taskOp pid _ => [pid]
  | _ => []

namespace Clients

open Channel

variable {β : Type}

/-- The processes with a job on the channel. -/
def owners (s : Clients β) : List Nat := s.chan.jobList.map (·.pid)

/-- The processes with a submit call in progress on the channel. -/
def callers (s : Clients β) : List Nat := s.calls.map (·.exec.pid)

/-- A call that enters another phase is still a call of its process. -/
theorem callers_set {s : Clients β} {call : Nat} {c new : SubmitCall β}
    (found : s.calls[call]? = some c) (same : new.exec.pid = c.exec.pid) :
    (s.calls.set call new).map (·.exec.pid) ⊆ s.callers := by
  -- The new call stands in the place of the old one.
  intro pid member
  obtain ⟨c', listed, rfl⟩ := List.mem_map.mp member
  rcases List.mem_or_eq_of_mem_set listed with old | rfl
  · exact List.mem_map_of_mem old
  · exact List.mem_map.mpr ⟨c, List.mem_of_getElem? found, same.symm⟩

/-- A job comes from a call, in the step that begins it or later. -/
theorem step_owners {op : ChOp} {s t : Clients β} {a : ClientStep β}
    (taken : step op s a = some t) :
    t.owners ⊆ s.owners ++ s.callers ++ a.caller ∧ t.callers ⊆ s.callers ++ a.caller := by
  -- A step that leaves the queue or the calls alone adds nothing to their processes.
  have kept : s.owners ⊆ s.owners ++ s.callers ++ a.caller := fun pid member =>
    List.mem_append_left _ (List.mem_append_left _ member)
  have unchanged : s.callers ⊆ s.callers ++ a.caller := List.subset_append_left _ _
  have fewer {jobs : List (ExecInfo β)}
      (sub : jobs.map (·.pid) ⊆ s.owners) : jobs.map (·.pid) ⊆ s.owners ++ s.callers ++ a.caller :=
    fun pid member => kept (sub member)
  cases a with
  | op pid body =>
    simp only [Clients.step, Option.some.injEq] at taken
    subst taken
    constructor
    · intro owner member
      rw [owners, enqueue_map _ _ fun _ _ => rfl] at member
      rcases List.mem_append.mp member with old | new
      · exact kept old
      · exact List.mem_append_right _ new
    · simp [callers, newExec, ClientStep.caller]
  | taskOp pid body =>
    obtain ⟨_, rfl⟩ := step_taskOp taken
    exact ⟨kept, by simp [callers, newExec, ClientStep.caller]⟩
  | taskLock call =>
    obtain ⟨c, found, _, _, rfl⟩ := step_taskLock taken
    exact ⟨kept, fun pid member => unchanged (callers_set found (by rfl) member)⟩
  | taskPoll call =>
    obtain ⟨c, found, _, _, rfl⟩ := step_taskPoll taken
    exact ⟨kept, fun pid member => unchanged (callers_set found (by rfl) member)⟩
  | taskAdd call =>
    obtain ⟨c, found, _, rfl⟩ := step_taskAdd taken
    refine ⟨fun pid member => ?_, fun pid member => unchanged (callers_set found (by rfl) member)⟩
    simp only [owners, Channel.taskAdd, List.map_append] at member
    rcases List.mem_append.mp member with old | new
    · exact kept old
    · have called : c.exec.pid ∈ s.callers :=
        List.mem_map_of_mem (f := (·.exec.pid)) (List.mem_of_getElem? found)
      rw [List.mem_singleton.mp new]
      exact List.mem_append_left _ (List.mem_append_right _ called)
  | taskStart call =>
    obtain ⟨c, found, _, rfl⟩ := step_taskStart taken
    refine ⟨?_, fun pid member => unchanged (callers_set found (by rfl) member)⟩
    rw [owners, taskStart_map _ _ fun _ _ => rfl]
    exact kept
  | report call =>
    obtain ⟨c, _, _, rfl⟩ := step_report taken
    exact ⟨kept, fun pid member => unchanged (((List.eraseIdx_sublist _ _).map _).subset member)⟩
  | irq =>
    simp only [Clients.step, Option.some.injEq] at taken
    subst taken
    refine ⟨fewer ?_, unchanged⟩
    cases op with
    | t =>
      rw [finishJob, tIrqFinishJob_map _ fun _ _ => rfl]
      exact ((List.tail_sublist _).map _).subset
    | f | p => exact (irqFinishJob_map s.chan fun _ _ => rfl).subset
  | release pid =>
    simp only [Clients.step, Option.some.injEq] at taken
    subst taken
    refine ⟨fewer ?_, unchanged⟩
    rw [release_map _ _ fun _ _ => rfl]
    exact (List.filter_sublist.map _).subset
  | jobDoneWork =>
    simp only [Clients.step, Option.some.injEq] at taken
    subst taken
    exact ⟨kept, unchanged⟩
  | wait report timeoutNs | waitCheck wait | waitTurn wait signal expired =>
    obtain ⟨waits, rfl⟩ := step_onWaits taken trivial
    exact ⟨kept, unchanged⟩
  | waitTask pid =>
    obtain ⟨_, first, rest, listed, rfl⟩ := step_waitTask taken
    refine ⟨fewer ?_, unchanged⟩
    rw [owners, listed]
    exact List.subset_cons_self _ _

end Clients

/-- The process whose locking call the step begins. -/
def NnaStep.caller : NnaStep → List Nat
  | .lock pid | .trylock pid | .ctxLock pid => [pid]
  | _ => []

namespace NnaClients

/-- The processes with a locking call in progress. -/
def callers (s : NnaClients) : List Nat := s.calls.map (·.pid)

/-- The processes that a job list entry or an open CTX lock stands for. -/
def lockers (s : NnaClients) : List Nat := s.nna.nnaJobList ++ s.ctxOpen

/-- Freeing the mutex of an entry adds no entry. -/
theorem dropJob_subset (nna : Nna) (pid : Nat) :
    (nna.dropJob pid).nnaJobList ⊆ nna.nnaJobList := by
  -- The entry that goes is the only change of the list.
  unfold Nna.dropJob
  split
  · exact List.erase_subset
  · exact fun _ => id

/-- A lock is taken by a call, and calls are begun by the steps of their processes. -/
theorem step_lockers {s t : NnaClients} {a : NnaStep} (taken : step s a = some t) :
    t.lockers ⊆ s.lockers ++ s.callers ∧ t.callers ⊆ s.callers ++ a.caller := by
  -- Only the ends of the two locking calls add an entry or an open CTX lock.
  have kept : s.lockers ⊆ s.lockers ++ s.callers := List.subset_append_left _ _
  have unchanged : s.callers ⊆ s.callers ++ a.caller := List.subset_append_left _ _
  have ended (call : Nat) : (s.calls.eraseIdx call).map (·.pid) ⊆ s.callers :=
    ((List.eraseIdx_sublist _ _).map _).subset
  cases a with
  | lock pid | ctxLock pid =>
    simp only [NnaClients.step, Option.some.injEq] at taken
    subst taken
    exact ⟨kept, by simp [callers, NnaStep.caller]⟩
  | trylock pid =>
    simp only [NnaClients.step] at taken
    split at taken <;> cases taken
    · exact ⟨kept, unchanged⟩
    · exact ⟨kept, by simp [callers, NnaStep.caller]⟩
  | acquire call =>
    obtain ⟨c, found, _, _, rfl⟩ := step_acquire taken
    refine ⟨kept, fun pid member => unchanged ?_⟩
    obtain ⟨c', listed, rfl⟩ := List.mem_map.mp member
    rcases List.mem_or_eq_of_mem_set listed with old | rfl
    · exact List.mem_map_of_mem old
    · exact List.mem_map_of_mem (f := (·.pid)) (List.mem_of_getElem? found)
  | lockFinish call allocated =>
    obtain ⟨c, found, _, finished⟩ := step_lockFinish taken
    have called : c.pid ∈ s.callers := List.mem_map_of_mem (List.mem_of_getElem? found)
    rcases finished with ⟨_, _, rfl⟩ | ⟨_, rfl⟩
    · -- The entry is that of the caller.
      refine ⟨fun pid member => ?_, fun pid member => unchanged (ended call member)⟩
      simp only [lockers, List.mem_append, List.mem_singleton] at member ⊢
      rcases member with (entry | rfl) | opened
      · exact .inl (.inl entry)
      · exact .inr called
      · exact .inl (.inr opened)
    · exact ⟨kept, fun pid member => unchanged (ended call member)⟩
  | unlock pid force =>
    obtain ⟨nna, unlocked, rfl⟩ := Option.map_eq_some_iff.mp taken
    have fewer : nna.nnaJobList ⊆ s.nna.nnaJobList := by
      rcases Nna.unlock_cases unlocked with rfl | ⟨_, _, _, rfl⟩ | ⟨_, _, rfl⟩
      · exact fun _ => id
      · exact dropJob_subset _ _
      · exact fun _ => id
    refine ⟨fun pid member => kept ?_, unchanged⟩
    rcases List.mem_append.mp member with entry | opened
    · exact List.mem_append_left _ (fewer entry)
    · exact List.mem_append_right _ opened
  | ctxAcquire call =>
    obtain ⟨c, found, _, _, rfl⟩ := step_ctxAcquire taken
    have called : c.pid ∈ s.callers := List.mem_map_of_mem (List.mem_of_getElem? found)
    refine ⟨fun pid member => ?_, fun pid member => unchanged (ended call member)⟩
    simp only [lockers, List.mem_append, List.mem_singleton] at member ⊢
    rcases member with entry | opened | rfl
    · exact .inl (.inl entry)
    · exact .inl (.inr opened)
    · exact .inr called
  | ctxUnlock pid =>
    simp only [NnaClients.step, Option.some.injEq] at taken
    subst taken
    refine ⟨fun pid member => kept ?_, unchanged⟩
    rcases List.mem_append.mp member with entry | opened
    · exact List.mem_append_left _ entry
    · exact List.mem_append_right _ (List.erase_subset opened)
  | release pid =>
    obtain ⟨_, rfl⟩ := step_release taken
    refine ⟨fun pid member => kept ?_, unchanged⟩
    rcases List.mem_append.mp member with entry | opened
    · exact List.mem_append_left _ (dropJob_subset _ _ entry)
    · exact List.mem_append_right _ opened

end NnaClients

end Aip
