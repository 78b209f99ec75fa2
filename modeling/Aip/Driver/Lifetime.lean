import Aip.Driver.Bo
import Aip.Driver.ChannelLaws
import Aip.Driver.Job
import Aip.Lib.Runs

/-! The buffer objects that F and P jobs point to, from the lookup at submit to the start. -/

namespace Aip

/-- A channel and the submit calls that have looked up their buffer but not queued their job yet. -/
structure Submits (β : Type) where
  chan : Channel β
  nextId : Nat
  calls : List (Nat × β)
  deriving DecidableEq, Repr

/-- The locked sections of a channel. -/
inductive ChannelStep where
  | enqueue (call : Nat)
  | irq
  | release (pid : Nat)
  | jobDoneWork
  deriving DecidableEq, Repr

namespace Submits

open Channel

variable {β : Type}

/-- The idle channel. -/
def init : Submits β := { chan := Channel.init, nextId := 0, calls := [] }

/-- The unlocked part of `jz_aip_v20_{f,p}_op` has built a job. -/
def resolve (s : Submits β) (pid : Nat) (body : β) : Submits β :=
  { s with calls := s.calls ++ [(pid, body)] }

/-- One locked section. -/
def step (s : Submits β) : ChannelStep → Option (Submits β)
  | .enqueue call =>
    (s.calls[call]?).map fun c =>
      let exec := { id := s.nextId, pid := c.1, state := .initial, seqno := 0, body := c.2 }
      { chan := s.chan.enqueue exec, nextId := s.nextId + 1, calls := s.calls.eraseIdx call }
  | .irq => some { s with chan := s.chan.irqFinishJob }
  | .release pid => some { s with chan := s.chan.release pid }
  | .jobDoneWork => some { s with chan := s.chan.jobDoneWork }

/-- The records that jobs not started yet point to: those of calls, and those of waiting jobs. -/
def pending (node : β → Nat) (s : Submits β) : List Nat :=
  s.calls.map (fun c => node c.2) ++ s.chan.jobList.tail.map fun exec => node exec.body

end Submits

/-- The F and P channels of the device and its buffer objects. -/
structure Lifetime where
  f : Submits FBody
  p : Submits PBody
  bo : BoTable

/-- The steps that use or change buffer objects; the kernel's answers to an append are given. -/
inductive LifetimeStep where
  | boAppend (task : Task) (size dma id : Nat)
  | boDestroy (handle : Nat)
  | boRelease (pid : Nat)
  | fOp (pid : Nat) (dat : SubmitF)
  | pOp (pid : Nat) (dat : SubmitP)
  | f (step : ChannelStep)
  | p (step : ChannelStep)
  deriving DecidableEq, Repr

namespace Lifetime

/-- The idle device. -/
def init : Lifetime := { f := .init, p := .init, bo := .init }

/-- One step of the device. -/
def step (s : Lifetime) : LifetimeStep → Option Lifetime
  | .boAppend task size dma id => (s.bo.append task.nr size dma id).map fun bo => { s with bo := bo }
  | .boDestroy handle => some { s with bo := s.bo.destroy handle }
  | .boRelease pid => some { s with bo := s.bo.release pid }
  | .fOp pid dat =>
    match s.bo.handles.find dat.nodeHandle with
    -- The call fails with `-EFAULT` and frees its job.
    | none => some s
    | some bo => some { s with f := s.f.resolve pid (fOpBody dat bo.ref bo.dma) }
  | .pOp pid dat =>
    match s.bo.handles.find dat.nodeHandle with
    -- The test `exec->node < 0` lets a missing buffer through, and the driver dereferences it.
    | none => none
    | some bo => some { s with p := s.p.resolve pid (pOpBody dat bo.ref bo.dma) }
  | .f locked => (s.f.step locked).map fun f => { s with f := f }
  | .p locked => (s.p.step locked).map fun p => { s with p := p }

/-- The records that some job not started yet points to. -/
def referenced (s : Lifetime) : List Nat := s.f.pending FBody.node ++ s.p.pending PBody.node

/-- Every job not started yet points to a registered buffer object. -/
def Alive (s : Lifetime) : Prop := ∀ ref ∈ s.referenced, s.bo.Live ref

/-- A job that the step starts points to a registered buffer object, from which its address is read. -/
def StartsLive (s : Lifetime) (t : Lifetime) : Prop :=
  (∀ exec, t.f.chan.programmed = exec :: s.f.chan.programmed → t.bo.Live exec.body.node) ∧
  (∀ exec, t.p.chan.programmed = exec :: s.p.chan.programmed → t.bo.Live exec.body.node)

/-- The step frees no buffer object that a job not started yet points to. -/
def SparesReferenced (s : Lifetime) : LifetimeStep → Prop
  | .boDestroy handle => ∀ bo, s.bo.handles.find handle = some bo → bo.ref ∉ s.referenced
  | .boRelease pid => ∀ bo ∈ s.bo.handles.values, bo.pid = pid → bo.ref ∉ s.referenced
  | _ => True

end Lifetime

namespace Submits

open Channel

variable {β : Type}

/-- Starting the first job leaves those behind it waiting. -/
theorem submitNext_tail (ch : Channel β) : ch.submitNext.jobList.tail = ch.jobList.tail := by
  cases listed : ch.jobList <;> simp [submitNext, listed]

/-- The job that is started is the first one. -/
theorem submitNext_started {ch : Channel β} {exec : ExecInfo β}
    (started : ch.submitNext.programmed = exec :: ch.programmed) : ch.firstJob = some exec := by
  -- The list of programmed jobs grows by the head and by nothing else.
  cases listed : ch.jobList with
  | nil => simp [submitNext, listed] at started
  | cons first rest =>
    simp only [submitNext, listed, List.cons.injEq, and_true] at started
    simp [firstJob, listed, started]

/-- Building a job makes its buffer pending. -/
theorem pending_resolve {node : β → Nat} {s : Submits β} {pid : Nat} {body : β} {ref : Nat}
    (member : ref ∈ (s.resolve pid body).pending node) :
    ref ∈ s.pending node ∨ ref = node body := by
  -- The new call is the last of the calls, and the queue is unchanged.
  simp only [pending, resolve, List.map_append, List.mem_append] at member ⊢
  rcases member with (old | new) | job
  · exact .inl (.inl old)
  · exact .inr (by simpa using new)
  · exact .inl (.inr job)

/-- What one locked section does: it starts only a waiting job, and leaves only waiting jobs waiting. -/
structure Serves (node : β → Nat) (s t : Submits β) : Prop where
  served : Served t.chan t.nextId
  waiting : t.pending node ⊆ s.pending node
  started : ∀ exec, t.chan.programmed = exec :: s.chan.programmed → node exec.body ∈ s.pending node

/-- Handing the head over to waiting jobs serves them. -/
theorem Serves.submitNext {node : β → Nat} {s : Submits β} {ch : Channel β}
    (served : Served ch.submitNext s.nextId) (same : ch.programmed = s.chan.programmed)
    (fewer : ch.jobList ⊆ s.chan.jobList.tail) : Serves node s { s with chan := ch.submitNext } := by
  refine ⟨served, ?_, ?_⟩
  · -- A job behind the new head was behind the old one.
    intro ref member
    rcases List.mem_append.mp member with call | job
    · exact List.mem_append_left _ call
    · rw [submitNext_tail] at job
      obtain ⟨exec, listed, rfl⟩ := List.mem_map.mp job
      exact List.mem_append_right _ (List.mem_map_of_mem (fewer (List.mem_of_mem_tail listed)))
  · -- The job started was waiting behind the old head.
    intro exec started
    rw [← same] at started
    have first := List.mem_of_head? (submitNext_started started)
    exact List.mem_append_right _ (List.mem_map_of_mem (fewer first))

/-- A locked section that starts nothing and queues nothing serves the same jobs. -/
theorem Serves.keep {node : β → Nat} {s : Submits β} {ch : Channel β}
    (served : Served ch s.nextId) (same : ch.programmed = s.chan.programmed)
    (fewer : ch.jobList.tail ⊆ s.chan.jobList.tail) : Serves node s { s with chan := ch } := by
  -- A job that waits now waited before, and none was started.
  refine ⟨served, ?_, ?_⟩
  · intro ref member
    rcases List.mem_append.mp member with call | job
    · exact List.mem_append_left _ call
    · obtain ⟨exec, listed, rfl⟩ := List.mem_map.mp job
      exact List.mem_append_right _ (List.mem_map_of_mem (fewer listed))
  · intro exec started
    -- A list is not one longer than itself.
    simp [same] at started

/-- Queueing the job of a call serves it at once or leaves it waiting. -/
theorem serves_enqueue {node : β → Nat} {s : Submits β} (served : Served s.chan s.nextId)
    {call : Nat} {c : Nat × β} (found : s.calls[call]? = some c) :
    Serves node s
      { chan := s.chan.enqueue
          { id := s.nextId, pid := c.1, state := .initial, seqno := 0, body := c.2 }
        nextId := s.nextId + 1
        calls := s.calls.eraseIdx call } := by
  have called : node c.2 ∈ s.calls.map fun c => node c.2 :=
    List.mem_map_of_mem (f := fun c => node c.2) (List.mem_of_getElem? found)
  have remaining : (s.calls.eraseIdx call).map (fun c => node c.2) ⊆ s.calls.map fun c => node c.2 :=
    (List.eraseIdx_sublist _ _ |>.map _).subset
  refine ⟨served.enqueue rfl (by simp [Running]), ?_, ?_⟩
  · -- The new job is behind the head unless it is the head itself.
    intro ref member
    rcases List.mem_append.mp member with call | job
    · exact List.mem_append_left _ (remaining call)
    · cases listed : s.chan.jobList with
      | nil => simp [enqueue_nil listed, submitNext_tail] at job
      | cons first rest =>
        have known := served.known first (by simp [listed])
        have other : (⟨s.nextId, c.1, .initial, 0, c.2⟩ : ExecInfo β).id ≠ first.id :=
          Nat.ne_of_gt known
        simp only [enqueue_cons listed other, listed, List.cons_append, List.tail_cons,
          List.map_append, List.mem_append] at job
        rcases job with waiting | new
        · exact List.mem_append_right _ (by simpa [listed] using waiting)
        · have same : ref = node c.2 := by simpa using new
          exact List.mem_append_left _ (same ▸ called)
  · -- A job is started at once only on an empty list.
    intro exec started
    cases listed : s.chan.jobList with
    | nil =>
      simp only [enqueue_nil listed, submitNext, List.cons.injEq, and_true] at started
      rw [← started]
      exact List.mem_append_left _ called
    | cons first rest =>
      have known := served.known first (by simp [listed])
      have other : (⟨s.nextId, c.1, .initial, 0, c.2⟩ : ExecInfo β).id ≠ first.id :=
        Nat.ne_of_gt known
      simp [enqueue_cons listed other] at started

/-- Every locked section of a served channel serves waiting jobs only. -/
theorem serves_step {node : β → Nat} {s t : Submits β} {a : ChannelStep}
    (served : Served s.chan s.nextId) (taken : s.step a = some t) : Serves node s t := by
  cases a with
  | enqueue call =>
    obtain ⟨c, found, rfl⟩ := Option.map_eq_some_iff.mp taken
    exact serves_enqueue served found
  -- Completion hands the head over to the first job behind it.
  | irq =>
    simp only [Submits.step, Option.some.injEq] at taken
    subst taken
    have after := served.irqFinishJob
    cases listed : s.chan.jobList with
    | nil =>
      have same : s.chan.irqFinishJob = s.chan := by simp [irqFinishJob, listed]
      rw [same] at after ⊢
      exact Serves.keep after rfl fun _ => id
    | cons first rest =>
      have running := served.running
      rw [listed] at running
      rw [irqFinishJob_running listed running.1] at after ⊢
      exact Serves.submitNext after rfl (by simp [listed])
  -- A release hands the head over only when it withdraws the head.
  | release pid =>
    simp only [Submits.step, Option.some.injEq] at taken
    subst taken
    have after := served.release pid
    cases listed : s.chan.jobList with
    | nil =>
      have same : s.chan.release pid = s.chan := by
        simp [Channel.release, listed]
        rw [← listed]
      rw [same] at after ⊢
      exact Serves.keep after rfl fun _ => id
    | cons first rest =>
      have running := served.running
      rw [listed] at running
      by_cases owner : first.pid = pid
      · subst owner
        rw [release_running listed running.1] at after ⊢
        apply Serves.submitNext after rfl
        simp only [listed, List.tail_cons]
        exact List.filter_sublist.subset
      · rw [release_waiting listed served.running owner] at after ⊢
        apply Serves.keep after rfl
        simp only [listed, List.tail_cons]
        exact List.filter_sublist.subset
  | jobDoneWork =>
    simp only [Submits.step, Option.some.injEq] at taken
    subst taken
    exact Serves.keep served.jobDoneWork rfl fun _ => id

end Submits

namespace Lifetime

open Submits Channel

/-- Both queues are served. -/
structure Sound (s : Lifetime) : Prop where
  f : Served s.f.chan s.f.nextId
  p : Served s.p.chan s.p.nextId

/-- Every step keeps both queues served. -/
theorem Sound.step {s t : Lifetime} {a : LifetimeStep} (sound : Sound s)
    (taken : step s a = some t) : Sound t := by
  -- Only the locked sections change a queue.
  cases a with
  | boAppend task size dma id =>
    obtain ⟨bo, _, rfl⟩ := Option.map_eq_some_iff.mp taken
    exact ⟨sound.f, sound.p⟩
  | boDestroy handle | boRelease pid =>
    simp only [Lifetime.step, Option.some.injEq] at taken
    subst taken
    exact ⟨sound.f, sound.p⟩
  | fOp pid dat =>
    simp only [Lifetime.step] at taken
    split at taken <;> cases taken <;> exact ⟨sound.f, sound.p⟩
  | pOp pid dat =>
    simp only [Lifetime.step] at taken
    split at taken <;> cases taken
    exact ⟨sound.f, sound.p⟩
  | f locked =>
    obtain ⟨f, served, rfl⟩ := Option.map_eq_some_iff.mp taken
    have serves : Serves FBody.node s.f f := serves_step sound.f served
    exact ⟨serves.served, sound.p⟩
  | p locked =>
    obtain ⟨p, served, rfl⟩ := Option.map_eq_some_iff.mp taken
    have serves : Serves PBody.node s.p p := serves_step sound.p served
    exact ⟨sound.f, serves.served⟩

/-- After a removal all jobs are alive exactly when no record that one points to was selected. -/
theorem alive_removeIf {s : Lifetime} (alive : Alive s) (drop : Nat → BoInfo → Bool) :
    Alive { s with bo := s.bo.removeIf drop } ↔
      ∀ id bo, s.bo.handles.find id = some bo → drop id bo = true → bo.ref ∉ s.referenced := by
  constructor
  · -- A selected record is not live afterwards.
    intro after id bo found selected member
    have kept := (BoTable.live_removeIf.mp (after bo.ref member)).2 id bo found rfl
    exact absurd selected (by simp [kept])
  · intro spared ref member
    refine BoTable.live_removeIf.mpr ⟨alive ref member, fun id bo found same => ?_⟩
    -- A selected record under this reference would be one that a job points to.
    by_contra selected
    exact spared id bo found (by simpa using selected) (same ▸ member)

/-- The steps that spare the buffers of waiting jobs are exactly those that leave them all alive. -/
theorem alive_step {s t : Lifetime} {a : LifetimeStep} (sound : Sound s) (alive : Alive s)
    (taken : step s a = some t) : Alive t ↔ SparesReferenced s a := by
  -- Removals are the only steps that can free a buffer, and each names what it selects.
  cases a with
  | boAppend task size dma id =>
    obtain ⟨bo, appended, rfl⟩ := Option.map_eq_some_iff.mp taken
    exact ⟨fun _ => trivial, fun _ ref member => (alive ref member).append appended⟩
  | boDestroy handle =>
    simp only [Lifetime.step, Option.some.injEq] at taken
    subst taken
    rw [BoTable.destroy, alive_removeIf alive]
    constructor
    · intro spared bo found
      exact spared handle bo found (by simp)
    · intro spared id bo found selected
      have same : id = handle := by simpa using selected
      exact spared bo (same ▸ found)
  | boRelease pid =>
    simp only [Lifetime.step, Option.some.injEq] at taken
    subst taken
    rw [BoTable.release, alive_removeIf alive]
    constructor
    · intro spared bo member owner
      obtain ⟨id, found⟩ := Idr.exists_find member
      exact spared id bo found (by simpa using owner)
    · intro spared id bo found selected
      exact spared bo (Idr.mem_values_of_find found) (by simpa using selected)
  | fOp pid dat =>
    simp only [Lifetime.step] at taken
    split at taken
    · cases taken
      exact ⟨fun _ => trivial, fun _ => alive⟩
    case h_2 bo found =>
      cases taken
      refine ⟨fun _ => trivial, fun _ ref member => ?_⟩
      -- The new call points to the buffer that was just found.
      rcases List.mem_append.mp member with own | other
      · rcases pending_resolve own with old | same
        · exact alive ref (List.mem_append_left _ old)
        · exact same ▸ BoTable.live_of_find found
      · exact alive ref (List.mem_append_right _ other)
  | pOp pid dat =>
    simp only [Lifetime.step] at taken
    split at taken
    · cases taken
    case h_2 bo found =>
      cases taken
      refine ⟨fun _ => trivial, fun _ ref member => ?_⟩
      rcases List.mem_append.mp member with other | own
      · exact alive ref (List.mem_append_left _ other)
      · rcases pending_resolve own with old | same
        · exact alive ref (List.mem_append_right _ old)
        · exact same ▸ BoTable.live_of_find found
  | f locked =>
    obtain ⟨f, served, rfl⟩ := Option.map_eq_some_iff.mp taken
    have serves : Serves FBody.node s.f f := serves_step sound.f served
    refine ⟨fun _ => trivial, fun _ ref member => alive ref ?_⟩
    rcases List.mem_append.mp member with own | other
    · exact List.mem_append_left _ (serves.waiting own)
    · exact List.mem_append_right _ other
  | p locked =>
    obtain ⟨p, served, rfl⟩ := Option.map_eq_some_iff.mp taken
    have serves : Serves PBody.node s.p p := serves_step sound.p served
    refine ⟨fun _ => trivial, fun _ ref member => alive ref ?_⟩
    rcases List.mem_append.mp member with other | own
    · exact List.mem_append_left _ other
    · exact List.mem_append_right _ (serves.waiting own)

/-- From a state whose waiting jobs are alive, only jobs with a registered buffer are started. -/
theorem startsLive_step {s t : Lifetime} {a : LifetimeStep} (sound : Sound s) (alive : Alive s)
    (taken : step s a = some t) : StartsLive s t := by
  -- Only a locked section starts a job, and that job was waiting with its buffer.
  cases a with
  | boAppend task size dma id =>
    obtain ⟨bo, _, rfl⟩ := Option.map_eq_some_iff.mp taken
    exact ⟨fun _ started => by simp at started, fun _ started => by simp at started⟩
  | boDestroy handle | boRelease pid =>
    simp only [Lifetime.step, Option.some.injEq] at taken
    subst taken
    exact ⟨fun _ started => by simp at started, fun _ started => by simp at started⟩
  | fOp pid dat =>
    simp only [Lifetime.step] at taken
    split at taken <;> cases taken <;>
      exact ⟨fun _ started => by simp [resolve] at started, fun _ started => by simp at started⟩
  | pOp pid dat =>
    simp only [Lifetime.step] at taken
    split at taken <;> cases taken
    exact ⟨fun _ started => by simp at started, fun _ started => by simp [resolve] at started⟩
  | f locked =>
    obtain ⟨f, served, rfl⟩ := Option.map_eq_some_iff.mp taken
    have serves : Serves FBody.node s.f f := serves_step sound.f served
    refine ⟨fun exec started => ?_, fun exec started => by simp at started⟩
    exact alive _ (List.mem_append_left _ (serves.started exec started))
  | p locked =>
    obtain ⟨p, served, rfl⟩ := Option.map_eq_some_iff.mp taken
    have serves : Serves PBody.node s.p p := serves_step sound.p served
    refine ⟨fun exec started => by simp at started, fun exec started => ?_⟩
    exact alive _ (List.mem_append_right _ (serves.started exec started))

/--
In a run that frees no buffer object while a job that is not started yet points to it, every job is
started with its buffer registered; and such runs are exactly those in which the buffers of all jobs
not started yet stay registered throughout.
-/
theorem startsLive_spared (run : List LifetimeStep) :
    (Runs.Each step (fun s a _ => SparesReferenced s a) init run →
      Runs.Each step (fun s _ t => StartsLive s t) init run) ∧
    (Runs.Always step Alive init run
      ↔ Runs.Each step (fun s a _ => SparesReferenced s a) init run) := by
  have start : Sound init ∧ Alive init :=
    ⟨⟨Served.init, Served.init⟩, by
      simp [Alive, referenced, Submits.pending, init, Submits.init, Channel.init]⟩
  -- The condition keeps the buffers of waiting jobs, step by step.
  have preserved : ∀ s a t, Sound s ∧ Alive s → step s a = some t → SparesReferenced s a →
      Sound t ∧ Alive t := by
    intro s a t invariant taken spares
    obtain ⟨sound, alive⟩ := invariant
    exact ⟨sound.step taken, (alive_step sound alive taken).mpr spares⟩
  constructor
  · apply Runs.each_of_invariant preserved
    · intro s a t invariant taken _
      obtain ⟨sound, alive⟩ := invariant
      exact startsLive_step sound alive taken
    · exact start
  · apply Runs.always_safe_iff (I := fun s => Sound s ∧ Alive s) (fun s h => h.2) preserved
    · intro s a t invariant taken after
      obtain ⟨sound, alive⟩ := invariant
      exact (alive_step sound alive taken).mp after
    · exact start

/-- Two F jobs of two processes, the buffer of the second one destroyed while the first one runs. -/
def destroyedRun : List LifetimeStep :=
  [.boAppend ⟨1, 1⟩ 4096 0 1, .boAppend ⟨2, 2⟩ 4096 4096 2, .fOp 1 ⟨0, 0, 0, 1, 1, 0⟩,
    .f (.enqueue 0), .fOp 2 ⟨0, 0, 0, 2, 1, 4096⟩, .f (.enqueue 0), .boDestroy 2, .f .irq]

/-- The completion of the first job starts the second one, whose buffer is gone. -/
theorem startsLive_destroyed :
    ¬ Runs.Each step (fun s _ t => StartsLive s t) init destroyedRun := by
  -- The states on both sides of the completion are computed.
  intro each
  have last : ∃ s t, Runs.exec step init destroyedRun.dropLast = some s ∧ step s (.f .irq) = some t ∧
      (∃ exec, t.f.chan.programmed = exec :: s.f.chan.programmed ∧ exec.body.node = 1) ∧
      t.bo.handles.values.map BoInfo.ref = [0] :=
    ⟨_, _, rfl, rfl, ⟨_, rfl, rfl⟩, rfl⟩
  obtain ⟨s, t, reached, taken, ⟨exec, started, node⟩, left⟩ := last
  obtain ⟨bo, member, same⟩ :=
    (Runs.each_iff.mp each _ _ s t (List.prefix_refl _) reached taken).1 exec started
  -- Only the record of the first buffer is left.
  have listed := List.mem_map_of_mem (f := BoInfo.ref) member
  rw [left, same, node] at listed
  simp at listed

end Lifetime

end Aip
