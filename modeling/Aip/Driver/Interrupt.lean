import Aip.Driver.ChannelLaws
import Aip.Driver.Job
import Aip.Lib.Runs

/-! The F and P interrupt, whose handler reads the status before it takes the channel's lock. -/

namespace Aip

/--
An F or P channel with its hardware and its interrupt handler.

The running job is the one whose chain the hardware executes. The raised jobs are those that have
set the chain bit of the status register since it was last cleared. The handler, while it runs,
holds the jobs that had set the bit it read.
-/
structure Interrupts (β : Type) where
  chan : Channel β
  nextId : Nat
  running : Option Nat
  raised : List Nat
  handler : Option (List Nat)
  deriving DecidableEq, Repr

/-- The steps of the clients, of the hardware and of the two halves of the handler. -/
inductive InterruptStep (β : Type) where
  | submit (pid : Nat) (body : β)
  | hwFinish
  | irqRead
  | irqFinish
  | release (pid : Nat)
  | jobDoneWork
  deriving DecidableEq, Repr

namespace Interrupts

variable {β : Type}

open Channel

/-- The idle device. -/
def init : Interrupts β :=
  { chan := Channel.init, nextId := 0, running := none, raised := [], handler := none }

/-- `jz_aip_v20_{f,p}_reset`, which spins until the hardware is idle and may clear the status. -/
def reset (resetClears : Bool) (s : Interrupts β) : Option (Interrupts β) :=
  if s.running.isSome then none
  else some { s with raised := if resetClears then [] else s.raised }

/-- The lists as a locked section leaves them; a job that it programmed now runs on the hardware. -/
def program (resetClears : Bool) (s : Interrupts β) (chan : Channel β) : Option (Interrupts β) :=
  if chan.programmed.length = s.chan.programmed.length then some { s with chan := chan }
  else
    (s.reset resetClears).map fun s =>
      { s with chan := chan, running := chan.programmed.head?.map (·.id) }

/-- One step of the device; whether a soft reset clears the status register is left open. -/
def step (resetClears : Bool) (s : Interrupts β) : InterruptStep β → Option (Interrupts β)
  | .submit pid body =>
    let exec := { id := s.nextId, pid := pid, state := .initial, seqno := 0, body := body }
    ({ s with nextId := s.nextId + 1 }).program resetClears (s.chan.enqueue exec)
  -- The chain ends, and its interrupt is raised for the job that ran.
  | .hwFinish =>
    s.running.map fun id => { s with running := none, raised := s.raised ++ [id] }
  -- `AIP_V20_READL` and `AIP_V20_WRITEL` of the status, outside the lock.
  | .irqRead =>
    if s.handler.isNone ∧ s.raised ≠ [] then
      some { s with raised := [], handler := some s.raised }
    else none
  -- The locked call of `jz_aip_v20_{f,p}_irq_finish_job`.
  | .irqFinish =>
    if s.handler.isSome then
      ({ s with handler := none }).program resetClears s.chan.irqFinishJob
    else none
  | .release pid =>
    let stops := s.chan.jobList.any fun info => info.pid = pid ∧ info.state = .running
    -- The loop resets the hardware for a running job before it looks at what is left.
    (if stops then s.reset resetClears else some s).bind fun s =>
      s.program resetClears (s.chan.release pid)
  | .jobDoneWork => some { s with chan := s.chan.jobDoneWork }

/-- A step finishes no job, or it is the locked call and the job is one whose interrupt it consumed. -/
def Attributed (s : Interrupts β) (a : InterruptStep β) (t : Interrupts β) : Prop :=
  (t.chan.jobDoneList ⊆ s.chan.jobDoneList ∧ t.chan.finishedSeqno = s.chan.finishedSeqno) ∨
  ∃ exec ids, a = .irqFinish ∧ s.handler = some ids ∧ exec.id ∈ ids ∧
    t.chan.jobDoneList = s.chan.jobDoneList ++ [exec] ∧ t.chan.finishedSeqno = exec.seqno

/-- The locked call finds the list empty, or a job whose interrupt it consumed is still queued. -/
def NotWithdrawn (s : Interrupts β) : InterruptStep β → Prop
  | .irqFinish => ∀ ids, s.handler = some ids →
      s.chan.jobList = [] ∨ ∃ exec ∈ s.chan.jobList, exec.id ∈ ids
  | _ => True

/-- The queue is served, and only jobs that were programmed have raised interrupts. -/
structure Sound (s : Interrupts β) : Prop where
  served : Served s.chan s.nextId
  running : ∀ id ∈ s.running, id ∈ s.chan.programmed.map (·.id)
  raised : ∀ id ∈ s.raised, id ∈ s.chan.programmed.map (·.id)
  handler : ∀ ids ∈ s.handler, ∀ id ∈ ids, id ∈ s.chan.programmed.map (·.id)

/-- Nothing is programmed on the idle device. -/
theorem Sound.init : Sound (init : Interrupts β) := by
  refine ⟨Served.init, ?_, ?_, ?_⟩ <;> simp [Interrupts.init]

/-- A reset keeps the lists, and no interrupt is pending after it that was not before. -/
theorem reset_spec {resetClears : Bool} {s t : Interrupts β} (taken : s.reset resetClears = some t) :
    t.chan = s.chan ∧ t.nextId = s.nextId ∧ t.running = s.running ∧ t.handler = s.handler ∧
      t.raised ⊆ s.raised := by
  -- The reset touches the status register only, and it may only clear it.
  unfold reset at taken
  split at taken
  · cases taken
  · cases taken
    refine ⟨rfl, rfl, rfl, rfl, ?_⟩
    cases resetClears <;> simp

/-- What a locked section does to the device beyond its lists. -/
theorem program_spec {resetClears : Bool} {s t : Interrupts β} {chan : Channel β}
    (taken : s.program resetClears chan = some t) :
    t.chan = chan ∧ t.nextId = s.nextId ∧ t.handler = s.handler ∧ t.raised ⊆ s.raised ∧
      ∀ id ∈ t.running, id ∈ s.running ∨ id ∈ chan.programmed.map (·.id) := by
  -- The section resets the hardware only when it programs a job.
  unfold program at taken
  split at taken
  · cases taken
    exact ⟨rfl, rfl, rfl, fun _ => id, fun id member => .inl member⟩
  · obtain ⟨idle, reset, rfl⟩ := Option.map_eq_some_iff.mp taken
    obtain ⟨_, nextId, _, handler, raised⟩ := reset_spec reset
    refine ⟨rfl, nextId, handler, raised, fun id member => .inr ?_⟩
    -- The job that was programmed last is the one that runs.
    obtain ⟨exec, first, rfl⟩ := Option.map_eq_some_iff.mp member
    exact List.mem_map_of_mem (List.mem_of_head? first)

/-- A locked section that only adds to the started jobs keeps the device sound. -/
theorem Sound.program {resetClears : Bool} {s t : Interrupts β} {chan : Channel β} (sound : Sound s)
    (served : Served chan s.nextId) (more : s.chan.programmed <:+ chan.programmed)
    (taken : s.program resetClears chan = some t) : Sound t := by
  -- Jobs that were programmed before are still among those programmed.
  obtain ⟨lists, nextId, handler, raised, running⟩ := program_spec taken
  have started : ∀ {id : Nat}, id ∈ s.chan.programmed.map (·.id) → id ∈ chan.programmed.map (·.id) :=
    fun member => ((more.sublist).map _).subset member
  refine ⟨by rw [lists, nextId]; exact served, ?_, ?_, ?_⟩
  · intro id member
    rw [lists]
    rcases running id member with old | new
    · exact started (sound.running id old)
    · exact new
  · intro id member
    rw [lists]
    exact started (sound.raised id (raised member))
  · intro ids member id consumed
    rw [lists]
    rw [handler] at member
    exact started (sound.handler ids member id consumed)

/-- Every step keeps the device sound. -/
theorem Sound.step {resetClears : Bool} {s t : Interrupts β} {a : InterruptStep β} (sound : Sound s)
    (taken : step resetClears s a = some t) : Sound t := by
  obtain ⟨served, running, raised, handler⟩ := sound
  cases a with
  -- A submit allocates a record and then runs its locked section.
  | submit pid body =>
    simp only [Interrupts.step] at taken
    have allocated : Sound { s with nextId := s.nextId + 1 } :=
      ⟨served.grow (Nat.le_succ _), running, raised, handler⟩
    exact allocated.program (served.enqueue rfl (by simp [Running])) (enqueue_programmed _ _) taken
  | hwFinish =>
    obtain ⟨id, runs, rfl⟩ := Option.map_eq_some_iff.mp taken
    refine ⟨served, by simp, fun id' member => ?_, handler⟩
    rcases List.mem_append.mp member with old | new
    · exact raised id' old
    · -- The interrupt raised now is that of the job that ran.
      rw [List.mem_singleton.mp new]
      exact running id runs
  -- What the handler holds is what was raised.
  | irqRead =>
    simp only [Interrupts.step, Option.ite_none_right_eq_some, Option.some.injEq] at taken
    obtain ⟨_, rfl⟩ := taken
    refine ⟨served, running, by simp, fun ids member => ?_⟩
    rw [← Option.mem_some.mp member]
    exact raised
  | irqFinish =>
    simp only [Interrupts.step, Option.ite_none_right_eq_some] at taken
    have ended : Sound { s with handler := none } := ⟨served, running, raised, by simp⟩
    exact ended.program served.irqFinishJob (irqFinishJob_programmed _) taken.2
  | release pid =>
    simp only [Interrupts.step] at taken
    obtain ⟨idle, reset, taken⟩ := Option.bind_eq_some_iff.mp taken
    -- Whether or not the hardware was reset, the lists and the interrupts are those of before.
    have same : Sound idle ∧ idle.chan = s.chan ∧ idle.nextId = s.nextId := by
      split at reset
      · obtain ⟨lists, nextId, runs, consumed, pending⟩ := reset_spec reset
        refine ⟨⟨by rw [lists, nextId]; exact served, ?_, ?_, ?_⟩, lists, nextId⟩
        · rw [runs, lists]
          exact running
        · rw [lists]
          exact fun id member => raised id (pending member)
        · rw [consumed, lists]
          exact handler
      · cases reset
        exact ⟨⟨served, running, raised, handler⟩, rfl, rfl⟩
    obtain ⟨sound, lists, nextId⟩ := same
    exact sound.program (by rw [lists, nextId]; exact served.release pid)
      (release_programmed _ _) taken
  | jobDoneWork =>
    simp only [Interrupts.step, Option.some.injEq] at taken
    subst taken
    exact ⟨served.jobDoneWork, running, raised, handler⟩

/-- A job is attributed to its own interrupt exactly when that job has not been withdrawn. -/
theorem attributed_step {resetClears : Bool} {s t : Interrupts β} {a : InterruptStep β}
    (sound : Sound s) (taken : step resetClears s a = some t) :
    Attributed s a t ↔ NotWithdrawn s a := by
  cases a with
  -- Off the locked call, no step adds to the done list.
  | submit pid body =>
    simp only [Interrupts.step] at taken
    obtain ⟨lists, _⟩ := program_spec taken
    exact ⟨fun _ => trivial, fun _ => .inl (by simp [lists])⟩
  | hwFinish =>
    obtain ⟨id, _, rfl⟩ := Option.map_eq_some_iff.mp taken
    exact ⟨fun _ => trivial, fun _ => .inl (by simp)⟩
  | irqRead =>
    simp only [Interrupts.step, Option.ite_none_right_eq_some, Option.some.injEq] at taken
    obtain ⟨_, rfl⟩ := taken
    exact ⟨fun _ => trivial, fun _ => .inl (by simp)⟩
  | release pid =>
    simp only [Interrupts.step] at taken
    obtain ⟨idle, reset, taken⟩ := Option.bind_eq_some_iff.mp taken
    obtain ⟨lists, _⟩ := program_spec taken
    have same : idle.chan = s.chan := by
      split at reset
      · exact (reset_spec reset).1
      · cases reset
        rfl
    exact ⟨fun _ => trivial, fun _ => .inl (by simp [lists, same])⟩
  | jobDoneWork =>
    simp only [Interrupts.step, Option.some.injEq] at taken
    subst taken
    exact ⟨fun _ => trivial, fun _ => .inl ⟨(List.tail_sublist _).subset, rfl⟩⟩
  -- The locked call is the one step that completes a job.
  | irqFinish =>
    simp only [Interrupts.step, Option.ite_none_right_eq_some] at taken
    obtain ⟨active, taken⟩ := taken
    obtain ⟨ids, consumed⟩ := Option.isSome_iff_exists.mp active
    obtain ⟨lists, _⟩ := program_spec taken
    cases listed : s.chan.jobList with
    | nil =>
      -- There is no job to complete.
      have same : s.chan.irqFinishJob = s.chan := by simp [irqFinishJob, listed]
      refine ⟨fun _ _ _ => .inl listed, fun _ => .inl ?_⟩
      simp [lists, same]
    | cons first rest =>
      -- The running head moves to the done list, whatever interrupt was read.
      have served := sound.served
      have running := served.running
      rw [listed] at running
      have done : t.chan.jobDoneList = s.chan.jobDoneList ++ [first] ∧
          t.chan.finishedSeqno = first.seqno := by
        rw [lists, irqFinishJob_running listed running.1]
        simp
      constructor
      · intro attributed ids' read
        rcases attributed with ⟨none, _⟩ | ⟨exec, ids'', _, read', own, moved, _⟩
        · -- The head was not among the finished jobs before.
          have before := none (done.1 ▸ List.mem_append_right _ (List.mem_singleton_self first))
          have distinct := served.distinct
          rw [List.map_append, List.nodup_append] at distinct
          exact absurd rfl (distinct.2.2 first.id (by simp [listed]) first.id
            (List.mem_map_of_mem before))
        · -- The job moved to the done list is the head, so the head is queued still.
          rw [read] at read'
          cases read'
          have same : first = exec := by simpa [moved] using done.1.symm
          exact .inr ⟨first, by simp [listed], same ▸ own⟩
      · intro queued
        rcases queued ids consumed with empty | ⟨exec, member, own⟩
        · simp [listed] at empty
        · -- A queued job that was programmed before is the head.
          have programmed := sound.handler ids consumed exec.id own
          have head : exec = first := by
            rw [listed] at member
            rcases List.mem_cons.mp member with same | behind
            · exact same
            · exact absurd programmed (served.unstarted exec (by rw [listed]; exact behind))
          exact .inr ⟨first, ids, rfl, consumed, head ▸ own, done.1, done.2⟩

/--
Every completed job is one whose chain interrupt the handler consumed, if and only if no release
withdraws that job between the handler's read of the status and its locked call while the list has
or gets another job.
-/
theorem attributed_iff (resetClears : Bool) (run : List (InterruptStep β)) :
    Runs.Each (step resetClears) Attributed init run
      ↔ Runs.Each (step resetClears) (fun s a _ => NotWithdrawn s a) init run :=
  Runs.each_congr (fun _ _ _ sound taken => sound.step taken)
    (fun _ _ _ sound taken => attributed_step sound taken) Sound.init

/-- A run in which the owner of the finished job is released between the two halves of the handler. -/
def withdrawnRun : List (InterruptStep FBody) :=
  [.submit 1 default, .submit 2 default, .hwFinish, .irqRead, .release 1, .irqFinish]

/-- The locked call of that run finishes the second job with the interrupt of the first. -/
theorem withdrawnRun_unattributed (resetClears : Bool) :
    ¬ Runs.Each (step resetClears) Attributed init withdrawnRun := by
  -- The states on both sides of the last step are computed.
  intro each
  have finish : ∃ s t, Runs.exec (step resetClears) init withdrawnRun.dropLast = some s ∧
      step resetClears s .irqFinish = some t ∧ s.handler = some [0] ∧ s.chan.jobDoneList = [] ∧
      t.chan.jobDoneList = [⟨1, 2, .running, 2, default⟩] := by
    cases resetClears <;> exact ⟨_, _, rfl, rfl, rfl, rfl, rfl⟩
  obtain ⟨s, t, reached, taken, consumed, before, after⟩ := finish
  rcases Runs.each_iff.mp each _ _ s t (List.prefix_refl _) reached taken with
    ⟨none, _⟩ | ⟨exec, ids, _, read, own, moved, _⟩
  · rw [before, after] at none
    simp at none
  · -- The consumed interrupt is that of job 0, and the finished job is job 1.
    rw [before, after] at moved
    rw [consumed] at read
    cases read
    have same : exec.id = 1 := by
      rw [← (List.cons.inj moved).1]
    simp [same] at own

/-- Whether or not a reset clears the status, the withdrawn job's interrupt finishes the next job. -/
theorem attributed_withdrawn : ¬ Runs.Each (step false) Attributed init withdrawnRun ∧
    ¬ Runs.Each (step true) Attributed init withdrawnRun :=
  ⟨withdrawnRun_unattributed false, withdrawnRun_unattributed true⟩

end Interrupts

end Aip
