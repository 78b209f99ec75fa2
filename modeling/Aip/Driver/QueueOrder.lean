import Aip.Driver.ClientsLaws
import Aip.Driver.Job

/-! The order of the F and P job queues over whole runs of their clients. -/

namespace Aip

namespace Channel

variable {β : Type}

/-- What a job queue promises about the jobs on it. -/
structure Queue (ch : Channel β) : Prop where
  running : Ticket.HeadOnly Running ch.jobList
  programmed : ∀ exec, ch.firstJob = some exec → ch.programmed.head?.map (·.id) = some exec.id
  increasing : (ch.jobList.map (·.seqno)).Pairwise (· < ·)
  pending : ∀ exec ∈ ch.jobList, ch.finishedSeqno < exec.seqno ∧ exec.seqno ≤ ch.submitedSeqno
  distinct : ((ch.jobList ++ ch.jobDoneList).map (·.id)).Nodup

/-- A served head and ordered numbers are all that the queue promises. -/
theorem Queue.of_served {ch : Channel β} {nextId : Nat} (served : Served ch nextId)
    (numbered : Numbered ch) : Queue ch where
  running := served.running
  programmed := served.last
  increasing := numbered.window.sorted
  pending := fun _ member =>
    ⟨numbered.window.pending _ (List.mem_map_of_mem member),
      numbered.window.known _ (List.mem_map_of_mem member)⟩
  distinct := served.distinct

end Channel

namespace Clients

open Channel

variable {β : Type}

/-- An F or P channel whose counter has not wrapped: its queue is served and its numbers are in order. -/
structure Ordered (s : Clients β) : Prop where
  served : Served s.chan s.nextId
  numbered : Numbered s.chan
  counter : s.chan.submitedSeqno = s.issued
  plain : ∀ c ∈ s.calls, c.phase = .returned

/-- A fresh channel is in order. -/
theorem Ordered.init : Ordered (init : Clients β) :=
  ⟨Served.init, Numbered.init, rfl, by simp [Clients.init]⟩

/-- Between submits, the queue of an F or P channel changes only by completion, release and cleanup. -/
theorem step_queue {op : ChOp} (queued : op ≠ .t) {s t : Clients β} {a : ClientStep β}
    (plain : ∀ c ∈ s.calls, c.phase = .returned) (taken : step op s a = some t) :
    (∀ c ∈ t.calls, c ∈ s.calls ∨ c.phase = .returned ∧ c.exec.id < t.nextId) ∧
    ((∃ pid body, t.chan = s.chan.enqueue (s.newExec pid body) ∧ t.nextId = s.nextId + 1 ∧
        t.issued = s.issued + 1) ∨
      t.nextId = s.nextId ∧ t.issued = s.issued ∧
        (t.chan = s.chan ∨ t.chan = s.chan.irqFinishJob ∨ (∃ pid, t.chan = s.chan.release pid) ∨
          t.chan = s.chan.jobDoneWork)) := by
  -- No call on these channels is ever inside a session, so the session steps are not enabled.
  have outside : ∀ {call : Nat} {phase : SubmitPhase} {next : SubmitCall β → Option (Clients β)},
      phase ≠ .returned → s.withCall call phase next ≠ some t := by
    intro call phase next inside continued
    obtain ⟨c, found, here, _⟩ := withCall_eq_some.mp continued
    exact inside (here.symm.trans (plain c (List.mem_of_getElem? found)))
  cases a with
  | op pid body =>
    simp only [Clients.step, Option.some.injEq] at taken
    subst taken
    refine ⟨fun c member => ?_, .inl ⟨pid, body, rfl, rfl, rfl⟩⟩
    rcases List.mem_append.mp member with old | new
    · exact .inl old
    · rw [List.mem_singleton.mp new]
      exact .inr ⟨rfl, Nat.lt_succ_self _⟩
  | taskOp pid body => simp [Clients.step, queued] at taken
  | taskLock call => exact absurd taken (outside (by decide))
  | taskPoll call => exact absurd taken (outside (by decide))
  | taskAdd call => exact absurd taken (outside (by decide))
  | taskStart call => exact absurd taken (outside (by decide))
  | report call =>
    obtain ⟨c, _, _, rfl⟩ := step_report taken
    exact ⟨fun c member => .inl (List.mem_of_mem_eraseIdx member), .inr ⟨rfl, rfl, .inl rfl⟩⟩
  | irq =>
    simp only [Clients.step, Option.some.injEq] at taken
    subst taken
    have finish : s.chan.finishJob op = s.chan.irqFinishJob := by
      cases op with
      | t => exact absurd rfl queued
      | f => rfl
      | p => rfl
    exact ⟨fun c member => .inl member, .inr ⟨rfl, rfl, .inr (.inl finish)⟩⟩
  | release pid =>
    simp only [Clients.step, Option.some.injEq] at taken
    subst taken
    exact ⟨fun c member => .inl member, .inr ⟨rfl, rfl, .inr (.inr (.inl ⟨pid, rfl⟩))⟩⟩
  | jobDoneWork =>
    simp only [Clients.step, Option.some.injEq] at taken
    subst taken
    exact ⟨fun c member => .inl member, .inr ⟨rfl, rfl, .inr (.inr (.inr rfl))⟩⟩
  | wait report timeoutNs =>
    obtain ⟨waits, rfl⟩ := step_onWaits taken trivial
    exact ⟨fun c member => .inl member, .inr ⟨rfl, rfl, .inl rfl⟩⟩
  | waitCheck wait =>
    obtain ⟨waits, rfl⟩ := step_onWaits taken trivial
    exact ⟨fun c member => .inl member, .inr ⟨rfl, rfl, .inl rfl⟩⟩
  | waitTurn wait signal expired =>
    obtain ⟨waits, rfl⟩ := step_onWaits taken trivial
    exact ⟨fun c member => .inl member, .inr ⟨rfl, rfl, .inl rfl⟩⟩
  | waitTask pid => exact absurd (step_waitTask taken).1 queued

/-- Every call on an F or P channel has queued its job by the time it can be interleaved. -/
theorem step_plain {op : ChOp} (queued : op ≠ .t) {s t : Clients β} {a : ClientStep β}
    (plain : ∀ c ∈ s.calls, c.phase = .returned) (taken : step op s a = some t) :
    ∀ c ∈ t.calls, c.phase = .returned := by
  -- A new call has queued its job within the step that begins it.
  intro c member
  rcases (step_queue queued plain taken).1 c member with old | new
  · exact plain c old
  · exact new.1

/-- Until the counter wraps, every step keeps the queue in order and finishes no earlier number. -/
theorem Ordered.step {op : ChOp} (queued : op ≠ .t) {s t : Clients β} {a : ClientStep β}
    (ordered : Ordered s) (taken : step op s a = some t) (room : t.issued < 2 ^ 64) :
    Ordered t ∧ s.chan.finishedSeqno ≤ t.chan.finishedSeqno := by
  obtain ⟨served, numbered, counter, plain⟩ := ordered
  obtain ⟨_, moved⟩ := step_queue queued plain taken
  have plain := step_plain queued plain taken
  obtain ⟨pid, body, chan, nextId, issued⟩ | ⟨nextId, issued, same | irq | release | work⟩ := moved
  · -- A submit takes the next number, which is still below the wrap.
    have below : s.chan.submitedSeqno + 1 < 2 ^ 64 := by omega
    refine ⟨⟨?_, ?_, ?_, plain⟩, ?_⟩
    · rw [chan, nextId]
      exact served.enqueue rfl (by simp [Running, newExec])
    · rw [chan]
      exact numbered.enqueue below _
    · rw [chan, enqueue_submited, nextSeqno_of_lt below, issued, counter]
    · exact Nat.le_of_eq (by rw [chan, enqueue_finished])
  · -- Reports and waits leave the channel alone.
    exact ⟨⟨by rw [same, nextId]; exact served, by rw [same]; exact numbered,
      by rw [same, issued, counter], plain⟩, Nat.le_of_eq (by rw [same])⟩
  · -- A completion finishes the first and therefore smallest number.
    obtain ⟨numbered, later⟩ := numbered.irqFinishJob served.running
    have submited := finishJob_submited .f s.chan
    simp only [finishJob] at submited
    exact ⟨⟨by rw [irq, nextId]; exact served.irqFinishJob, by rw [irq]; exact numbered,
      by rw [irq, submited, issued, counter], plain⟩, by rw [irq]; exact later⟩
  · -- A release withdraws numbers and finishes none.
    obtain ⟨pid, chan⟩ := release
    exact ⟨⟨by rw [chan, nextId]; exact served.release pid,
      by rw [chan]; exact numbered.release pid,
      by rw [chan, release_submited, issued, counter], plain⟩,
      Nat.le_of_eq (by rw [chan, release_finished])⟩
  · exact ⟨⟨by rw [work, nextId]; exact served.jobDoneWork,
      by rw [work]; exact ⟨numbered.window, numbered.order⟩,
      by rw [work, issued, ← counter]; rfl, plain⟩, Nat.le_of_eq (by rw [work]; rfl)⟩

/-- A submit that finds the counter at its largest value queues a job numbered 0. -/
theorem enqueue_last {ch : Channel β} (exec : ExecInfo β) (full : ch.submitedSeqno = 2 ^ 64 - 1) :
    ¬ Queue (ch.enqueue exec) := by
  intro queue
  have zero : nextSeqno ch.submitedSeqno = 0 := by
    simp only [nextSeqno]
    omega
  have listed : (0 : Nat) ∈ (ch.enqueue exec).jobList.map (·.seqno) := by
    rw [enqueue_map _ _ fun _ _ => rfl, ← zero]
    exact List.mem_append_right _ (List.mem_singleton_self _)
  -- No job numbered 0 can be later than a finished one.
  obtain ⟨exec, member, number⟩ := List.mem_map.mp listed
  have pending := (queue.pending exec member).1
  omega

/--
On the F and P channels the queue keeps its promises throughout a run, and never finishes an earlier
number after a later one, if and only if fewer than 2^64 jobs are submitted in the run.
-/
theorem queue_iff (op : ChOp) (queued : op ≠ .t) (run : List (ClientStep β)) :
    (Runs.Always (step op) (fun s => Queue s.chan) init run ∧
      Runs.Each (step op) (fun s _ t => s.chan.finishedSeqno ≤ t.chan.finishedSeqno) init run)
      ↔ Runs.Always (step op) (fun s => s.issued < 2 ^ 64) init run := by
  -- The condition speaks of the state each step leads to.
  rw [Runs.always_iff_each (P := fun s : Clients β => s.issued < 2 ^ 64) (by simp [Clients.init])]
  apply Runs.safe_iff (I := fun s => Ordered s ∧ s.issued < 2 ^ 64)
  · exact fun s h => Queue.of_served h.1.served h.1.numbered
  · intro s a t invariant taken room
    obtain ⟨ordered, _⟩ := invariant
    obtain ⟨ordered, later⟩ := ordered.step queued taken room
    exact ⟨⟨ordered, room⟩, later⟩
  · intro s a t invariant taken queue _
    obtain ⟨ordered, room⟩ := invariant
    obtain ⟨_, ⟨pid, body, chan, _, issued⟩ | ⟨_, issued, _⟩⟩ :=
      step_queue queued ordered.plain taken
    · -- The submit that wraps the counter queues a job with the number 0.
      by_contra full
      have last : s.chan.submitedSeqno = 2 ^ 64 - 1 := by
        rw [ordered.counter]
        omega
      rw [chan] at queue
      exact enqueue_last _ last queue
    · omega
  · exact ⟨Ordered.init, by simp [Clients.init]⟩

/-- The equivalence on the F channel for a submit and its completion. -/
theorem queue_iff_completion : (Runs.Always (step .f) (fun s => Queue s.chan)
        (init : Clients FBody) [.op 1 default, .irq] ∧
      Runs.Each (step .f) (fun s _ t => s.chan.finishedSeqno ≤ t.chan.finishedSeqno)
        (init : Clients FBody) [.op 1 default, .irq])
    ↔ Runs.Always (step .f) (fun s => s.issued < 2 ^ 64)
        (init : Clients FBody) [.op 1 default, .irq] :=
  queue_iff .f (by decide) _

/-- Jobs submitted one after the other, each of them completed and reported before the next. -/
def rounds (body : β) : Nat → List (ClientStep β)
  | 0 => []
  | n + 1 => rounds body n ++ [.op 1 body, .irq, .report 0]

/-- What a channel remembers of jobs that are all completed and reported. -/
structure Drained (s : Clients β) (n : Nat) : Prop where
  jobs : s.chan.jobList = []
  calls : s.calls = []
  waits : s.waits = []
  submited : s.chan.submitedSeqno = n % 2 ^ 64
  finished : s.chan.finishedSeqno = n % 2 ^ 64
  reports : s.reports.length = n

/-- One round leads from a drained channel to a drained channel. -/
theorem Drained.round {s : Clients β} {n : Nat} (drained : Drained s n) (body : β) :
    ∃ t, Runs.exec (step .f) s [.op 1 body, .irq, .report 0] = some t ∧ Drained t (n + 1) := by
  -- The job is queued alone, so it runs at once and its completion empties the list.
  obtain ⟨jobs, calls, waits, submited, finished, reports⟩ := drained
  have next : nextSeqno s.chan.submitedSeqno = (n + 1) % 2 ^ 64 := by
    simp only [nextSeqno]
    omega
  refine ⟨_, by simp [Runs.exec, Clients.step, withCall, calls]; rfl, ?_⟩
  constructor
  · simp [finishJob, irqFinishJob, enqueue_nil jobs, submitNext]
  · rfl
  · exact waits
  · simpa [finishJob, irqFinishJob, enqueue_nil jobs, submitNext] using next
  · simpa [finishJob, irqFinishJob, enqueue_nil jobs, submitNext] using next
  · simp [reports]

/-- Any number of rounds can be run. -/
theorem rounds_exec (body : β) (n : Nat) :
    ∃ s, Runs.exec (step .f) init (rounds body n) = some s ∧ Drained s n := by
  -- The rounds are added one at a time.
  induction n with
  | zero => exact ⟨init, rfl, by constructor <;> simp [Clients.init, Channel.init]⟩
  | succ n ih =>
    obtain ⟨s, reached, drained⟩ := ih
    obtain ⟨t, round, drained⟩ := drained.round body
    exact ⟨t, Runs.exec_append.mpr ⟨s, reached, round⟩, drained⟩

/-- A submit after a full cycle of completed jobs breaks the promises of the queue. -/
theorem rounds_wrap (body : β) {n : Nat} (full : n % 2 ^ 64 = 2 ^ 64 - 1) :
    ¬ Runs.Always (step .f) (fun s => Queue s.chan) init (rounds body n ++ [.op 1 body]) := by
  -- After the rounds the counter stands at its largest value.
  intro always
  obtain ⟨s, reached, drained⟩ := rounds_exec body n
  have queue := always.last (Runs.exec_append.mpr ⟨s, reached, rfl⟩)
  exact enqueue_last _ (drained.submited.trans full) queue

/-- The job submitted after 2^64 - 1 completed ones is numbered 0, as if it were finished already. -/
theorem queue_wraps : ¬ Runs.Always (step .f) (fun s => Queue s.chan) (init : Clients FBody)
    (rounds default (2 ^ 64 - 1) ++ [.op 1 default]) :=
  rounds_wrap default (by decide)

end Clients

end Aip
