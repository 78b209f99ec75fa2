import Aip.Driver.ChannelLaws
import Aip.Driver.Clients

/-! What every step of the clients of a channel does to the channel, its records and its counter. -/

namespace Aip.Clients

open Channel

variable {β : Type}

/-- Starting a session's job renames nothing on the list. -/
theorem taskStart_map {γ : Type} (ch : Channel β) (exec : ExecInfo β) {key : ExecInfo β → γ}
    (same : Stateless key) : (ch.taskStart exec).jobList.map key = ch.jobList.map key := by
  -- The loop over the list changes at most the state of a record.
  simp only [taskStart, List.map_map]
  apply List.map_congr_left
  intro info _
  simp only [Function.comp_apply]
  split
  · exact same info .running
  · rfl

/-- A call goes on exactly when it is in the phase the step is for. -/
theorem withCall_eq_some {s t : Clients β} {call : Nat} {phase : SubmitPhase}
    {next : SubmitCall β → Option (Clients β)} : s.withCall call phase next = some t ↔
      ∃ c, s.calls[call]? = some c ∧ c.phase = phase ∧ next c = some t := by
  -- Only an existing call in that phase lets the step continue.
  unfold withCall
  cases found : s.calls[call]? with
  | none => simp
  | some c =>
    by_cases here : c.phase = phase
    · simp [here]
    · simp [here]

/-- A session call begins with a record of its own. -/
theorem step_taskOp {op : ChOp} {s t : Clients β} {pid : Nat} {body : β}
    (taken : step op s (.taskOp pid body) = some t) : op = .t ∧
      t = { s with
        nextId := s.nextId + 1
        taskIds := s.nextId :: s.taskIds
        calls := s.calls ++ [{ exec := s.newExec pid body, ticket := 0, phase := .mutexWait }] } := by
  -- Only the T channel has sessions.
  simp only [Clients.step, Option.ite_none_right_eq_some, Option.some.injEq] at taken
  exact ⟨taken.1, taken.2.symm⟩

/-- A waiting session call takes the free mutex together with its number. -/
theorem step_taskLock {op : ChOp} {s t : Clients β} {call : Nat}
    (taken : step op s (.taskLock call) = some t) : ∃ c, s.calls[call]? = some c ∧
      c.phase = .mutexWait ∧ s.tJobMutex = false ∧
      t = { s with
        chan := s.chan.taskSeqno
        tJobMutex := true
        issued := s.issued + 1
        calls := s.calls.set call {
          exec := { c.exec with seqno := s.chan.taskSeqno.submitedSeqno }
          ticket := s.issued + 1
          phase := .polling } } := by
  -- A mutex that is held keeps the call waiting.
  simp only [Clients.step, withCall_eq_some, Option.ite_none_left_eq_some, Option.some.injEq,
    Bool.not_eq_true] at taken
  obtain ⟨c, found, phase, free, same⟩ := taken
  exact ⟨c, found, phase, free, same.symm⟩

/-- A session call leaves its loop once the list is empty. -/
theorem step_taskPoll {op : ChOp} {s t : Clients β} {call : Nat}
    (taken : step op s (.taskPoll call) = some t) : ∃ c, s.calls[call]? = some c ∧
      c.phase = .polling ∧ s.chan.jobList.isEmpty ∧ t = s.setPhase call c .adding := by
  -- A list that is not empty keeps the call in its loop.
  simp only [Clients.step, withCall_eq_some, Option.ite_none_right_eq_some,
    Option.some.injEq] at taken
  obtain ⟨c, found, phase, empty, same⟩ := taken
  exact ⟨c, found, phase, empty, same.symm⟩

/-- A session call queues its job at the end of the list. -/
theorem step_taskAdd {op : ChOp} {s t : Clients β} {call : Nat}
    (taken : step op s (.taskAdd call) = some t) : ∃ c, s.calls[call]? = some c ∧
      c.phase = .adding ∧ t = { s.setPhase call c .starting with chan := s.chan.taskAdd c.exec } := by
  -- The step is taken by a call in the phase before.
  simp only [Clients.step, withCall_eq_some, Option.some.injEq] at taken
  obtain ⟨c, found, phase, same⟩ := taken
  exact ⟨c, found, phase, same.symm⟩

/-- A session call starts its job. -/
theorem step_taskStart {op : ChOp} {s t : Clients β} {call : Nat}
    (taken : step op s (.taskStart call) = some t) : ∃ c, s.calls[call]? = some c ∧
      c.phase = .starting ∧
      t = { s.setPhase call c .returned with chan := s.chan.taskStart c.exec } := by
  -- The step is taken by a call in the phase before.
  simp only [Clients.step, withCall_eq_some, Option.some.injEq] at taken
  obtain ⟨c, found, phase, same⟩ := taken
  exact ⟨c, found, phase, same.symm⟩

/-- A submit call ends with a report of the counter. -/
theorem step_report {op : ChOp} {s t : Clients β} {call : Nat}
    (taken : step op s (.report call) = some t) : ∃ c, s.calls[call]? = some c ∧
      c.phase = .returned ∧
      t = { s with
        calls := s.calls.eraseIdx call
        reports := s.reports ++ [⟨c.exec.id, c.exec.seqno, s.chan.submitedSeqno⟩] } := by
  -- The step is taken by a call that has queued its job.
  simp only [Clients.step, withCall_eq_some, Option.some.injEq] at taken
  obtain ⟨c, found, phase, same⟩ := taken
  exact ⟨c, found, phase, same.symm⟩

/-- The steps of the wait ioctl, which read the counters and keep what they find to themselves. -/
def OnWaits : ClientStep β → Prop
  | .wait _ _ | .waitCheck _ | .waitTurn _ _ _ => True
  | _ => False

/-- A step of the wait ioctl changes nothing but the waits. -/
theorem step_onWaits {op : ChOp} {s t : Clients β} {a : ClientStep β} (taken : step op s a = some t)
    (waiting : OnWaits a) : ∃ waits, t = { s with waits := waits } := by
  -- Each enabled branch rewrites the list of waits and copies the rest.
  cases a with
  | wait report timeoutNs =>
    simp only [Clients.step, Option.map_eq_some_iff] at taken
    obtain ⟨r, _, rfl⟩ := taken
    exact ⟨_, rfl⟩
  | waitCheck wait =>
    simp only [Clients.step] at taken
    split at taken
    · split at taken
      · exact ⟨_, (Option.some.inj taken).symm⟩
      · cases taken
    · cases taken
  | waitTurn wait signal expired =>
    simp only [Clients.step] at taken
    split at taken
    · split at taken
      · exact ⟨_, (Option.some.inj taken).symm⟩
      · cases taken
    · cases taken
  | _ => exact waiting.elim

/-- Closing a session takes the first job off the list and opens the mutex. -/
theorem step_waitTask {op : ChOp} {s t : Clients β} {pid : Nat}
    (taken : step op s (.waitTask pid) = some t) : op = .t ∧ ∃ first rest,
      s.chan.jobList = first :: rest ∧
      t = { s with chan := { s.chan with jobList := rest }, tJobMutex := false } := by
  -- An empty list leaves the source no job to take.
  simp only [Clients.step, Option.ite_none_right_eq_some] at taken
  obtain ⟨session, taken⟩ := taken
  cases listed : s.chan.jobList with
  | nil => simp [listed] at taken
  | cons first rest =>
    simp only [listed, Option.some.injEq] at taken
    exact ⟨session, first, rest, rfl, taken.symm⟩

/-- Off the wait ioctl, waits stay as they are, and only a read of the counter adds a report. -/
theorem step_offWaits {op : ChOp} {s t : Clients β} {a : ClientStep β}
    (taken : step op s a = some t) (working : ¬ OnWaits a) : t.waits = s.waits ∧
      (t.reports = s.reports ∨ ∃ call c, a = .report call ∧ s.calls[call]? = some c ∧
        t.reports = s.reports ++ [⟨c.exec.id, c.exec.seqno, s.chan.submitedSeqno⟩]) := by
  -- Every step but the report copies both fields.
  cases a with
  | report call =>
    obtain ⟨c, found, _, rfl⟩ := step_report taken
    exact ⟨rfl, .inr ⟨call, c, rfl, found, rfl⟩⟩
  | wait report timeoutNs | waitCheck wait | waitTurn wait signal expired =>
    exact absurd trivial working
  | waitTask pid =>
    obtain ⟨_, first, rest, _, rfl⟩ := step_waitTask taken
    exact ⟨rfl, .inl rfl⟩
  -- The steps of a session open that change lists or the mutex copy waits and reports.
  | taskLock call =>
    obtain ⟨c, _, _, _, rfl⟩ := step_taskLock taken
    exact ⟨rfl, .inl rfl⟩
  | taskPoll call =>
    obtain ⟨c, _, _, _, rfl⟩ := step_taskPoll taken
    exact ⟨rfl, .inl rfl⟩
  | taskOp pid body =>
    obtain ⟨_, rfl⟩ := step_taskOp taken
    exact ⟨rfl, .inl rfl⟩
  | taskAdd call =>
    obtain ⟨c, _, _, rfl⟩ := step_taskAdd taken
    exact ⟨rfl, .inl rfl⟩
  | taskStart call =>
    obtain ⟨c, _, _, rfl⟩ := step_taskStart taken
    exact ⟨rfl, .inl rfl⟩
  -- The locked sections touch the channel only.
  | op pid body | irq | release pid | jobDoneWork =>
    simp only [Clients.step, Option.some.injEq] at taken
    subst taken
    exact ⟨rfl, .inl rfl⟩

/-- Only the read of the counter adds a report, and it adds what it read. -/
theorem step_reports {op : ChOp} {s t : Clients β} {a : ClientStep β}
    (taken : step op s a = some t) : t.reports = s.reports ∨ ∃ call c,
      a = .report call ∧ s.calls[call]? = some c ∧
      t.reports = s.reports ++ [⟨c.exec.id, c.exec.seqno, s.chan.submitedSeqno⟩] := by
  -- The steps of the wait ioctl are looked at apart from the others.
  by_cases waiting : OnWaits a
  · obtain ⟨waits, rfl⟩ := step_onWaits taken waiting
    exact .inl rfl
  · exact (step_offWaits taken waiting).2

/-- Every call past its numbering carries a number taken from the counter, as its ticket says. -/
structure Counted (s : Clients β) : Prop where
  counter : s.chan.submitedSeqno = s.issued % 2 ^ 64
  tickets : ∀ c ∈ s.calls, c.exec.seqno = c.ticket % 2 ^ 64 ∧ c.ticket ≤ s.issued

/-- No call has been numbered on a fresh channel. -/
theorem Counted.init : Counted (init : Clients β) := by
  constructor <;> simp [Clients.init, Channel.init]

/-- Counting on from the counter is counting on from the number of calls. -/
theorem Counted.next {s : Clients β} (counted : Counted s) :
    nextSeqno s.chan.submitedSeqno = (s.issued + 1) % 2 ^ 64 := by
  -- The two remainders agree because the counter is itself a remainder.
  have counter := counted.counter
  simp only [nextSeqno]
  omega

/-- Steps that number no call keep the count, whatever happens to the calls otherwise. -/
theorem Counted.carry {s t : Clients β} (counted : Counted s)
    (counter : t.chan.submitedSeqno = s.chan.submitedSeqno) (issued : t.issued = s.issued)
    (calls : ∀ c ∈ t.calls, ∃ c' ∈ s.calls, c.exec = c'.exec ∧ c.ticket = c'.ticket) :
    Counted t := by
  -- The tickets are read off the calls that were there before.
  refine ⟨by rw [counter, issued]; exact counted.counter, fun c member => ?_⟩
  obtain ⟨c', old, exec, ticket⟩ := calls c member
  rw [exec, ticket, issued]
  exact counted.tickets c' old

/-- A call that enters another phase keeps its record and its ticket. -/
theorem setPhase_calls {s : Clients β} {call : Nat} {c : SubmitCall β}
    (found : s.calls[call]? = some c) (phase : SubmitPhase) :
    ∀ c' ∈ (s.setPhase call c phase).calls,
      ∃ old ∈ s.calls, c'.exec = old.exec ∧ c'.ticket = old.ticket := by
  -- Only one place of the list of calls is rewritten, with the same record.
  intro c' member
  rcases List.mem_or_eq_of_mem_set member with same | rfl
  · exact ⟨c', same, rfl, rfl⟩
  · exact ⟨c, List.mem_of_getElem? found, rfl, rfl⟩

/-- Completion gives no number. -/
@[simp] theorem finishJob_submited (op : ChOp) (ch : Channel β) :
    (ch.finishJob op).submitedSeqno = ch.submitedSeqno := by
  -- Both completions only move records and start the next job.
  have plain : ch.irqFinishJob.submitedSeqno = ch.submitedSeqno := by
    cases listed : ch.jobList with
    | nil => simp [irqFinishJob, listed]
    | cons exec rest =>
      simp only [irqFinishJob, listed]
      split <;> simp
  cases op with
  | t =>
    cases listed : ch.jobList with
    | nil => simp [finishJob, tIrqFinishJob, listed]
    | cons exec rest => simp [finishJob, tIrqFinishJob, listed]
  | f => exact plain
  | p => exact plain

/-- Every step keeps the count of numbered calls. -/
theorem Counted.step {op : ChOp} {s t : Clients β} {a : ClientStep β} (counted : Counted s)
    (taken : step op s a = some t) : Counted t := by
  -- Only the two numbering steps change the counter, and each also counts its call.
  cases a with
  | op pid body =>
    simp only [Clients.step, Option.some.injEq] at taken
    subst taken
    refine ⟨by simpa using counted.next, fun c member => ?_⟩
    rcases List.mem_append.mp member with old | new
    · obtain ⟨number, bound⟩ := counted.tickets c old
      exact ⟨number, Nat.le_succ_of_le bound⟩
    · -- The new call carries the number and the ticket just given out.
      rw [List.mem_singleton.mp new]
      exact ⟨counted.next, Nat.le_refl _⟩
  | taskOp pid body =>
    obtain ⟨_, rfl⟩ := step_taskOp taken
    refine ⟨counted.counter, fun c member => ?_⟩
    rcases List.mem_append.mp member with old | new
    · exact counted.tickets c old
    · rw [List.mem_singleton.mp new]
      simp [newExec]
  | taskLock call =>
    obtain ⟨c, found, _, _, rfl⟩ := step_taskLock taken
    refine ⟨counted.next, fun c' member => ?_⟩
    rcases List.mem_or_eq_of_mem_set member with old | rfl
    · obtain ⟨number, bound⟩ := counted.tickets c' old
      exact ⟨number, Nat.le_succ_of_le bound⟩
    · -- The call that has the mutex now is numbered last.
      exact ⟨counted.next, Nat.le_refl _⟩
  -- No later step of a session open gives out a number.
  | taskPoll call =>
    obtain ⟨c, found, _, _, rfl⟩ := step_taskPoll taken
    exact counted.carry rfl rfl (setPhase_calls found .adding)
  | taskAdd call =>
    obtain ⟨c, found, _, rfl⟩ := step_taskAdd taken
    exact counted.carry rfl rfl (setPhase_calls found .starting)
  | taskStart call =>
    obtain ⟨c, found, _, rfl⟩ := step_taskStart taken
    exact counted.carry rfl rfl (setPhase_calls found .returned)
  | report call =>
    obtain ⟨c, found, _, rfl⟩ := step_report taken
    exact counted.carry rfl rfl fun c' member =>
      ⟨c', List.mem_of_mem_eraseIdx member, rfl, rfl⟩
  | irq =>
    simp only [Clients.step, Option.some.injEq] at taken
    subst taken
    exact counted.carry (by simp) rfl fun c member => ⟨c, member, rfl, rfl⟩
  | release pid =>
    simp only [Clients.step, Option.some.injEq] at taken
    subst taken
    exact counted.carry (by simp) rfl fun c member => ⟨c, member, rfl, rfl⟩
  | jobDoneWork =>
    simp only [Clients.step, Option.some.injEq] at taken
    subst taken
    exact counted.carry rfl rfl fun c member => ⟨c, member, rfl, rfl⟩
  | wait report timeoutNs =>
    obtain ⟨waits, rfl⟩ := step_onWaits taken trivial
    exact counted.carry rfl rfl fun c member => ⟨c, member, rfl, rfl⟩
  | waitCheck wait =>
    obtain ⟨waits, rfl⟩ := step_onWaits taken trivial
    exact counted.carry rfl rfl fun c member => ⟨c, member, rfl, rfl⟩
  | waitTurn wait signal expired =>
    obtain ⟨waits, rfl⟩ := step_onWaits taken trivial
    exact counted.carry rfl rfl fun c member => ⟨c, member, rfl, rfl⟩
  | waitTask pid =>
    obtain ⟨_, first, rest, _, rfl⟩ := step_waitTask taken
    exact counted.carry rfl rfl fun c member => ⟨c, member, rfl, rfl⟩

end Aip.Clients
