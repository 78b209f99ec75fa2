import Aip.Driver.QueueOrder

/-! What a successful wait on an F or P channel says about the job waited for. -/

namespace Aip.Clients

open Channel

variable {β : Type}

/-- A wait that has returned 0 was for a job that is no longer queued. -/
def WaitSound (s : Clients β) : Prop :=
  ∀ w ∈ s.waits, w.phase = .returned 0 → ∀ exec ∈ s.chan.jobList, exec.id ≠ w.id

/-- The job, if it is still queued, is numbered no later than the bound. -/
structure Bounded (s : Clients β) (id bound : Nat) : Prop where
  known : id < s.nextId
  within : ∀ exec ∈ s.chan.jobList, exec.id = id → exec.seqno ≤ bound

/-- Every number told to a client bounds the number of its job. -/
structure Told (s : Clients β) : Prop where
  calls : ∀ c ∈ s.calls, c.exec.id < s.nextId
  reports : ∀ r ∈ s.reports, Bounded s r.id r.reported
  waits : ∀ w ∈ s.waits, Bounded s w.id w.seqno
  sound : WaitSound s

/-- Nothing has been told on a fresh channel. -/
theorem Told.init : Told (init : Clients β) := by
  constructor <;> simp [Clients.init, WaitSound]

/-- A queued job was queued before the step, with the same number, or is new. -/
theorem step_origin {op : ChOp} (queued : op ≠ .t) {s t : Clients β} {a : ClientStep β}
    (plain : ∀ c ∈ s.calls, c.phase = .returned) (taken : step op s a = some t) :
    s.nextId ≤ t.nextId ∧ ∀ exec ∈ t.chan.jobList,
      (∃ old ∈ s.chan.jobList, old.id = exec.id ∧ old.seqno = exec.seqno) ∨ exec.id = s.nextId := by
  -- Identity and number survive the start of a job, so lists are compared by both.
  have recover : ∀ {queue : List (ExecInfo β)} {exec : ExecInfo β},
      (exec.id, exec.seqno) ∈ queue.map (fun info => (info.id, info.seqno)) →
        ∃ old ∈ queue, old.id = exec.id ∧ old.seqno = exec.seqno := by
    intro queue exec member
    obtain ⟨old, listed, same⟩ := List.mem_map.mp member
    simp only [Prod.mk.injEq] at same
    exact ⟨old, listed, same.1, same.2⟩
  have keyed : ∀ {queue : List (ExecInfo β)} {exec : ExecInfo β}, exec ∈ queue →
      (exec.id, exec.seqno) ∈ queue.map (fun info => (info.id, info.seqno)) :=
    fun member => List.mem_map_of_mem member
  obtain ⟨_, ⟨pid, body, chan, nextId, _⟩ | ⟨nextId, _, same | irq | release | work⟩⟩ :=
    step_queue queued plain taken
  · refine ⟨by omega, fun exec member => ?_⟩
    rw [chan] at member
    have key := keyed member
    rw [enqueue_map _ _ fun _ _ => rfl] at key
    rcases List.mem_append.mp key with old | new
    · exact .inl (recover old)
    · have fresh := List.mem_singleton.mp new
      simp only [newExec, Prod.mk.injEq] at fresh
      exact .inr fresh.1
  · exact ⟨Nat.le_of_eq nextId.symm, fun exec member => .inl ⟨exec, same ▸ member, rfl, rfl⟩⟩
  · refine ⟨Nat.le_of_eq nextId.symm, fun exec member => ?_⟩
    rw [irq] at member
    exact .inl (recover ((irqFinishJob_map _ fun _ _ => rfl).subset (keyed member)))
  · obtain ⟨pid, chan⟩ := release
    refine ⟨Nat.le_of_eq nextId.symm, fun exec member => ?_⟩
    rw [chan] at member
    have key := keyed member
    rw [release_map _ _ fun _ _ => rfl] at key
    exact .inl (recover ((List.filter_sublist.map _).subset key))
  · exact ⟨Nat.le_of_eq nextId.symm, fun exec member => .inl ⟨exec, by simpa [work, jobDoneWork]
      using member, rfl, rfl⟩⟩

/-- A bound on a job's number outlives every step. -/
theorem Bounded.step {op : ChOp} (queued : op ≠ .t) {s t : Clients β} {a : ClientStep β}
    (plain : ∀ c ∈ s.calls, c.phase = .returned) (taken : step op s a = some t) {id bound : Nat}
    (bounded : Bounded s id bound) : Bounded t id bound := by
  -- A record allocated now has a new identity, so it is not the bounded job.
  obtain ⟨grows, origin⟩ := step_origin queued plain taken
  refine ⟨Nat.lt_of_lt_of_le bounded.known grows, fun exec member same => ?_⟩
  rcases origin exec member with ⟨old, listed, identity, number⟩ | fresh
  · rw [← number]
    exact bounded.within old listed (identity.trans same)
  · exact absurd (same ▸ fresh) (Nat.ne_of_lt bounded.known)

/-- A wait returns 0 only after reading a finished number that has reached its own. -/
theorem checkWait_zero {w : WaitCall} {submited finished : Nat}
    (zero : checkWait w submited finished = .returned 0) : w.seqno ≤ finished := by
  -- Every branch but the second returns an error or goes on.
  unfold checkWait at zero
  grind

/-- The loop of a wait returns 0 only after reading a finished number that has reached its own. -/
theorem turnWait_zero {w : WaitCall} {finished : Nat} {signal expired : Bool}
    (zero : turnWait w finished signal expired = .returned 0) : w.seqno ≤ finished := by
  -- Every branch but the second returns an error or goes on.
  unfold turnWait at zero
  grind

/-- The waits after a step are old ones, new ones for a reported number, or old ones gone on. -/
theorem step_waits {op : ChOp} {s t : Clients β} {a : ClientStep β} (taken : step op s a = some t) :
    ∀ w ∈ t.waits, w ∈ s.waits ∨
      (∃ r ∈ s.reports, w.id = r.id ∧ w.seqno = r.reported ∧ w.phase ≠ .returned 0) ∨
      (∃ old ∈ s.waits, w.id = old.id ∧ w.seqno = old.seqno ∧ t.chan = s.chan ∧
        (w.phase = .returned 0 → w.seqno ≤ s.chan.finishedSeqno)) := by
  -- The check and each turn of the loop may end the wait, and they leave the channel alone.
  cases a with
  | wait report timeoutNs =>
    simp only [Clients.step, Option.map_eq_some_iff] at taken
    obtain ⟨r, found, rfl⟩ := taken
    intro w member
    rcases List.mem_append.mp member with old | new
    · exact .inl old
    · rw [List.mem_singleton.mp new]
      exact .inr (.inl ⟨r, List.mem_of_getElem? found, rfl, rfl, by simp⟩)
  | waitCheck wait =>
    simp only [Clients.step] at taken
    split at taken
    case h_2 => cases taken
    case h_1 w found =>
      split at taken
      case h_2 => cases taken
      case h_1 submited entered =>
        cases taken
        intro w' member
        rcases List.mem_or_eq_of_mem_set member with old | rfl
        · exact .inl old
        · exact .inr (.inr ⟨w, List.mem_of_getElem? found, rfl, rfl, rfl, checkWait_zero⟩)
  | waitTurn wait signal expired =>
    simp only [Clients.step] at taken
    split at taken
    case h_2 => cases taken
    case h_1 w found =>
      split at taken
      case isFalse => cases taken
      case isTrue looping =>
        cases taken
        intro w' member
        rcases List.mem_or_eq_of_mem_set member with old | rfl
        · exact .inl old
        · exact .inr (.inr ⟨w, List.mem_of_getElem? found, rfl, rfl, rfl, turnWait_zero⟩)
  -- No other step touches the waits.
  | _ =>
    have same := (step_offWaits taken (by simp [OnWaits])).1
    exact fun w member => .inl (same ▸ member)

/-- Until the counter wraps, every step keeps what clients were told true. -/
theorem Told.step {op : ChOp} (queued : op ≠ .t) {s t : Clients β} {a : ClientStep β}
    (ordered : Ordered s) (told : Told s) (taken : Clients.step op s a = some t) : Told t := by
  obtain ⟨known, moved⟩ := step_queue queued ordered.plain taken
  obtain ⟨grows, origin⟩ := step_origin queued ordered.plain taken
  -- What bounds a number before the step bounds it after.
  have outlives : ∀ {id bound : Nat}, Bounded s id bound → Bounded t id bound :=
    Bounded.step queued ordered.plain taken
  have waits : ∀ w ∈ t.waits, Bounded t w.id w.seqno := by
    intro w member
    rcases step_waits taken w member with old | ⟨r, told', id, seqno, _⟩ | ⟨old, earlier, id, seqno, _⟩
    · exact outlives (told.waits w old)
    · rw [id, seqno]
      exact outlives (told.reports r told')
    · rw [id, seqno]
      exact outlives (told.waits old earlier)
  refine ⟨?_, ?_, waits, ?_⟩
  · intro c member
    rcases known c member with old | new
    · exact Nat.lt_of_lt_of_le (told.calls c old) grows
    · exact new.2
  · intro r member
    rcases step_reports taken with same | ⟨call, c, _, found, reports⟩
    · exact outlives (told.reports r (same ▸ member))
    · rw [reports] at member
      rcases List.mem_append.mp member with old | new
      · exact outlives (told.reports r old)
      · -- The counter just read is a bound on every queued number.
        rw [List.mem_singleton.mp new]
        apply outlives
        refine ⟨told.calls c (List.mem_of_getElem? found), fun exec listed _ => ?_⟩
        exact ordered.numbered.window.known _ (List.mem_map_of_mem listed)
  · intro w member zero exec listed same
    rcases step_waits taken w member with old | ⟨_, _, _, _, fresh⟩ | ⟨old, earlier, id, seqno, chan, read⟩
    · -- An old success stays one, because a job that left the queue never comes back.
      rcases origin exec listed with ⟨before, queue, identity, _⟩ | fresh
      · exact told.sound w old zero before queue (identity.trans same)
      · exact Nat.ne_of_lt (told.waits w old).known (same ▸ fresh)
    · exact fresh zero
    · -- A job still queued would be numbered after the finished number just read.
      rw [chan] at listed
      have pending := ordered.numbered.window.pending _ (List.mem_map_of_mem listed)
      have bound := (told.waits old earlier).within exec listed (same.trans id)
      have finished := read zero
      omega

/--
On the F and P channels, as long as fewer than 2^64 jobs have been submitted, a wait for the number
that a submit reported returns 0 only when the job of that submit is no longer queued.
-/
theorem waitSound_always (op : ChOp) (queued : op ≠ .t) (run : List (ClientStep β)) :
    Runs.Always (step op) (fun s => s.issued < 2 ^ 64 → WaitSound s) init run := by
  -- The number of submits only grows, so a state within the bound has only such states before it.
  have all : Runs.Always (step op) (fun s => (∀ c ∈ s.calls, c.phase = .returned) ∧
      (s.issued < 2 ^ 64 → Ordered s ∧ Told s)) init run := by
    apply Runs.always_of_preserved
    · intro s a t invariant taken
      obtain ⟨plain, holds⟩ := invariant
      refine ⟨step_plain queued plain taken, fun room => ?_⟩
      have fewer : s.issued ≤ t.issued := by
        obtain ⟨_, ⟨_, _, _, _, issued⟩ | ⟨_, issued, _⟩⟩ := step_queue queued plain taken <;> omega
      obtain ⟨ordered, told⟩ := holds (Nat.lt_of_le_of_lt fewer room)
      exact ⟨(ordered.step queued taken room).1, told.step queued ordered taken⟩
    · exact ⟨Ordered.init.plain, fun _ => ⟨Ordered.init, Told.init⟩⟩
  exact all.mono fun s holds room => (holds.2 room).2.sound

/-- The theorem on the F channel, for a client that waits for a job while it runs and afterwards. -/
theorem waitSound_always_served : Runs.Always (step .f) (fun s => s.issued < 2 ^ 64 → WaitSound s)
    (init : Clients FBody) [.op 1 default, .report 0, .wait 0 1000, .waitCheck 0, .irq,
      .waitTurn 0 false false] :=
  waitSound_always .f (by decide) _

/-- After a full cycle of completed jobs, a job numbered 0 is queued and a wait for it succeeds. -/
theorem rounds_waitSound (body : β) {n : Nat} (full : n % 2 ^ 64 = 2 ^ 64 - 1) :
    ¬ Runs.Always (step .f) WaitSound init
      (rounds body n ++ [.op 1 body, .report 0, .wait n 0, .waitCheck 0]) := by
  intro always
  obtain ⟨s, reached, drained⟩ := rounds_exec body n
  obtain ⟨jobs, calls, waits, submited, finished, reports⟩ := drained
  have zero : nextSeqno s.chan.submitedSeqno = 0 := by
    simp only [nextSeqno]
    omega
  have last : ∃ t, Runs.exec (step .f) s [.op 1 body, .report 0, .wait n 0, .waitCheck 0] = some t ∧
      ¬ WaitSound t := by
    -- The wait compares two zeros and never looks at the queue.
    have told : (s.reports ++ [(⟨s.nextId, 0, 0⟩ : Report)])[n]? = some ⟨s.nextId, 0, 0⟩ := by
      simp [← reports]
    refine ⟨_, by simp [Runs.exec, Clients.step, withCall, calls, waits, zero, told, checkWait,
      newExec, enqueue_nil jobs]; rfl, ?_⟩
    intro sound
    refine sound ⟨s.nextId, 0, 0, .returned 0⟩ (by simp) rfl
      { s.newExec 1 body with seqno := 0, state := .running } ?_ rfl
    simp [submitNext, newExec]
  obtain ⟨t, run, unsound⟩ := last
  exact unsound (always.last (Runs.exec_append.mpr ⟨s, reached, run⟩))

/-- After 2^64 - 1 completed jobs, the next one is reported as 0 and a wait for it returns at once. -/
theorem waitSound_wraps : ¬ Runs.Always (step .f) WaitSound (init : Clients FBody)
    (rounds default (2 ^ 64 - 1) ++ [.op 1 default, .report 0, .wait (2 ^ 64 - 1) 0, .waitCheck 0]) :=
  rounds_waitSound default (by decide)

end Aip.Clients
