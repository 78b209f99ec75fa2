import Aip.Driver.ChannelLaws
import Aip.Driver.Clients

/-! The wait queue of a channel: how a wait goes to sleep, and how a completion wakes it. -/

namespace Aip

/-- How far a call of `jz_aip_v20_wait_for_seqno` has come, its sleep included. -/
inductive WaiterPhase where
  /-- `submited_seqno` has been read. -/
  | entered (submited : Nat)
  /-- At the head of the `for (;;)` loop. -/
  | preparing
  /-- After `prepare_to_wait`. -/
  | checking
  /-- Before `schedule` or `schedule_timeout`. -/
  | scheduling
  | asleep
  | returned (ret : Int)
  deriving DecidableEq, Repr

/-- A wait, whether it is on the wait queue, and whether its task state is `TASK_INTERRUPTIBLE`. -/
structure Waiter where
  seqno : Nat
  timeoutNs : Nat
  phase : WaiterPhase
  queued : Bool
  interruptible : Bool
  deriving DecidableEq, Repr

/-- A channel and its wait queue; `waking` says that a `wake_up_all` is due. -/
structure WaitQueue (β : Type) where
  chan : Channel β
  nextId : Nat
  waking : Bool
  waiters : List Waiter
  deriving DecidableEq, Repr

/-- The steps of the clients, of the interrupt and of the scheduler. -/
inductive WaitStep (β : Type) where
  | submit (pid : Nat) (body : β)
  | release (pid : Nat)
  | jobDoneWork
  /-- `*_irq_finish_job` up to its `wake_up_all`. -/
  | finish
  | wakeUpAll
  | wait (seqno timeoutNs : Nat)
  | check (waiter : Nat)
  | prepare (waiter : Nat)
  | turn (waiter : Nat) (signal expired : Bool)
  | schedule (waiter : Nat)
  /-- A signal or the timer ends a sleep. -/
  | resume (waiter : Nat)
  deriving DecidableEq, Repr

namespace Waiter

/-- `prepare_to_wait`: on the queue first, the task state after it. -/
def prepareToWait (w : Waiter) : Waiter :=
  { w with queued := true, interruptible := true, phase := .checking }

/-- `finish_wait` and the return. -/
def finishWait (w : Waiter) (ret : Int) : Waiter :=
  { w with queued := false, interruptible := false, phase := .returned ret }

/-- The part of `jz_aip_v20_wait_for_seqno` before its loop, given `*_finished_seqno`. -/
def check (w : Waiter) (submited finished : Nat) : Waiter :=
  if w.seqno > submited then { w with phase := .returned (-1) }
  else if finished ≥ w.seqno then { w with phase := .returned 0 }
  -- `-ETIME`
  else if w.timeoutNs = 0 then { w with phase := .returned (-62) }
  else { w with phase := .preparing }

/-- The tests of one turn of the loop, given `*_finished_seqno`. -/
def turn (w : Waiter) (finished : Nat) (signal expired : Bool) : Waiter :=
  -- `-ERESTARTSYS`
  if signal then w.finishWait (-512)
  else if finished ≥ w.seqno then w.finishWait 0
  else if w.timeoutNs ≠ 2 ^ 64 - 1 ∧ expired then w.finishWait (-62)
  else { w with phase := .scheduling }

/-- `schedule`, which comes back at once when a wake has set the task running. -/
def schedule (w : Waiter) : Waiter :=
  { w with phase := if w.interruptible then .asleep else .preparing }

/-- A task that is made to run goes on at the head of the loop if it slept. -/
def run (w : Waiter) : Waiter :=
  { w with
    interruptible := false
    phase := if w.phase = .asleep then .preparing else w.phase }

/-- `autoremove_wake_function`, which takes a task off the queue only if it has woken it. -/
def wake (w : Waiter) : Waiter :=
  if w.queued ∧ w.interruptible then { w.run with queued := false } else w

/-- The waits that are in the loop. -/
def Looping (w : Waiter) : Prop :=
  w.phase = .preparing ∨ w.phase = .checking ∨ w.phase = .scheduling ∨ w.phase = .asleep

end Waiter

namespace WaitQueue

variable {β : Type}

/-- A fresh channel, on which nobody waits. -/
def init : WaitQueue β := { chan := Channel.init, nextId := 0, waking := false, waiters := [] }

/-- Whether a completion finishes a job; the T channel does not look at the state of the first one. -/
def finishes (op : ChOp) (ch : Channel β) : Bool :=
  match ch.jobList with
  | [] => false
  | exec :: _ => op = .t ∨ exec.state = .running

/-- The wait at a position goes on. -/
def withWaiter (s : WaitQueue β) (waiter : Nat) (next : Waiter → Option Waiter) :
    Option (WaitQueue β) :=
  (s.waiters[waiter]?).bind fun w =>
    (next w).map fun w => { s with waiters := s.waiters.set waiter w }

/-- One step on a channel with its wait queue; a step that is not enabled has no result. -/
def step (op : ChOp) (s : WaitQueue β) : WaitStep β → Option (WaitQueue β)
  | .submit pid body =>
    let exec := { id := s.nextId, pid := pid, state := .initial, seqno := 0, body := body }
    some { s with chan := s.chan.enqueue exec, nextId := s.nextId + 1 }
  | .release pid => some { s with chan := s.chan.release pid }
  | .jobDoneWork => some { s with chan := s.chan.jobDoneWork }
  -- The lock is held from here to the wake, so no second completion comes between them.
  | .finish =>
    if s.waking then none
    else some { s with chan := s.chan.finishJob op, waking := finishes op s.chan }
  | .wakeUpAll =>
    if s.waking then some { s with waking := false, waiters := s.waiters.map Waiter.wake }
    else none
  | .wait seqno timeoutNs =>
    let w :=
      { seqno := seqno, timeoutNs := timeoutNs, phase := .entered s.chan.submitedSeqno
        queued := false, interruptible := false }
    some { s with waiters := s.waiters ++ [w] }
  | .check waiter => s.withWaiter waiter fun w =>
    match w.phase with
    | .entered submited => some (w.check submited s.chan.finishedSeqno)
    | _ => none
  | .prepare waiter => s.withWaiter waiter fun w =>
    if w.phase = .preparing then some w.prepareToWait else none
  -- `*_finished_seqno` is read without the lock, possibly between a completion and its wake.
  | .turn waiter signal expired => s.withWaiter waiter fun w =>
    if w.phase = .checking then some (w.turn s.chan.finishedSeqno signal expired) else none
  | .schedule waiter => s.withWaiter waiter fun w =>
    if w.phase = .scheduling then some w.schedule else none
  | .resume waiter => s.withWaiter waiter fun w =>
    if w.phase = .asleep then some w.run else none

section Wakeups

variable {op : ChOp} {s t : WaitQueue β} {a : WaitStep β} {w : Waiter} {finished : Nat}
  {waking : Bool}

/-- A wait goes on by replacing its own entry alone. -/
theorem withWaiter_eq_some {waiter : Nat} {next : Waiter → Option Waiter} :
    s.withWaiter waiter next = some t ↔ ∃ w w', s.waiters[waiter]? = some w ∧ next w = some w' ∧
      t = { s with waiters := s.waiters.set waiter w' } := by
  simp only [withWaiter, Option.bind_eq_some_iff, Option.map_eq_some_iff]
  constructor
  · rintro ⟨w, found, w', went, rfl⟩
    exact ⟨w, w', found, went, rfl⟩
  · rintro ⟨w, w', found, went, rfl⟩
    exact ⟨w, found, w', went, rfl⟩

/-- A completion that finishes no job leaves the finished counter as it was. -/
theorem finish_silent {ch : Channel β} (silent : finishes op ch = false) :
    (ch.finishJob op).finishedSeqno = ch.finishedSeqno := by
  cases listed : ch.jobList with
  | nil => cases op <;> simp [Channel.finishJob, Channel.irqFinishJob, Channel.tIrqFinishJob, listed]
  | cons exec rest =>
    simp only [finishes, listed, decide_eq_false_iff_not, not_or] at silent
    obtain ⟨queued, idle⟩ := silent
    cases op with
    | t => exact absurd rfl queued
    | f | p => simp [Channel.finishJob, Channel.irqFinishJob, listed, idle]

/--
What a wait can rely on: a task that is not running is on the queue, and one that has looked at the
counter before its sleep either has still to wait or will be woken.
-/
structure Attentive (finished : Nat) (waking : Bool) (w : Waiter) : Prop where
  queued : w.interruptible = true → w.queued = true
  asleep : w.phase = .asleep → w.interruptible = true
  informed : w.interruptible = true → w.phase = .scheduling ∨ w.phase = .asleep →
    finished < w.seqno ∨ waking = true

/-- A wait that has returned relies on nothing. -/
theorem Attentive.finishWait (w : Waiter) (ret : Int) :
    Attentive finished waking (w.finishWait ret) := by
  refine ⟨?_, ?_, ?_⟩ <;> simp [Waiter.finishWait]

/-- A wait that is not in the loop yet is running. -/
theorem Attentive.check {submited : Nat} (attentive : Attentive finished waking w) :
    Attentive finished waking (w.check submited finished) := by
  have running : w.interruptible = true → w.queued = true := attentive.queued
  rw [Waiter.check]
  split
  · exact ⟨running, by simp, by simp⟩
  · split
    · exact ⟨running, by simp, by simp⟩
    · split
      · exact ⟨running, by simp, by simp⟩
      · exact ⟨running, by simp, by simp⟩

/-- A wait that prepares is on the queue before it looks at the counter. -/
theorem Attentive.prepareToWait (w : Waiter) : Attentive finished waking w.prepareToWait := by
  refine ⟨?_, ?_, ?_⟩ <;> simp [Waiter.prepareToWait]

/-- A wait goes to sleep only for a number that the counter has not reached. -/
theorem Attentive.turn {signal expired : Bool} (attentive : Attentive finished waking w) :
    Attentive finished waking (w.turn finished signal expired) := by
  rw [Waiter.turn]
  split
  · exact Attentive.finishWait w _
  · split
    · exact Attentive.finishWait w _
    · rename_i before
      split
      · exact Attentive.finishWait w _
      · -- The counter is below the number, at the moment at which it is read.
        exact ⟨attentive.queued, by simp, fun _ _ => .inl (Nat.lt_of_not_le before)⟩

/-- A task that a wake reaches before `schedule` does not sleep. -/
theorem Attentive.schedule (attentive : Attentive finished waking w)
    (scheduling : w.phase = .scheduling) : Attentive finished waking w.schedule := by
  cases interruptible : w.interruptible with
  | false =>
    refine ⟨?_, ?_, ?_⟩ <;> simp [Waiter.schedule, interruptible]
  | true =>
    refine ⟨fun _ => attentive.queued interruptible, fun _ => interruptible, fun _ _ => ?_⟩
    exact attentive.informed interruptible (.inl scheduling)

/-- A task that is made to run looks at the counter before it sleeps again. -/
theorem Attentive.run (w : Waiter) : Attentive finished waking w.run := by
  refine ⟨by simp [Waiter.run], ?_, by simp [Waiter.run]⟩
  intro asleep
  simp only [Waiter.run] at asleep
  split at asleep
  · cases asleep
  · contradiction

/-- After a wake no task sleeps that was on the queue, so none relies on it any longer. -/
theorem Attentive.wake (attentive : Attentive finished waking w) :
    Attentive finished false w.wake := by
  rw [Waiter.wake]
  split
  · have ⟨_, asleep, _⟩ : Attentive finished false w.run := Attentive.run w
    exact ⟨by simp [Waiter.run], asleep, by simp [Waiter.run]⟩
  · rename_i missed
    have running : w.interruptible ≠ true := fun still => missed ⟨attentive.queued still, still⟩
    exact ⟨attentive.queued, attentive.asleep, fun still => absurd still running⟩

/-- Every wait can rely on the wake that is due. -/
def Watched (s : WaitQueue β) : Prop :=
  ∀ w ∈ s.waiters, Attentive s.chan.finishedSeqno s.waking w

/-- A step of one wait leaves the others as they were. -/
theorem Watched.withWaiter {waiter : Nat} {next : Waiter → Option Waiter} (watched : Watched s)
    (taken : s.withWaiter waiter next = some t)
    (kept : ∀ w w', Attentive s.chan.finishedSeqno s.waking w → next w = some w' →
      Attentive s.chan.finishedSeqno s.waking w') : Watched t := by
  obtain ⟨w, w', found, went, rfl⟩ := withWaiter_eq_some.mp taken
  intro other member
  rcases List.mem_or_eq_of_mem_set member with old | rfl
  · exact watched other old
  · exact kept w other (watched w (List.mem_of_getElem? found)) went

/-- Every step keeps what the waits rely on. -/
theorem Watched.step (watched : Watched s) (taken : step op s a = some t) : Watched t := by
  cases a with
  | submit pid body =>
    simp only [WaitQueue.step, Option.some.injEq] at taken
    subst taken
    simpa only [Watched, Channel.enqueue_finished] using watched
  | release pid =>
    simp only [WaitQueue.step, Option.some.injEq] at taken
    subst taken
    simpa only [Watched, Channel.release_finished] using watched
  | jobDoneWork =>
    simp only [WaitQueue.step, Option.some.injEq] at taken
    subst taken
    exact watched
  | finish =>
    simp only [WaitQueue.step] at taken
    split at taken
    · cases taken
    · rename_i idle
      simp only [Option.some.injEq] at taken
      subst taken
      intro w member
      obtain ⟨queued, asleep, informed⟩ := watched w member
      refine ⟨queued, asleep, fun interruptible phase => ?_⟩
      -- The counter moves only under a completion that wakes every wait.
      cases silent : finishes op s.chan with
      | true => exact .inr rfl
      | false =>
        rcases informed interruptible phase with before | due
        · rw [finish_silent silent]
          exact .inl before
        · exact absurd due idle
  | wakeUpAll =>
    simp only [WaitQueue.step] at taken
    split at taken
    · simp only [Option.some.injEq] at taken
      subst taken
      intro w member
      obtain ⟨before, listed, rfl⟩ := List.mem_map.mp member
      exact (watched before listed).wake
    · cases taken
  | wait seqno timeoutNs =>
    simp only [WaitQueue.step, Option.some.injEq] at taken
    subst taken
    intro w member
    rcases List.mem_append.mp member with old | new
    · exact watched w old
    · rw [List.mem_singleton.mp new]
      refine ⟨?_, ?_, ?_⟩ <;> simp
  | check waiter =>
    refine watched.withWaiter taken fun w w' attentive went => ?_
    split at went
    · cases went
      exact attentive.check
    · cases went
  | prepare waiter =>
    refine watched.withWaiter taken fun w w' attentive went => ?_
    split at went
    · cases went
      exact Attentive.prepareToWait w
    · cases went
  | turn waiter signal expired =>
    refine watched.withWaiter taken fun w w' attentive went => ?_
    split at went
    · cases went
      exact attentive.turn
    · cases went
  | schedule waiter =>
    refine watched.withWaiter taken fun w w' attentive went => ?_
    split at went
    · rename_i scheduling
      cases went
      exact attentive.schedule scheduling
    · cases went
  | resume waiter =>
    refine watched.withWaiter taken fun w w' attentive went => ?_
    split at went
    · cases went
      exact Attentive.run w
    · cases went

/-- The steps that one wait takes by itself, without a signal and before its time is over. -/
def own (waiter : Nat) : List (WaitStep β) :=
  [.schedule waiter, .prepare waiter, .turn waiter false false]

/-- The wait at a position has returned the value. -/
def HasReturned (s : WaitQueue β) (waiter : Nat) (ret : Int) : Prop :=
  ∃ w, s.waiters[waiter]? = some w ∧ w.phase = .returned ret

/-- A wait whose number is finished returns when it has looked at the counter. -/
theorem returns_checking (op : ChOp) {waiter : Nat} (found : s.waiters[waiter]? = some w)
    (phase : w.phase = .checking) (finished : w.seqno ≤ s.chan.finishedSeqno) :
    ∃ t, Runs.exec (step op) s ((own waiter).drop 2) = some t ∧ HasReturned t waiter 0 := by
  have moved : step op s (.turn waiter false false) =
      some { s with waiters := s.waiters.set waiter (w.finishWait 0) } := by
    refine withWaiter_eq_some.mpr ⟨w, _, found, ?_, rfl⟩
    simp [phase, Waiter.turn, finished]
  have bound := (List.getElem?_eq_some_iff.mp found).1
  refine ⟨_, Runs.exec_cons.mpr ⟨_, moved, rfl⟩, _, List.getElem?_set_self bound, rfl⟩

/-- It does so from the head of the loop. -/
theorem returns_preparing (op : ChOp) {waiter : Nat} (found : s.waiters[waiter]? = some w)
    (phase : w.phase = .preparing) (finished : w.seqno ≤ s.chan.finishedSeqno) :
    ∃ t, Runs.exec (step op) s ((own waiter).drop 1) = some t ∧ HasReturned t waiter 0 := by
  have moved : step op s (.prepare waiter) =
      some { s with waiters := s.waiters.set waiter w.prepareToWait } := by
    refine withWaiter_eq_some.mpr ⟨w, _, found, ?_, rfl⟩
    simp [phase]
  have bound := (List.getElem?_eq_some_iff.mp found).1
  have prepared : { s with waiters := s.waiters.set waiter w.prepareToWait }.waiters[waiter]? =
      some w.prepareToWait := List.getElem?_set_self bound
  obtain ⟨t, ran, returned⟩ := returns_checking op prepared rfl finished
  exact ⟨t, Runs.exec_cons.mpr ⟨_, moved, ran⟩, returned⟩

/-- A wait that a wake has reached before `schedule` does so as well. -/
theorem returns_scheduling (op : ChOp) {waiter : Nat} (found : s.waiters[waiter]? = some w)
    (phase : w.phase = .scheduling) (running : w.interruptible = false)
    (finished : w.seqno ≤ s.chan.finishedSeqno) :
    ∃ t, Runs.exec (step op) s (own waiter) = some t ∧ HasReturned t waiter 0 := by
  have moved : step op s (.schedule waiter) =
      some { s with waiters := s.waiters.set waiter w.schedule } := by
    refine withWaiter_eq_some.mpr ⟨w, _, found, ?_, rfl⟩
    simp [phase]
  have bound := (List.getElem?_eq_some_iff.mp found).1
  have awake : { s with waiters := s.waiters.set waiter w.schedule }.waiters[waiter]? =
      some w.schedule := List.getElem?_set_self bound
  have again : w.schedule.phase = .preparing := by simp [Waiter.schedule, running]
  obtain ⟨t, ran, returned⟩ := returns_preparing op awake again finished
  exact ⟨t, Runs.exec_cons.mpr ⟨_, moved, ran⟩, returned⟩

/--
No wakeup is lost: in every state that the clients, the interrupt and the scheduler can reach, on each
of the channels, a wait whose number is finished does not sleep unless a `wake_up_all` is due, and
without a further wake it returns 0 within three steps of its own.
-/
theorem no_lost_wakeup (op : ChOp) (run : List (WaitStep β)) :
    Runs.Always (step op) (fun s => ∀ waiter w, s.waiters[waiter]? = some w → w.Looping →
      w.seqno ≤ s.chan.finishedSeqno → s.waking = false →
        w.phase ≠ .asleep ∧
        ∃ steps t, steps <:+ own waiter ∧ Runs.exec (step op) s steps = some t ∧
          HasReturned t waiter 0) init run := by
  have always : Runs.Always (step op) (Watched (β := β)) init run :=
    Runs.always_of_preserved (fun _ _ _ => Watched.step) fun w member => by simp [init] at member
  refine always.mono fun s watched waiter w found looping finished idle => ?_
  obtain ⟨_, asleep, informed⟩ := watched w (List.mem_of_getElem? found)
  -- A task that is not running has looked at a counter below its number, or none is due.
  have running : w.phase = .scheduling ∨ w.phase = .asleep → w.interruptible = false := by
    intro phase
    cases interruptible : w.interruptible with
    | false => rfl
    | true =>
      rcases informed interruptible phase with before | due
      · omega
      · rw [idle] at due
        cases due
  have awake : w.phase ≠ .asleep := by
    intro phase
    have still := asleep phase
    rw [running (.inr phase)] at still
    cases still
  refine ⟨awake, ?_⟩
  rcases looping with preparing | checking | scheduling | sleeping
  · obtain ⟨t, ran, returned⟩ := returns_preparing op found preparing finished
    exact ⟨_, t, List.drop_suffix 1 _, ran, returned⟩
  · obtain ⟨t, ran, returned⟩ := returns_checking op found checking finished
    exact ⟨_, t, List.drop_suffix 2 _, ran, returned⟩
  · obtain ⟨t, ran, returned⟩ := returns_scheduling op found scheduling (running (.inl scheduling)) finished
    exact ⟨_, t, List.suffix_refl _, ran, returned⟩
  · exact absurd sleeping awake

end Wakeups

end WaitQueue

end Aip
