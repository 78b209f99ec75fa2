import Aip.Driver.Sessions
import Aip.Lib.Slots

/-! Who holds the session mutex of the T channel, over whole runs. -/

namespace Aip.Clients

open Channel

variable {β : Type}

/-- The call holds the session mutex and its job is not on the list yet. -/
def Opening (c : SubmitCall β) : Bool := c.phase = .polling ∨ c.phase = .adding

/-- The identities of the queued jobs that belong to sessions, counted. -/
def taskCount (taskIds : List Nat) (queue : List (ExecInfo β)) : Nat :=
  (queue.map (·.id)).countP fun id => id ∈ taskIds

/-- The sessions there are: calls opening one, and jobs of one that is open. -/
def sessionCount (s : Clients β) : Nat :=
  s.calls.countP Opening + taskCount s.taskIds s.chan.jobList

/-- The session mutex is held if and only if there is exactly one session. -/
def Owned (s : Clients β) : Prop := s.tJobMutex = true ↔ sessionCount s = 1

/--
Closing a session takes off the list a job that the caller's own `jz_aip_v20_t_task_op` queued, and
releasing a process with an open session leaves the mutex free.
-/
def OwnClose (s : Clients β) (a : ClientStep β) (t : Clients β) : Prop :=
  match a with
  | .waitTask pid => ∀ first, s.chan.firstJob = some first → first.id ∈ s.taskIds ∧ first.pid = pid
  | .release pid => (∃ exec ∈ s.chan.jobList, exec.id ∈ s.taskIds ∧ exec.pid = pid) →
      t.tJobMutex = false
  | _ => True

/--
The step respects the open session.

A session is closed by its owner while its job is first, no interrupt completes that job, and its
owner is not released before closing it.
-/
def RespectsSession (s : Clients β) : ClientStep β → Prop
  | .waitTask pid => ∀ first, s.chan.firstJob = some first → first.id ∈ s.taskIds ∧ first.pid = pid
  | .irq => ∀ first, s.chan.firstJob = some first → first.id ∉ s.taskIds
  | .release pid => ∀ exec ∈ s.chan.jobList, exec.id ∈ s.taskIds → exec.pid ≠ pid
  | _ => True

/-- There is one session while the mutex is held and none while it is free. -/
structure Exclusive (s : Clients β) : Prop where
  fresh : Fresh s
  sessions : sessionCount s = s.tJobMutex.toNat

/-- No session is open on a fresh channel. -/
theorem Exclusive.init : Exclusive (init : Clients β) :=
  ⟨Fresh.init, rfl⟩

/-- The mutex tells whether there is exactly one session. -/
theorem Exclusive.owned {s : Clients β} (exclusive : Exclusive s) : Owned s := by
  -- The count is 1 or 0 as the mutex is held or free.
  have sessions := exclusive.sessions
  unfold Owned
  cases held : s.tJobMutex <;> simp [held] at sessions <;> simp [sessions]

/-- The session jobs of a list and of what follows it are counted separately. -/
theorem taskCount_append (taskIds : List Nat) (queue more : List (ExecInfo β)) :
    taskCount taskIds (queue ++ more) = taskCount taskIds queue + taskCount taskIds more := by
  simp [taskCount]

/-- A session job counts once, and any other job does not count. -/
theorem taskCount_cons (taskIds : List Nat) (exec : ExecInfo β) (queue : List (ExecInfo β)) :
    taskCount taskIds (exec :: queue)
      = taskCount taskIds queue + (if exec.id ∈ taskIds then 1 else 0) := by
  simp [taskCount, List.countP_cons]

/-- Only the identities of the jobs matter for the count. -/
theorem taskCount_congr (taskIds : List Nat) {queue other : List (ExecInfo β)}
    (same : queue.map (·.id) = other.map (·.id)) : taskCount taskIds queue = taskCount taskIds other := by
  simp only [taskCount, same]

/-- A session that has no job yet adds nothing to the count. -/
theorem taskCount_fresh {taskIds : List Nat} {queue : List (ExecInfo β)} {id : Nat}
    (known : ∀ exec ∈ queue, exec.id < id) :
    taskCount (id :: taskIds) queue = taskCount taskIds queue := by
  -- No queued job has the new identity.
  simp only [taskCount, List.countP_map]
  apply List.countP_congr
  intro exec member
  have other : exec.id ≠ id := Nat.ne_of_lt (known exec member)
  simp [other]

/-- Withdrawing no session job leaves the count. -/
theorem taskCount_filter {taskIds : List Nat} {queue : List (ExecInfo β)} {keep : ExecInfo β → Bool}
    (kept : ∀ exec ∈ queue, exec.id ∈ taskIds → keep exec) :
    taskCount taskIds (queue.filter keep) = taskCount taskIds queue := by
  -- A session job passes the filter, so the two counts test the same jobs.
  simp only [taskCount, List.countP_map, List.countP_filter]
  apply List.countP_congr
  intro exec member
  simp only [Function.comp_apply, Bool.and_eq_true, decide_eq_true_eq]
  exact ⟨fun both => both.1, fun session => ⟨session, kept exec member session⟩⟩

/-- A queued session job is one of the sessions, so the mutex is held. -/
theorem Exclusive.held {s : Clients β} (exclusive : Exclusive s) {exec : ExecInfo β}
    (member : exec ∈ s.chan.jobList) (session : exec.id ∈ s.taskIds) :
    s.tJobMutex = true ∧ taskCount s.taskIds s.chan.jobList = 1 ∧ s.calls.countP Opening = 0 := by
  -- The queued job alone makes the count positive.
  have sessions := exclusive.sessions
  have positive : 0 < taskCount s.taskIds s.chan.jobList := by
    simp only [taskCount, List.countP_map]
    exact List.countP_pos_iff.mpr ⟨exec, member, by simpa using session⟩
  unfold sessionCount at sessions
  cases held : s.tJobMutex <;> simp [held] at sessions
  · omega
  · exact ⟨rfl, by omega, by omega⟩

/-- Steps that respect the open session keep the mutex and the sessions together. -/
theorem Exclusive.step {s t : Clients β} {a : ClientStep β} (exclusive : Exclusive s)
    (taken : step .t s a = some t) (respects : RespectsSession s a) : Exclusive t := by
  refine ⟨exclusive.fresh.step taken, ?_⟩
  obtain ⟨fresh, sessions⟩ := exclusive
  -- Every session step moves one call, so the others' share of the count is named apart.
  simp only [sessionCount] at sessions ⊢
  cases a with
  | op pid body =>
    simp only [Clients.step, Option.some.injEq] at taken
    subst taken
    -- A plain job is not a session job, so the count stays.
    have unknown : s.nextId ∉ s.taskIds := fun member => Nat.lt_irrefl _ (fresh.sessions _ member)
    have queued : taskCount s.taskIds (s.chan.enqueue (s.newExec pid body)).jobList
        = taskCount s.taskIds (s.chan.jobList ++ [s.newExec pid body]) := by
      apply taskCount_congr
      rw [enqueue_map _ _ fun _ _ => rfl]
      simp
    rw [List.countP_append, queued, taskCount_append]
    simpa [Opening, taskCount, newExec, unknown] using sessions
  | taskOp pid body =>
    obtain ⟨_, rfl⟩ := step_taskOp taken
    rw [List.countP_append, taskCount_fresh fresh.queued]
    simpa [Opening] using sessions
  | taskLock call =>
    obtain ⟨c, found, phase, free, rfl⟩ := step_taskLock taken
    rw [Slots.countP_eraseIdx Opening found] at sessions
    simp only [Slots.countP_set Opening found]
    have waiting : Opening c = false := by simp [Opening, phase]
    simp only [waiting, free, Bool.toNat_false, Bool.false_eq_true, if_false] at sessions
    -- The call that takes the mutex is the new session.
    have opening : ∀ exec ticket, Opening (⟨exec, ticket, .polling⟩ : SubmitCall β) = true := by
      simp [Opening]
    simp only [opening, if_true, taskSeqno, Bool.toNat_true]
    omega
  | taskPoll call =>
    obtain ⟨c, found, phase, _, rfl⟩ := step_taskPoll taken
    rw [Slots.countP_eraseIdx Opening found] at sessions
    simp only [setPhase, Slots.countP_set Opening found]
    simpa [Opening, phase] using sessions
  | taskAdd call =>
    obtain ⟨c, found, phase, rfl⟩ := step_taskAdd taken
    have session := fresh.owners c (List.mem_of_getElem? found) (by simp [phase])
    rw [Slots.countP_eraseIdx Opening found] at sessions
    simp only [setPhase, Slots.countP_set Opening found, taskAdd, taskCount_append, taskCount_cons]
    -- The session passes from the call to the job that it queues.
    have before : Opening c = true := by simp [Opening, phase]
    have after : Opening { c with phase := .starting } = false := by simp [Opening]
    simp only [before, after, session, if_true, Bool.false_eq_true, if_false, taskCount,
      List.map_nil, List.countP_nil] at sessions ⊢
    omega
  | taskStart call =>
    obtain ⟨c, found, phase, rfl⟩ := step_taskStart taken
    rw [Slots.countP_eraseIdx Opening found] at sessions
    simp only [setPhase, Slots.countP_set Opening found]
    rw [taskCount_congr s.taskIds (taskStart_map _ _ fun _ _ => rfl)]
    simpa [Opening, phase] using sessions
  | report call =>
    obtain ⟨c, found, phase, rfl⟩ := step_report taken
    rw [Slots.countP_eraseIdx Opening found] at sessions
    simpa [Opening, phase] using sessions
  | irq =>
    simp only [Clients.step, Option.some.injEq] at taken
    subst taken
    simp only [finishJob]
    rw [taskCount_congr s.taskIds (tIrqFinishJob_map _ fun _ _ => rfl)]
    cases listed : s.chan.jobList with
    | nil => simpa [listed] using sessions
    | cons first rest =>
      -- The completed job is none of a session.
      have plain := respects first (by simp [firstJob, listed])
      simpa [listed, taskCount_cons, plain] using sessions
  | release pid =>
    simp only [Clients.step, Option.some.injEq] at taken
    subst taken
    simp only
    rw [taskCount_congr s.taskIds (release_map _ _ fun _ _ => rfl), taskCount_filter]
    · exact sessions
    · intro exec member session
      simpa using respects exec member session
  | jobDoneWork =>
    simp only [Clients.step, Option.some.injEq] at taken
    subst taken
    exact sessions
  | wait report timeoutNs =>
    obtain ⟨waits, rfl⟩ := step_onWaits taken trivial
    exact sessions
  | waitCheck wait =>
    obtain ⟨waits, rfl⟩ := step_onWaits taken trivial
    exact sessions
  | waitTurn wait signal expired =>
    obtain ⟨waits, rfl⟩ := step_onWaits taken trivial
    exact sessions
  | waitTask pid =>
    obtain ⟨_, first, rest, listed, rfl⟩ := step_waitTask taken
    obtain ⟨session, _⟩ := respects first (by simp [firstJob, listed])
    -- The job taken off is the only session there is.
    obtain ⟨_, one, none⟩ := Exclusive.held ⟨fresh, sessions⟩ (by simp [listed]) session
    rw [listed, taskCount_cons, if_pos session] at one
    simp only [Bool.toNat_false]
    omega

/--
On the T channel the mutex is held exactly while there is one session, every closing takes the
caller's own job and every release of an owner frees the mutex, if and only if all steps of the run
respect the open session.
-/
theorem owned_iff (run : List (ClientStep β)) :
    (Runs.Always (step .t) Owned init run ∧ Runs.Each (step .t) OwnClose init run)
      ↔ Runs.Each (step .t) (fun s a _ => RespectsSession s a) init run := by
  -- The invariant gives the property, and each violation of the condition breaks it at once.
  apply Runs.safe_iff (I := Exclusive)
  · exact fun s exclusive => exclusive.owned
  · intro s a t exclusive taken respects
    refine ⟨exclusive.step taken respects, ?_⟩
    cases a with
    | waitTask pid => exact respects
    | release pid =>
      intro given
      obtain ⟨exec, member, session, owner⟩ := given
      exact absurd owner (respects exec member session)
    | _ => trivial
  · intro s a t exclusive taken after close
    cases a with
    | waitTask pid => exact close
    | irq =>
      -- Completing the session's job would leave the mutex held without a session.
      intro first isFirst session
      have member := List.mem_of_head? isFirst
      obtain ⟨held, one, none⟩ := exclusive.held member session
      simp only [Clients.step, Option.some.injEq] at taken
      subst taken
      have count := after.mp held
      simp only [sessionCount, finishJob] at count
      rw [taskCount_congr s.taskIds (tIrqFinishJob_map _ fun _ _ => rfl)] at count
      cases listed : s.chan.jobList with
      | nil => simp [firstJob, listed] at isFirst
      | cons head rest =>
        simp only [firstJob, listed, List.head?_cons, Option.some.injEq] at isFirst
        subst isFirst
        rw [listed, taskCount_cons, if_pos session] at one
        rw [listed, List.tail_cons] at count
        omega
    | release pid =>
      -- A release never opens the mutex.
      intro exec member session owner
      have held := (exclusive.held member session).1
      have free := close ⟨exec, member, session, owner⟩
      simp only [Clients.step, Option.some.injEq] at taken
      have same : t.tJobMutex = s.tJobMutex := by rw [← taken]
      exact absurd (same.trans held) (by simp [free])
    | _ => trivial
  · exact Exclusive.init

/-- The owner of an open session is released, and the mutex stays held with nobody to open it. -/
theorem owned_released : ¬ (Runs.Always (step .t) Owned (init : Clients TBody)
      [.taskOp 1 default, .taskLock 0, .taskPoll 0, .taskAdd 0, .taskStart 0, .report 0, .release 1] ∧
    Runs.Each (step .t) OwnClose (init : Clients TBody)
      [.taskOp 1 default, .taskLock 0, .taskPoll 0, .taskAdd 0, .taskStart 0, .report 0,
        .release 1]) := by
  intro both
  obtain ⟨always, _⟩ := both
  -- The list is empty after the release, and no call is left.
  have owned := always.last rfl
  exact absurd (owned.mp rfl) (by decide)

end Aip.Clients
