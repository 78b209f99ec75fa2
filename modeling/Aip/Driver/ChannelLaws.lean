import Aip.Driver.Channel
import Aip.Lib.Ticket

/-! What one operation on a job queue preserves: the served head, distinct jobs, ordered numbers. -/

namespace Aip.Channel

variable {β : Type}

/-- The job is the one the hardware is working on. -/
def Running (exec : ExecInfo β) : Prop := exec.state = .running

/-- The first job alone runs and was programmed last, and every record is a known one. -/
structure Served (ch : Channel β) (nextId : Nat) : Prop where
  running : Ticket.HeadOnly Running ch.jobList
  last : ∀ exec, ch.firstJob = some exec → ch.programmed.head?.map (·.id) = some exec.id
  unstarted : ∀ exec ∈ ch.jobList.tail, exec.id ∉ ch.programmed.map (·.id)
  distinct : ((ch.jobList ++ ch.jobDoneList).map (·.id)).Nodup
  known : ∀ exec ∈ ch.jobList ++ ch.jobDoneList, exec.id < nextId
  written : ∀ exec ∈ ch.programmed, exec.id < nextId

/-- No queued job has been started, as it is whenever a first job is about to be programmed. -/
structure Waiting (ch : Channel β) (nextId : Nat) : Prop where
  idle : ∀ exec ∈ ch.jobList, ¬ Running exec
  unstarted : ∀ exec ∈ ch.jobList, exec.id ∉ ch.programmed.map (·.id)
  distinct : ((ch.jobList ++ ch.jobDoneList).map (·.id)).Nodup
  known : ∀ exec ∈ ch.jobList ++ ch.jobDoneList, exec.id < nextId
  written : ∀ exec ∈ ch.programmed, exec.id < nextId

/-- A freshly initialised channel serves nothing. -/
theorem Served.init : Served (init : Channel β) 0 := by
  constructor <;> simp [Channel.init, Ticket.HeadOnly, firstJob]

/-- A record allocated elsewhere leaves this channel as it was. -/
theorem Served.grow {ch : Channel β} {n m : Nat} (served : Served ch n) (later : n ≤ m) :
    Served ch m :=
  { served with
    known := fun exec member => Nat.lt_of_lt_of_le (served.known exec member) later
    written := fun exec member => Nat.lt_of_lt_of_le (served.written exec member) later }

/-- Programming the first waiting job makes it the served one. -/
theorem Waiting.submitNext {ch : Channel β} {n : Nat} (waiting : Waiting ch n) :
    Served ch.submitNext n := by
  -- An empty list leaves the channel as it is, and else the first job is programmed.
  cases listed : ch.jobList with
  | nil =>
    have same : ch.submitNext = ch := by simp [Channel.submitNext, listed]
    rw [same]
    refine ⟨?_, ?_, ?_, waiting.distinct, waiting.known, waiting.written⟩
    · simp [listed, Ticket.HeadOnly]
    · simp [firstJob, listed]
    · simp [listed]
  | cons exec rest =>
    obtain ⟨idle, unstarted, distinct, known, written⟩ := waiting
    rw [listed] at idle unstarted distinct known
    -- Records are distinct, so none of the later jobs is the one that starts.
    have others : exec.id ∉ rest.map (·.id) := by
      simp only [List.cons_append, List.map_cons, List.map_append, List.nodup_cons,
        List.mem_append, not_or] at distinct
      exact distinct.1.1
    -- Each clause is read off the channel with the first job written and running.
    constructor
    · simp only [Channel.submitNext, listed]
      exact ⟨rfl, fun other member => idle other (List.mem_cons_of_mem _ member)⟩
    · intro first head
      simp only [Channel.submitNext, listed, firstJob, List.head?_cons, Option.some.injEq] at head
      subst head
      simp [Channel.submitNext, listed]
    · intro other member
      simp only [Channel.submitNext, listed, List.tail_cons] at member ⊢
      simp only [List.map_cons, List.mem_cons, not_or]
      refine ⟨?_, unstarted other (List.mem_cons_of_mem _ member)⟩
      intro same
      exact others (same ▸ List.mem_map_of_mem member)
    · simpa [Channel.submitNext, listed] using distinct
    · intro other member
      simp only [Channel.submitNext, listed, List.cons_append, List.mem_cons] at member
      rcases member with rfl | member
      · exact known exec (by simp)
      · exact known other (by simp [member])
    · intro other member
      simp only [Channel.submitNext, listed, List.mem_cons] at member
      rcases member with rfl | member
      · exact known other (by simp)
      · exact written other member

/-- Queueing behind other jobs only appends the numbered record. -/
theorem enqueue_cons {ch : Channel β} {first : ExecInfo β} {rest : List (ExecInfo β)}
    (listed : ch.jobList = first :: rest) {exec : ExecInfo β} (other : exec.id ≠ first.id) :
    ch.enqueue exec = { ch with
      submitedSeqno := nextSeqno ch.submitedSeqno
      jobList := ch.jobList ++ [{ exec with seqno := nextSeqno ch.submitedSeqno }] } := by
  -- The source compares addresses, and the new record is not the first one.
  simp [enqueue, firstJob, listed, Ne.symm other]

/-- Queueing into an empty list starts the job at once. -/
theorem enqueue_nil {ch : Channel β} (listed : ch.jobList = []) (exec : ExecInfo β) :
    ch.enqueue exec = submitNext { ch with
      submitedSeqno := nextSeqno ch.submitedSeqno
      jobList := [{ exec with seqno := nextSeqno ch.submitedSeqno }] } := by
  simp [enqueue, firstJob, listed]

/-- Completing a running first job retires it and starts the next one. -/
theorem irqFinishJob_running {ch : Channel β} {first : ExecInfo β} {rest : List (ExecInfo β)}
    (listed : ch.jobList = first :: rest) (running : Running first) :
    ch.irqFinishJob = submitNext { ch with
      finishedSeqno := first.seqno
      jobList := rest
      jobDoneList := ch.jobDoneList ++ [first] } := by
  -- The test on the state of the first job succeeds.
  have state : first.state = .running := running
  simp [irqFinishJob, listed, state]

/-- Releasing the process of the running job restarts the hardware on the jobs that stay. -/
theorem release_running {ch : Channel β} {first : ExecInfo β} {rest : List (ExecInfo β)}
    (listed : ch.jobList = first :: rest) (running : Running first) :
    ch.release first.pid = submitNext { ch with
      jobList := rest.filter fun info => info.pid ≠ first.pid } := by
  have state : first.state = .running := running
  simp [release, listed, state]

/-- Releasing another process keeps the running job and withdraws only jobs behind it. -/
theorem release_waiting {ch : Channel β} {first : ExecInfo β} {rest : List (ExecInfo β)} {pid : Nat}
    (listed : ch.jobList = first :: rest) (served : Ticket.HeadOnly Running ch.jobList)
    (other : first.pid ≠ pid) :
    ch.release pid = { ch with
      jobList := first :: rest.filter fun info => info.pid ≠ pid } := by
  -- No withdrawn job runs, so nothing is submitted anew.
  have none : ch.jobList.any (fun info => info.pid = pid ∧ info.state = .running) = false := by
    rw [listed] at served ⊢
    simp only [List.any_cons, List.any_eq_false, Bool.or_eq_false_iff, decide_eq_false_iff_not,
      decide_eq_true_eq, not_and]
    exact ⟨fun same => absurd same other, fun info member _ => served.2 info member⟩
  -- The first job belongs to another process and stays.
  have kept : ch.jobList.filter (fun info => info.pid ≠ pid)
      = first :: rest.filter fun info => info.pid ≠ pid := by
    simp [listed, other]
  simp only [release, none, kept, Bool.false_eq_true, if_false]

/-- The record of a new call is on no list and has not been started. -/
theorem Served.fresh {ch : Channel β} {n : Nat} (served : Served ch n) {exec : ExecInfo β}
    (fresh : exec.id = n) : exec.id ∉ (ch.jobList ++ ch.jobDoneList).map (·.id) ∧
      exec.id ∉ ch.programmed.map (·.id) := by
  -- Every record of the channel has a smaller number.
  constructor
  · intro member
    obtain ⟨other, known, same⟩ := List.mem_map.mp member
    have bound := served.known other known
    omega
  · intro member
    obtain ⟨other, known, same⟩ := List.mem_map.mp member
    have bound := served.written other known
    omega

/-- A job queued on an idle channel is started. -/
theorem Served.enqueue_idle {ch : Channel β} {n : Nat} (served : Served ch n) {exec : ExecInfo β}
    (fresh : exec.id = n) (idle : ¬ Running exec) (listed : ch.jobList = []) :
    Served (ch.enqueue exec) (n + 1) := by
  obtain ⟨elsewhere, unwritten⟩ := served.fresh fresh
  have distinct := served.distinct
  rw [listed] at elsewhere distinct
  rw [enqueue_nil listed]
  -- The list with the one job is waiting, and `submit_next` serves it.
  apply Waiting.submitNext
  refine ⟨?_, ?_, ?_, ?_, ?_⟩
  · simpa [Running] using idle
  · simpa using unwritten
  · simpa using ⟨by simpa using elsewhere, by simpa using distinct⟩
  · intro other member
    simp only [List.cons_append, List.nil_append, List.mem_cons] at member
    rcases member with rfl | member
    · simp [fresh]
    · have bound := served.known other (by simp [member])
      omega
  · intro other member
    have bound := served.written other member
    omega

/-- A job queued behind others waits there. -/
theorem Served.enqueue_behind {ch : Channel β} {n : Nat} (served : Served ch n) {exec : ExecInfo β}
    (fresh : exec.id = n) (idle : ¬ Running exec) {first : ExecInfo β} {rest : List (ExecInfo β)}
    (listed : ch.jobList = first :: rest) : Served (ch.enqueue exec) (n + 1) := by
  obtain ⟨elsewhere, unwritten⟩ := served.fresh fresh
  -- The record is not the first job, so the hardware is left alone.
  have apart : exec.id ≠ first.id := by
    intro same
    exact elsewhere (by simp [listed, same])
  rw [enqueue_cons listed apart]
  refine ⟨?_, ?_, ?_, ?_, ?_, ?_⟩
  · have running := served.running
    rw [listed] at running ⊢
    exact running.append idle
  · intro head isFirst
    apply served.last head
    simpa [firstJob, listed] using isFirst
  · intro other member
    have unstarted := served.unstarted other
    simp only [listed, List.cons_append, List.tail_cons, List.mem_append,
      List.mem_singleton] at member unstarted
    rcases member with waiting | rfl
    · exact unstarted waiting
    · exact unwritten
  · -- The new record stands between the queued and the finished ones.
    have distinct := served.distinct
    simp only [List.map_append, List.map_cons, List.map_nil,
      List.append_assoc] at distinct elsewhere ⊢
    rw [List.nodup_append] at distinct ⊢
    simp only [List.mem_append, not_or] at elsewhere
    refine ⟨distinct.1, ?_, ?_⟩
    · simpa using ⟨by simpa using elsewhere.2, by simpa using distinct.2.1⟩
    · intro a queued b later
      simp only [List.cons_append, List.nil_append, List.mem_cons] at later
      rcases later with rfl | done
      · exact fun same => elsewhere.1 (same ▸ queued)
      · exact distinct.2.2 a queued b done
  · intro other member
    simp only [List.mem_append, List.mem_singleton] at member
    rcases member with (queued | rfl) | done
    · have bound := served.known other (by simp [queued])
      omega
    · simp [fresh]
    · have bound := served.known other (by simp [done])
      omega
  · intro other member
    have bound := served.written other member
    omega

/-- Numbering and queueing a fresh, unstarted job keeps the head served. -/
theorem Served.enqueue {ch : Channel β} {n : Nat} (served : Served ch n) {exec : ExecInfo β}
    (fresh : exec.id = n) (idle : ¬ Running exec) : Served (ch.enqueue exec) (n + 1) := by
  -- The job is either the first one or one behind the first.
  cases listed : ch.jobList with
  | nil => exact served.enqueue_idle fresh idle listed
  | cons first rest => exact served.enqueue_behind fresh idle listed

/-- Completion hands the head over to the next job. -/
theorem Served.irqFinishJob {ch : Channel β} {n : Nat} (served : Served ch n) :
    Served ch.irqFinishJob n := by
  -- The running head is retired, and what is left waits to be started.
  cases listed : ch.jobList with
  | nil =>
    have same : ch.irqFinishJob = ch := by simp [Channel.irqFinishJob, listed]
    rw [same]
    exact served
  | cons first rest =>
    obtain ⟨running, last, unstarted, distinct, known, written⟩ := served
    rw [listed] at running unstarted distinct known
    rw [irqFinishJob_running listed running.1]
    apply Waiting.submitNext
    refine ⟨running.2, unstarted, ?_, ?_, written⟩
    · -- The retired record moves from the front of the whole list to its back.
      have moved : (rest ++ (ch.jobDoneList ++ [first])).Perm (first :: rest ++ ch.jobDoneList) := by
        rw [← List.append_assoc]
        exact List.perm_append_singleton _ _
      exact ((moved.map _).nodup_iff).mpr distinct
    · intro other member
      simp only [List.mem_append, List.mem_singleton] at member
      rcases member with waiting | done | rfl
      · exact known other (by simp [waiting])
      · exact known other (by simp [done])
      · exact known other (by simp)

/-- Withdrawing jobs from both lists keeps the records distinct. -/
theorem distinct_sublist {queued queued' done done' : List (ExecInfo β)}
    (distinct : ((queued ++ done).map (·.id)).Nodup) (fewer : queued'.Sublist queued)
    (fewerDone : done'.Sublist done) : ((queued' ++ done').map (·.id)).Nodup :=
  distinct.sublist ((fewer.append fewerDone).map _)

/-- Releasing a process keeps the head served, restarting the hardware where it lost its job. -/
theorem Served.release {ch : Channel β} {n : Nat} (served : Served ch n) (pid : Nat) :
    Served (ch.release pid) n := by
  -- The hardware is restarted exactly when the head belongs to the process.
  cases listed : ch.jobList with
  | nil =>
    have same : ch.release pid = ch := by
      cases ch
      simp_all [Channel.release]
    rw [same]
    exact served
  | cons first rest =>
    have headOnly := served.running
    obtain ⟨running, last, unstarted, distinct, known, written⟩ := served
    rw [listed] at running unstarted distinct known
    have fewer : (rest.filter fun info => info.pid ≠ pid).Sublist rest := List.filter_sublist
    by_cases owner : first.pid = pid
    · -- The head goes, so the jobs that are left all wait.
      subst owner
      rw [release_running listed running.1]
      apply Waiting.submitNext
      refine ⟨fun info member => running.2 info (fewer.subset member),
        fun info member => unstarted info (fewer.subset member), ?_, ?_, written⟩
      · exact distinct_sublist distinct (fewer.trans (List.sublist_cons_self _ _))
          (List.Sublist.refl _)
      · intro other member
        rcases List.mem_append.mp member with waiting | done
        · exact known other (by simp [fewer.subset waiting])
        · exact known other (by simp [done])
    · -- The head stays and goes on running.
      rw [release_waiting listed headOnly owner]
      refine ⟨running.keep fewer.subset, ?_, fun info member => unstarted info (fewer.subset member),
        ?_, ?_, written⟩
      · intro head isFirst
        apply last head
        simpa [firstJob, listed] using isFirst
      · exact distinct_sublist distinct (fewer.cons_cons _) (List.Sublist.refl _)
      · intro other member
        simp only [List.cons_append, List.mem_cons, List.mem_append] at member
        rcases member with rfl | waiting | done
        · exact known other (by simp)
        · exact known other (by simp [fewer.subset waiting])
        · exact known other (by simp [done])

/-- Freeing a finished record touches nothing that is queued. -/
theorem Served.jobDoneWork {ch : Channel β} {n : Nat} (served : Served ch n) :
    Served ch.jobDoneWork n := by
  -- Only the list of finished records gets shorter.
  have fewer : ch.jobDoneList.tail.Sublist ch.jobDoneList := List.tail_sublist _
  refine ⟨served.running, served.last, served.unstarted,
    distinct_sublist served.distinct (List.Sublist.refl _) fewer, ?_, served.written⟩
  intro exec member
  rcases List.mem_append.mp member with waiting | done
  · exact served.known exec (List.mem_append_left _ waiting)
  · exact served.known exec (List.mem_append_right _ (fewer.subset done))

/-- The queued numbers increase, all after the last finished one and none beyond the last given. -/
structure Numbered (ch : Channel β) : Prop where
  window : Ticket.Window ch.finishedSeqno ch.submitedSeqno (ch.jobList.map (·.seqno))
  order : ch.finishedSeqno ≤ ch.submitedSeqno

/-- No number has been given on a fresh channel. -/
theorem Numbered.init : Numbered (init : Channel β) :=
  ⟨Ticket.Window.empty _ _, Nat.le_refl _⟩

/-- Starting a job does not renumber anything. -/
theorem Numbered.submitNext {ch : Channel β} (numbered : Numbered ch) : Numbered ch.submitNext := by
  refine ⟨?_, ?_⟩
  · simpa using numbered.window
  · simpa using numbered.order

@[simp] theorem enqueue_submited (ch : Channel β) (exec : ExecInfo β) :
    (ch.enqueue exec).submitedSeqno = nextSeqno ch.submitedSeqno := by
  simp only [enqueue]
  split <;> simp

@[simp] theorem enqueue_finished (ch : Channel β) (exec : ExecInfo β) :
    (ch.enqueue exec).finishedSeqno = ch.finishedSeqno := by
  simp only [enqueue]
  split <;> simp

/-- The new job, carrying the next number, stands at the end of the list. -/
theorem enqueue_map {γ : Type} (ch : Channel β) (exec : ExecInfo β) {key : ExecInfo β → γ}
    (same : Stateless key) : (ch.enqueue exec).jobList.map key = ch.jobList.map key
      ++ [key { exec with seqno := nextSeqno ch.submitedSeqno }] := by
  -- Starting the job changes its state only, which the key does not show.
  simp only [enqueue]
  split
  · rw [submitNext_map _ same]
    simp
  · simp

/-- Short of the counter's last value, the next number is the successor. -/
theorem nextSeqno_of_lt {seqno : Nat} (room : seqno + 1 < 2 ^ 64) : nextSeqno seqno = seqno + 1 :=
  Nat.mod_eq_of_lt room

/-- Queueing keeps the numbers in order until the counter wraps. -/
theorem Numbered.enqueue {ch : Channel β} (numbered : Numbered ch)
    (room : ch.submitedSeqno + 1 < 2 ^ 64) (exec : ExecInfo β) : Numbered (ch.enqueue exec) := by
  -- The new number is one more than the last one given.
  have order := numbered.order
  refine ⟨?_, ?_⟩
  · rw [enqueue_map ch exec fun _ _ => rfl, enqueue_finished, enqueue_submited, nextSeqno_of_lt room]
    exact numbered.window.issue order
  · simp only [enqueue_finished, enqueue_submited, nextSeqno_of_lt room]
    omega

/-- Completion makes the served number the last finished one. -/
theorem Numbered.irqFinishJob {ch : Channel β} (numbered : Numbered ch)
    (served : Ticket.HeadOnly Running ch.jobList) :
    Numbered ch.irqFinishJob ∧ ch.finishedSeqno ≤ ch.irqFinishJob.finishedSeqno := by
  -- The head has the smallest number, so serving it moves the window up to it.
  cases listed : ch.jobList with
  | nil =>
    have same : ch.irqFinishJob = ch := by simp [Channel.irqFinishJob, listed]
    rw [same]
    exact ⟨numbered, Nat.le_refl _⟩
  | cons first rest =>
    rw [listed] at served
    have window := numbered.window
    simp only [listed, List.map_cons] at window
    have later := window.pending first.seqno (List.mem_cons_self)
    have given := window.known first.seqno (List.mem_cons_self)
    rw [irqFinishJob_running listed served.1]
    refine ⟨Numbered.submitNext ⟨window.serve, given⟩, ?_⟩
    simp only [submitNext_finished]
    exact Nat.le_of_lt later

@[simp] theorem release_submited (ch : Channel β) (pid : Nat) :
    (ch.release pid).submitedSeqno = ch.submitedSeqno := by
  simp only [release]
  split <;> simp

@[simp] theorem release_finished (ch : Channel β) (pid : Nat) :
    (ch.release pid).finishedSeqno = ch.finishedSeqno := by
  simp only [release]
  split <;> simp

/-- Up to the state of the new head, release only filters the list. -/
theorem release_map {γ : Type} (ch : Channel β) (pid : Nat) {key : ExecInfo β → γ}
    (same : Stateless key) : (ch.release pid).jobList.map key
      = (ch.jobList.filter fun info => info.pid ≠ pid).map key := by
  -- Whether or not the next job is started, the list is the filtered one.
  simp only [release]
  split
  · exact submitNext_map _ same
  · rfl

/-- Up to the state of the new head, completion drops at most the first job. -/
theorem irqFinishJob_map {γ : Type} (ch : Channel β) {key : ExecInfo β → γ} (same : Stateless key) :
    (ch.irqFinishJob.jobList.map key).Sublist (ch.jobList.map key) := by
  -- A first job that does not run is started instead of being retired.
  cases listed : ch.jobList with
  | nil => simp [Channel.irqFinishJob, listed]
  | cons exec rest =>
    by_cases running : Running exec
    · rw [irqFinishJob_running listed running, submitNext_map _ same]
      simp
    · have state : exec.state ≠ .running := running
      have only : ch.irqFinishJob = ch.submitNext := by simp [Channel.irqFinishJob, listed, state]
      rw [only, submitNext_map _ same, listed]

/-- Up to the state of the new head, completion on the T channel drops the first job. -/
theorem tIrqFinishJob_map {γ : Type} (ch : Channel β) {key : ExecInfo β → γ} (same : Stateless key) :
    ch.tIrqFinishJob.jobList.map key = ch.jobList.tail.map key := by
  -- The first job is retired in every state.
  cases listed : ch.jobList with
  | nil => simp [tIrqFinishJob, listed]
  | cons exec rest =>
    simp only [tIrqFinishJob, listed]
    exact submitNext_map _ same

/-- Starting a job only adds to the record of started jobs. -/
theorem submitNext_programmed (ch : Channel β) : ch.programmed <:+ ch.submitNext.programmed := by
  cases listed : ch.jobList with
  | nil => simp [submitNext, listed]
  | cons exec rest =>
    simp only [submitNext, listed]
    exact List.suffix_cons _ _

/-- Queueing a job starts at most that job. -/
theorem enqueue_programmed (ch : Channel β) (exec : ExecInfo β) :
    ch.programmed <:+ (ch.enqueue exec).programmed := by
  -- Only the branch for a first job programs anything.
  simp only [enqueue]
  split
  · exact submitNext_programmed { ch with
      submitedSeqno := nextSeqno ch.submitedSeqno
      jobList := ch.jobList ++ [{ exec with seqno := nextSeqno ch.submitedSeqno }] }
  · exact List.suffix_refl _

/-- Completion starts at most the next job. -/
theorem irqFinishJob_programmed (ch : Channel β) : ch.programmed <:+ ch.irqFinishJob.programmed := by
  -- Both branches end in one call of `submit_next`.
  cases listed : ch.jobList with
  | nil => simp [irqFinishJob, listed]
  | cons exec rest =>
    simp only [irqFinishJob, listed]
    split
    · exact submitNext_programmed ch
    · exact submitNext_programmed { ch with
        finishedSeqno := exec.seqno
        jobList := rest
        jobDoneList := ch.jobDoneList ++ [exec] }

/-- A release starts at most the first job it leaves. -/
theorem release_programmed (ch : Channel β) (pid : Nat) :
    ch.programmed <:+ (ch.release pid).programmed := by
  -- Only a release of a running job submits the next one.
  simp only [release]
  split
  · exact submitNext_programmed { ch with
      jobList := ch.jobList.filter fun info => info.pid ≠ pid }
  · exact List.suffix_refl _

@[simp] theorem enqueue_done (ch : Channel β) (exec : ExecInfo β) :
    (ch.enqueue exec).jobDoneList = ch.jobDoneList := by
  simp only [enqueue]
  split <;> simp

@[simp] theorem release_done (ch : Channel β) (pid : Nat) :
    (ch.release pid).jobDoneList = ch.jobDoneList := by
  simp only [release]
  split <;> simp

/-- Withdrawing a process's jobs leaves the other numbers in order. -/
theorem Numbered.release {ch : Channel β} (numbered : Numbered ch) (pid : Nat) :
    Numbered (ch.release pid) := by
  -- Numbers are withdrawn with their jobs, and the counters stay.
  refine ⟨?_, ?_⟩
  · rw [release_map ch pid fun _ _ => rfl, release_finished, release_submited]
    exact numbered.window.withdraw (List.filter_sublist.map _)
  · simpa using numbered.order

end Aip.Channel
