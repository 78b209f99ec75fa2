import Aip.Driver.Ledger

/-! The F and P jobs are served in the order of their submits, each within as many interrupts. -/

namespace Aip.Ledger

open Channel Clients

variable {β : Type} {op : ChOp} {s t : Ledger β} {a : ClientStep β}

/-- No call is inside a session, as on every channel but T. -/
def Plain (s : Ledger β) : Prop := ∀ c ∈ s.clients.calls, c.phase = .returned

/--
What a step does to an F or P queue and to the records that have finished.

A step that is none of the first three leaves the queue and the finished records as they were.
-/
theorem step_served (queued : op ≠ .t) (plain : s.Plain) (taken : step op s a = some t) :
    (∃ pid body, a = .op pid body ∧ t.finished = s.finished ∧
      t.clients.chan = s.clients.chan.enqueue (s.clients.newExec pid body) ∧
      t.clients.issued = s.clients.issued + 1) ∨
    (a = .irq ∧ t.completed = s.completed ∧ t.clients.chan = s.clients.chan.irqFinishJob) ∨
    (∃ pid, a = .release pid ∧ t.finished = s.finished ∧
      t.clients.chan = s.clients.chan.release pid) ∨
    (a ≠ .irq ∧ t.finished = s.finished ∧ t.clients.chan.jobList = s.clients.chan.jobList ∧
      t.clients.chan.programmed = s.clients.chan.programmed ∧
      t.clients.chan.submitedSeqno = s.clients.chan.submitedSeqno ∧
      t.clients.chan.finishedSeqno = s.clients.chan.finishedSeqno) := by
  obtain ⟨clients, stepped, rfl⟩ := step_eq_some.mp taken
  -- The steps of a session find no call that is inside one.
  have outside : ∀ {call : Nat} {phase : SubmitPhase} {next : SubmitCall β → Option (Clients β)},
      phase ≠ .returned → s.clients.withCall call phase next ≠ some clients := by
    intro call phase next inside continued
    obtain ⟨c, found, here, _⟩ := withCall_eq_some.mp continued
    exact inside (here.symm.trans (plain c (List.mem_of_getElem? found)))
  cases a with
  | op pid body =>
    simp only [Clients.step, Option.some.injEq] at stepped
    subst stepped
    refine .inl ⟨pid, body, rfl, ?_, rfl, rfl⟩
    simp only [finished, entered, enqueue_done]
  | taskOp pid body => simp [Clients.step, queued] at stepped
  | taskLock call => exact absurd stepped (outside (by simp))
  | taskPoll call => exact absurd stepped (outside (by simp))
  | taskAdd call => exact absurd stepped (outside (by simp))
  | taskStart call => exact absurd stepped (outside (by simp))
  | report call =>
    obtain ⟨c, _, _, rfl⟩ := step_report stepped
    exact .inr (.inr (.inr ⟨by simp, rfl, rfl, rfl, rfl, rfl⟩))
  | irq =>
    simp only [Clients.step, Option.some.injEq] at stepped
    subst stepped
    refine .inr (.inl ⟨rfl, rfl, ?_⟩)
    cases op with
    | t => exact absurd rfl queued
    | f => rfl
    | p => rfl
  | release pid =>
    simp only [Clients.step, Option.some.injEq] at stepped
    subst stepped
    refine .inr (.inr (.inl ⟨pid, rfl, ?_, rfl⟩))
    simp only [finished, entered, release_done]
  | jobDoneWork =>
    simp only [Clients.step, Option.some.injEq] at stepped
    subst stepped
    -- The freed record stays among the finished ones.
    refine .inr (.inr (.inr ⟨by simp, ?_, rfl, rfl, rfl, rfl⟩))
    simp only [finished, entered, jobDoneWork, List.append_assoc]
    cases s.clients.chan.jobDoneList <;> rfl
  | wait report timeoutNs =>
    obtain ⟨waits, rfl⟩ := step_onWaits stepped trivial
    exact .inr (.inr (.inr ⟨by simp, rfl, rfl, rfl, rfl, rfl⟩))
  | waitCheck wait =>
    obtain ⟨waits, rfl⟩ := step_onWaits stepped trivial
    exact .inr (.inr (.inr ⟨by simp, rfl, rfl, rfl, rfl, rfl⟩))
  | waitTurn wait signal expired =>
    obtain ⟨waits, rfl⟩ := step_onWaits stepped trivial
    exact .inr (.inr (.inr ⟨by simp, rfl, rfl, rfl, rfl, rfl⟩))
  | waitTask pid => exact absurd (step_waitTask stepped).1 queued

/-- A served queue finishes its first job at an interrupt, and nothing when it is empty. -/
theorem irq_served (served : Ticket.HeadOnly Running s.clients.chan.jobList)
    (completed : t.completed = s.completed)
    (chan : t.clients.chan = s.clients.chan.irqFinishJob) :
    (s.clients.chan.jobList = [] ∧ t.finished = s.finished ∧ t.clients.chan = s.clients.chan) ∨
    ∃ first rest, s.clients.chan.jobList = first :: rest ∧ t.finished = s.finished ++ [first] ∧
      t.clients.chan = submitNext { s.clients.chan with
        finishedSeqno := first.seqno
        jobList := rest
        jobDoneList := s.clients.chan.jobDoneList ++ [first] } := by
  cases listed : s.clients.chan.jobList with
  | nil =>
    have same : t.clients.chan = s.clients.chan := by
      rw [chan]
      simp [irqFinishJob, listed]
    exact .inl ⟨rfl, by rw [finished, finished, completed, same], same⟩
  | cons first rest =>
    rw [listed] at served
    rw [irqFinishJob_running listed served.1] at chan
    refine .inr ⟨first, rest, rfl, ?_, chan⟩
    rw [finished, completed, chan, submitNext_done, ← List.append_assoc]
    rfl

section Order

/-- The queue of an F or P channel in the order of its numbers, the finished records first. -/
structure Fifo (s : Ledger β) : Prop where
  order : ((s.finished ++ s.clients.chan.jobList).map (·.seqno)).Pairwise (· < ·)
  reached : ∀ exec ∈ s.finished, exec.seqno ≤ s.clients.chan.finishedSeqno
  latest : s.clients.chan.finishedSeqno = ((s.finished.map (·.seqno)).getLast?).getD 0
  started : (s.clients.chan.programmed.map (·.seqno)).Pairwise (· > ·)
  served : ∀ exec ∈ s.finished, exec.id ∈ s.clients.chan.programmed.map (·.id)

/-- The numbers that were programmed, against those that wait behind the first and those still to come. -/
structure Behind (ch : Channel β) : Prop where
  sorted : (ch.programmed.map (·.seqno)).Pairwise (· > ·)
  waiting : ∀ p ∈ ch.programmed, ∀ exec ∈ ch.jobList.tail, p.seqno < exec.seqno
  known : ∀ p ∈ ch.programmed, p.seqno ≤ ch.submitedSeqno

/-- Nothing has been programmed on a fresh channel. -/
theorem Behind.init : Behind (Channel.init : Channel β) := by
  constructor <;> simp [Channel.init]

/-- Starting a first job that no programmed number has reached keeps the order of the starts. -/
theorem Behind.submitNext {ch : Channel β} (sorted : (ch.programmed.map (·.seqno)).Pairwise (· > ·))
    (fresh : ∀ p ∈ ch.programmed, ∀ exec ∈ ch.jobList, p.seqno < exec.seqno)
    (window : (ch.jobList.map (·.seqno)).Pairwise (· < ·))
    (known : ∀ p ∈ ch.programmed, p.seqno ≤ ch.submitedSeqno)
    (given : ∀ exec ∈ ch.jobList, exec.seqno ≤ ch.submitedSeqno) : Behind ch.submitNext := by
  cases listed : ch.jobList with
  | nil =>
    have same : ch.submitNext = ch := by simp [Channel.submitNext, listed]
    rw [same]
    exact ⟨sorted, by simp [listed], known⟩
  | cons exec rest =>
    rw [listed] at fresh window given
    simp only [List.map_cons, List.pairwise_cons] at window
    constructor
    · -- The first job has a later number than every one started before it.
      simp only [Channel.submitNext, listed, List.map_cons, List.pairwise_cons]
      refine ⟨fun seqno earlier => ?_, sorted⟩
      obtain ⟨p, member, rfl⟩ := List.mem_map.mp earlier
      exact fresh p member exec List.mem_cons_self
    · intro p member other behind
      simp only [Channel.submitNext, listed, List.mem_cons, List.tail_cons] at member behind
      rcases member with rfl | member
      · exact window.1 other.seqno (List.mem_map_of_mem behind)
      · exact fresh p member other (List.mem_cons_of_mem _ behind)
    · intro p member
      simp only [Channel.submitNext, listed, List.mem_cons] at member
      rcases member with rfl | member
      · simpa [Channel.submitNext, listed] using given p List.mem_cons_self
      · simpa [Channel.submitNext, listed] using known p member

/-- A submit comes behind every number that was programmed. -/
theorem Behind.enqueue {ch : Channel β} {n : Nat} {exec : ExecInfo β} (behind : Behind ch)
    (served : Served ch n) (fresh : exec.id = n) (room : ch.submitedSeqno + 1 < 2 ^ 64) :
    Behind (ch.enqueue exec) := by
  have next := nextSeqno_of_lt room
  cases listed : ch.jobList with
  | nil =>
    rw [enqueue_nil listed]
    apply Behind.submitNext
    · exact behind.sorted
    · intro p member other only
      rw [List.mem_singleton.mp only]
      have known := behind.known p member
      change p.seqno < nextSeqno ch.submitedSeqno
      omega
    · exact List.pairwise_singleton _ _
    · intro p member
      have known := behind.known p member
      change p.seqno ≤ nextSeqno ch.submitedSeqno
      omega
    · intro other only
      rw [List.mem_singleton.mp only]
  | cons first rest =>
    have other : exec.id ≠ first.id := by
      have known := served.known first (by simp [listed])
      omega
    rw [enqueue_cons listed other]
    refine ⟨behind.sorted, fun p member later waits => ?_, fun p member => ?_⟩
    · -- Behind the first job stand the ones of before and the new one.
      have known := behind.known p member
      simp only [listed, List.cons_append, List.tail_cons, List.mem_append,
        List.mem_singleton] at waits
      rcases waits with old | rfl
      · exact behind.waiting p member later (by rw [listed]; exact old)
      · change p.seqno < nextSeqno ch.submitedSeqno
        omega
    · have known := behind.known p member
      change p.seqno ≤ nextSeqno ch.submitedSeqno
      omega

/-- A completion or a release starts one of the jobs that waited behind the first. -/
theorem Behind.next {ch : Channel β} {first : ExecInfo β} {rest kept : List (ExecInfo β)}
    {done : List (ExecInfo β)} {seqno : Nat} (behind : Behind ch) (numbered : Numbered ch)
    (listed : ch.jobList = first :: rest) (fewer : kept.Sublist rest) :
    Behind (Channel.submitNext { ch with
      finishedSeqno := seqno
      jobList := kept
      jobDoneList := done }) := by
  have window := numbered.window
  rw [listed, List.map_cons] at window
  apply Behind.submitNext
  · exact behind.sorted
  · intro p member exec waits
    refine behind.waiting p member exec ?_
    rw [listed]
    exact fewer.subset waits
  · exact window.serve.sorted.sublist (fewer.map _)
  · exact behind.known
  · intro exec waits
    exact window.known _ (List.mem_cons_of_mem _ (List.mem_map_of_mem (fewer.subset waits)))

/-- A release leaves the starts in order. -/
theorem Behind.release {ch : Channel β} {n : Nat} (behind : Behind ch) (served : Served ch n)
    (numbered : Numbered ch) (pid : Nat) : Behind (ch.release pid) := by
  cases listed : ch.jobList with
  | nil =>
    have same : ch.release pid = ch := by
      cases ch
      simp_all [Channel.release]
    rw [same]
    exact behind
  | cons first rest =>
    have headOnly := served.running
    have fewer : (rest.filter fun info => info.pid ≠ pid).Sublist rest := List.filter_sublist
    by_cases owner : first.pid = pid
    · subst owner
      rw [listed] at headOnly
      rw [release_running listed headOnly.1]
      exact behind.next numbered listed fewer
    · rw [release_waiting listed headOnly owner]
      refine ⟨behind.sorted, fun p member exec waits => ?_, behind.known⟩
      refine behind.waiting p member exec ?_
      rw [listed]
      exact fewer.subset waits

/-- What a queue in order is and has been. -/
structure InOrder (s : Ledger β) : Prop where
  ordered : Ordered s.clients
  behind : Behind s.clients.chan
  fifo : Fifo s

/-- Nothing is out of order on a fresh channel. -/
theorem InOrder.init : InOrder (init : Ledger β) := by
  refine ⟨Ordered.init, Behind.init, ?_⟩
  constructor <;> simp [Ledger.init, Clients.init, Channel.init, finished]

/-- A submit comes last in the order. -/
theorem Fifo.enqueue {exec : ExecInfo β} (fifo : Fifo s) (numbered : Numbered s.clients.chan)
    (behind : Behind (s.clients.chan.enqueue exec))
    (room : s.clients.chan.submitedSeqno + 1 < 2 ^ 64) (finished : t.finished = s.finished)
    (chan : t.clients.chan = s.clients.chan.enqueue exec) : Fifo t := by
  have order := numbered.order
  refine ⟨?_, ?_, ?_, ?_, ?_⟩
  · rw [List.map_append, finished, chan, enqueue_map _ _ fun _ _ => rfl, ← List.append_assoc,
      ← List.map_append, List.pairwise_append]
    refine ⟨fifo.order, List.pairwise_singleton _ _, fun seqno earlier last only => ?_⟩
    rw [List.mem_singleton.mp only]
    change seqno < nextSeqno s.clients.chan.submitedSeqno
    rw [nextSeqno_of_lt room]
    -- Every number given before is at most the last one submitted.
    obtain ⟨other, member, rfl⟩ := List.mem_map.mp earlier
    rcases List.mem_append.mp member with done | waits
    · have reached := fifo.reached other done
      omega
    · have known := numbered.window.known _ (List.mem_map_of_mem waits)
      omega
  · rw [finished, chan, enqueue_finished]
    exact fifo.reached
  · rw [finished, chan, enqueue_finished]
    exact fifo.latest
  · rw [chan]
    exact behind.sorted
  · intro other done
    rw [finished] at done
    rw [chan]
    exact List.map_subset _ (enqueue_programmed _ _).subset (fifo.served other done)

/-- An interrupt finishes the number that comes next in the order. -/
theorem Fifo.irq {first : ExecInfo β} {rest : List (ExecInfo β)} (fifo : Fifo s)
    (numbered : Numbered s.clients.chan)
    (programmed : s.clients.chan.programmed.head?.map (·.id) = some first.id)
    (listed : s.clients.chan.jobList = first :: rest)
    (finished : t.finished = s.finished ++ [first])
    (chan : t.clients.chan = submitNext { s.clients.chan with
      finishedSeqno := first.seqno
      jobList := rest
      jobDoneList := s.clients.chan.jobDoneList ++ [first] })
    (behind : Behind t.clients.chan) : Fifo t := by
  have window := numbered.window
  rw [listed, List.map_cons] at window
  have later := window.pending first.seqno List.mem_cons_self
  refine ⟨?_, ?_, ?_, behind.sorted, ?_⟩
  · -- The first job only moves from one list to the other.
    have order := fifo.order
    rw [List.map_append, finished, chan, submitNext_map _ fun _ _ => rfl, ← List.map_append,
      List.append_assoc]
    rw [listed] at order
    exact order
  · intro exec done
    rw [finished] at done
    rw [chan, submitNext_finished]
    rcases List.mem_append.mp done with old | new
    · exact Nat.le_of_lt (Nat.lt_of_le_of_lt (fifo.reached exec old) later)
    · rw [List.mem_singleton.mp new]
  · rw [finished, chan, submitNext_finished, List.map_append, List.map_singleton,
      List.getLast?_append]
    rfl
  · intro exec done
    rw [finished] at done
    have grown := submitNext_programmed { s.clients.chan with
      finishedSeqno := first.seqno
      jobList := rest
      jobDoneList := s.clients.chan.jobDoneList ++ [first] }
    rw [← chan] at grown
    apply List.map_subset _ grown.subset
    rcases List.mem_append.mp done with old | new
    · exact fifo.served exec old
    · rw [List.mem_singleton.mp new]
      obtain ⟨p, head, same⟩ := Option.map_eq_some_iff.mp programmed
      exact List.mem_map.mpr ⟨p, List.mem_of_mem_head? head, same⟩

/-- A release takes numbers out of the order. -/
theorem Fifo.release {pid : Nat} (fifo : Fifo s)
    (finished : t.finished = s.finished) (chan : t.clients.chan = s.clients.chan.release pid)
    (behind : Behind t.clients.chan) : Fifo t := by
  refine ⟨?_, ?_, ?_, behind.sorted, ?_⟩
  · rw [List.map_append, finished, chan, release_map _ _ fun _ _ => rfl, ← List.map_append]
    exact fifo.order.sublist (((List.Sublist.refl _).append List.filter_sublist).map _)
  · rw [finished, chan, release_finished]
    exact fifo.reached
  · rw [finished, chan, release_finished]
    exact fifo.latest
  · intro exec done
    rw [finished] at done
    rw [chan]
    exact List.map_subset _ (release_programmed _ _).subset (fifo.served exec done)

/-- A step that leaves the queue and the history alone leaves the order alone. -/
theorem InOrder.still (inOrder : InOrder s) (later : Ordered t.clients)
    (finished : t.finished = s.finished)
    (jobs : t.clients.chan.jobList = s.clients.chan.jobList)
    (programmed : t.clients.chan.programmed = s.clients.chan.programmed)
    (submited : t.clients.chan.submitedSeqno = s.clients.chan.submitedSeqno)
    (finishedSeqno : t.clients.chan.finishedSeqno = s.clients.chan.finishedSeqno) : InOrder t := by
  obtain ⟨_, behind, fifo⟩ := inOrder
  refine ⟨later, ⟨?_, ?_, ?_⟩, ⟨?_, ?_, ?_, ?_, ?_⟩⟩
  · rw [programmed]
    exact behind.sorted
  · rw [programmed, jobs]
    exact behind.waiting
  · rw [programmed, submited]
    exact behind.known
  · rw [finished, jobs]
    exact fifo.order
  · rw [finished, finishedSeqno]
    exact fifo.reached
  · rw [finished, finishedSeqno]
    exact fifo.latest
  · rw [programmed]
    exact fifo.started
  · rw [finished, programmed]
    exact fifo.served

/-- Until the counter wraps, every step keeps the queue in order. -/
theorem InOrder.step (queued : op ≠ .t) (inOrder : InOrder s) (taken : step op s a = some t)
    (room : t.clients.issued < 2 ^ 64) : InOrder t := by
  have ⟨ordered, behind, fifo⟩ := inOrder
  have served := ordered.served
  have numbered := ordered.numbered
  obtain ⟨clients, stepped, entered⟩ := step_eq_some.mp taken
  have same : t.clients = clients := by
    rw [← entered]
    cases a <;> rfl
  have later : Ordered t.clients := by
    rw [same] at room ⊢
    exact (ordered.step queued stepped room).1
  obtain ⟨pid, body, _, finished, chan, issued⟩ | ⟨_, completed, chan⟩ | ⟨pid, _, finished, chan⟩ |
    ⟨_, finished, jobs, programmed, submited, finishedSeqno⟩ :=
    step_served queued ordered.plain taken
  · -- The number of the new job is the last one, and has room.
    have next : s.clients.chan.submitedSeqno + 1 < 2 ^ 64 := by
      rw [ordered.counter, ← issued]
      exact room
    have fresh : (s.clients.newExec pid body).id = s.clients.nextId := rfl
    have after := behind.enqueue served fresh next
    exact ⟨later, by rw [chan]; exact after, fifo.enqueue numbered after next finished chan⟩
  · rcases irq_served served.running completed chan with ⟨_, finished, still⟩ |
      ⟨first, rest, listed, finished, chan⟩
    · exact inOrder.still later finished (by rw [still]) (by rw [still]) (by rw [still])
        (by rw [still])
    · have after : Behind t.clients.chan := by
        rw [chan]
        exact behind.next numbered listed (List.Sublist.refl _)
      have head : s.clients.chan.firstJob = some first := by rw [firstJob, listed]; rfl
      exact ⟨later, after,
        fifo.irq numbered (served.last first head) listed finished chan after⟩
  · have after : Behind t.clients.chan := by
      rw [chan]
      exact behind.release served numbered pid
    exact ⟨later, after, fifo.release finished chan after⟩
  · exact inOrder.still later finished jobs programmed submited finishedSeqno

/--
On the F and P channels jobs are started and finished in the order of their submits: as long as fewer
than 2^64 jobs have been submitted, the numbers of the finished jobs followed by those that wait
increase, the jobs were programmed in the order of their numbers, each at most once, every finished
job had been programmed, and the finished counter shows the last of them.
-/
theorem fifo (op : ChOp) (queued : op ≠ .t) (run : List (ClientStep β)) :
    Runs.Always (step op) (fun s => s.clients.issued < 2 ^ 64 → Fifo s) init run := by
  have always : Runs.Always (step op)
      (fun s : Ledger β => s.Plain ∧ (s.clients.issued < 2 ^ 64 → InOrder s)) init run := by
    refine Runs.always_of_preserved (fun s a t held taken => ?_)
      ⟨Ordered.init.plain, fun _ => InOrder.init⟩
    obtain ⟨plain, inOrder⟩ := held
    obtain ⟨clients, stepped, rfl⟩ := step_eq_some.mp taken
    refine ⟨?_, fun room => ?_⟩
    · intro c member
      exact step_plain queued plain stepped c (by cases a <;> exact member)
    · -- No step takes an issued number back.
      have issued : s.clients.issued ≤ clients.issued := by
        obtain ⟨_, ⟨_, _, _, _, one⟩ | ⟨_, none, _⟩⟩ := step_queue queued plain stepped
        · omega
        · omega
      have before : (s.entered clients a).clients.issued = clients.issued := by cases a <;> rfl
      exact (inOrder (by omega)).step queued taken room
  exact always.mono fun s held room => (held.2 room).fifo

/-- The order on the P channel over a run with an interrupt and a release. -/
theorem fifo_release : Runs.Always (step .p) (fun s => s.clients.issued < 2 ^ 64 → Fifo s)
    (init : Ledger PBody) [.op 1 default, .op 2 default, .irq, .release 2] :=
  fifo .p (by simp) _

end Order

section Progress

/-- A record that stands at a position behind others is among them, filtered, at most as far behind. -/
theorem filter_position {γ : Type} (keep : γ → Bool) {xs : List γ} {i : Nat} {x : γ}
    (found : xs[i]? = some x) (kept : keep x = true) : ∃ j ≤ i, (xs.filter keep)[j]? = some x := by
  induction xs generalizing i with
  | nil => simp at found
  | cons y ys ih =>
    cases i with
    | zero =>
      simp only [List.getElem?_cons_zero, Option.some.injEq] at found
      subst found
      exact ⟨0, Nat.le_refl _, by simp [kept]⟩
    | succ i =>
      obtain ⟨j, before, there⟩ := ih (by simpa using found)
      by_cases first : keep y = true
      · exact ⟨j + 1, Nat.succ_le_succ before, by simpa [List.filter_cons, first] using there⟩
      · exact ⟨j, Nat.le_succ_of_le before, by simpa [List.filter_cons, first] using there⟩

/-- The steps in which the hardware reports a finished job. -/
def isIrq : ClientStep β → Bool
  | .irq => true
  | _ => false

/-- What tells a queued record from the others whether or not it runs. -/
def mark (exec : ExecInfo β) : Nat × Nat := (exec.id, exec.pid)

/-- A queue whose first job runs, on a channel without sessions. -/
structure Serving (s : Ledger β) : Prop where
  plain : s.Plain
  served : Served s.clients.chan s.clients.nextId

/-- A step keeps the first job running. -/
theorem Serving.step (queued : op ≠ .t) (serving : Serving s) (taken : step op s a = some t) :
    Serving t := by
  obtain ⟨plain, served⟩ := serving
  obtain ⟨clients, stepped, entered⟩ := step_eq_some.mp taken
  have same : t.clients = clients := by
    rw [← entered]
    cases a <;> rfl
  refine ⟨fun c member => step_plain queued plain stepped c (by rw [← same]; exact member), ?_⟩
  rw [same]
  obtain ⟨_, ⟨pid, body, chan, nextId, _⟩ | ⟨nextId, _, still | irq | ⟨pid, chan⟩ | work⟩⟩ :=
    step_queue queued plain stepped
  · rw [chan, nextId]
    exact served.enqueue rfl (by simp [Running, newExec])
  · rw [still, nextId]
    exact served
  · rw [irq, nextId]
    exact served.irqFinishJob
  · rw [chan, nextId]
    exact served.release pid
  · rw [work, nextId]
    exact served.jobDoneWork

/-- A step takes nothing back from the finished records. -/
theorem finished_grows (queued : op ≠ .t) (serving : Serving s) (taken : step op s a = some t) :
    s.finished <+: t.finished := by
  obtain ⟨_, _, _, same, _⟩ | ⟨_, completed, chan⟩ | ⟨_, _, same, _⟩ | ⟨_, same, _⟩ :=
    step_served queued serving.plain taken
  · exact same ▸ List.prefix_refl _
  · rcases irq_served serving.served.running completed chan with ⟨_, same, _⟩ | ⟨first, _, _, same, _⟩
    · exact same ▸ List.prefix_refl _
    · rw [same]
      exact List.prefix_append _ _
  · exact same ▸ List.prefix_refl _
  · exact same ▸ List.prefix_refl _

/-- An interrupt finishes the first job or finds an empty queue, and no other step holds a job back. -/
theorem step_position (queued : op ≠ .t) (serving : Serving s) (taken : step op s a = some t)
    {i : Nat} {key : Nat × Nat} (found : (s.clients.chan.jobList.map mark)[i]? = some key)
    (kept : a ≠ .release key.2) :
    key ∈ t.finished.map mark ∨
      ∃ j, (t.clients.chan.jobList.map mark)[j]? = some key ∧ j + [a].countP isIrq ≤ i := by
  obtain ⟨pid, body, rfl, _, chan, _⟩ | ⟨rfl, completed, chan⟩ | ⟨pid, rfl, _, chan⟩ |
    ⟨other, _, jobs, _⟩ := step_served queued serving.plain taken
  · -- The new job stands behind every other.
    have bound := (List.getElem?_eq_some_iff.mp found).1
    refine .inr ⟨i, ?_, Nat.le_refl _⟩
    rw [chan, enqueue_map _ _ fun _ _ => rfl, List.getElem?_append_left bound]
    exact found
  · rcases irq_served serving.served.running completed chan with ⟨empty, _⟩ |
      ⟨first, rest, listed, finished, chan⟩
    · simp [empty] at found
    · rw [listed] at found
      cases i with
      | zero =>
        simp only [List.map_cons, List.getElem?_cons_zero, Option.some.injEq] at found
        refine .inl ?_
        rw [finished, List.map_append, ← found]
        exact List.mem_append_right _ (List.mem_singleton_self _)
      | succ i =>
        refine .inr ⟨i, ?_, Nat.le_refl _⟩
        rw [chan, submitNext_map _ fun _ _ => rfl]
        simpa using found
  · -- The jobs of another process that go make room.
    rw [List.getElem?_map, Option.map_eq_some_iff] at found
    obtain ⟨exec, there, rfl⟩ := found
    have stays : decide (exec.pid ≠ pid) = true := by
      simp only [decide_eq_true_eq]
      intro same
      exact kept (congrArg _ same.symm)
    obtain ⟨j, before, still⟩ := filter_position (fun info => info.pid ≠ pid) there stays
    refine .inr ⟨j, ?_, before⟩
    rw [chan, release_map _ _ fun _ _ => rfl, List.getElem?_map, still]
    rfl
  · refine .inr ⟨i, by rw [jobs]; exact found, ?_⟩
    cases a with
    | irq => exact absurd rfl other
    | _ => exact Nat.le_refl _

/-- Nor does a run. -/
theorem finished_run (queued : op ≠ .t) {run : List (ClientStep β)} (serving : Serving s)
    (ran : Runs.exec (step op) s run = some t) : s.finished <+: t.finished := by
  induction run generalizing s with
  | nil =>
    cases ran
    exact List.prefix_refl _
  | cons a run ih =>
    obtain ⟨u, taken, rest⟩ := Runs.exec_cons.mp ran
    exact (finished_grows queued serving taken).trans (ih (serving.step queued taken) rest)

/-- A job is finished once as many interrupts have come as jobs stood before it, and one more. -/
theorem position_run (queued : op ≠ .t) {run : List (ClientStep β)} (serving : Serving s)
    (ran : Runs.exec (step op) s run = some t) {i : Nat} {key : Nat × Nat}
    (found : (s.clients.chan.jobList.map mark)[i]? = some key) (kept : .release key.2 ∉ run)
    (interrupts : i < run.countP isIrq) : key ∈ t.finished.map mark := by
  induction run generalizing s i with
  | nil => simp at interrupts
  | cons a run ih =>
    obtain ⟨u, taken, rest⟩ := Runs.exec_cons.mp ran
    have next := serving.step queued taken
    rw [List.mem_cons, not_or] at kept
    rcases step_position queued serving taken found (Ne.symm kept.1) with done | ⟨j, there, before⟩
    · exact List.map_subset _ (finished_run queued next rest).subset done
    · refine ih next rest there kept.2 ?_
      rw [← List.singleton_append, List.countP_append] at interrupts
      omega

/--
An F or P job waits for at most as many interrupts as there are jobs before it: whatever else happens
on the channel, once one interrupt more has come than jobs stood before it, it has been finished,
unless its process was released. Neither later submits nor releases of other processes delay it.
-/
theorem served_within (op : ChOp) (queued : op ≠ .t) (before run : List (ClientStep β))
    {s t : Ledger β} (reached : Runs.exec (step op) init before = some s)
    (ran : Runs.exec (step op) s run = some t) (i : Nat) {exec : ExecInfo β}
    (found : s.clients.chan.jobList[i]? = some exec) (kept : .release exec.pid ∉ run)
    (interrupts : i < run.countP isIrq) :
    ∃ done ∈ t.finished, done.id = exec.id ∧ done.pid = exec.pid := by
  have start : Serving (init : Ledger β) := ⟨Ordered.init.plain, Served.init⟩
  have serving : Serving s :=
    (Runs.always_of_preserved (fun _ _ _ => Serving.step queued) start).last reached
  have there : (s.clients.chan.jobList.map mark)[i]? = some (mark exec) := by
    rw [List.getElem?_map, found]
    rfl
  have member := position_run queued serving ran there kept interrupts
  obtain ⟨done, listed, same⟩ := List.mem_map.mp member
  exact ⟨done, listed, congrArg Prod.fst same, congrArg Prod.snd same⟩

/-- The second job is finished by the second interrupt, a release of the first process between them. -/
theorem served_within_second :
    ∃ t : Ledger FBody,
      Runs.exec (step .f) init [.op 1 default, .op 2 default, .irq, .release 1, .irq] = some t ∧
      ∃ done ∈ t.finished, done.id = 1 ∧ done.pid = 2 := by
  refine ⟨_, rfl, ?_⟩
  exact served_within .f (by simp) [.op 1 default, .op 2 default] [.irq, .release 1, .irq] rfl rfl 1
    rfl (by simp [newExec]) (by decide)

end Progress

end Aip.Ledger
