import Aip.Driver.Channel
import Aip.Lib.Runs

/-! One channel and the client calls in progress on it, one locked section or unlocked read a step. -/

namespace Aip

/-- The channels a client can submit to and wait on, `aip_v20_ioctl_ch_op_t` without the session op. -/
inductive ChOp where
  | p
  | t
  | f
  deriving DecidableEq, Repr

/-- How far a call of `jz_aip_v20_submit` has come. -/
inductive SubmitPhase where
  /-- In `mutex_lock(&aip->t_job_mutex)`. -/
  | mutexWait
  /-- Numbered, in the loop that waits for `t_job_list` to become empty. -/
  | polling
  /-- Out of that loop, before `list_add_tail`. -/
  | adding
  /-- On the list, the registers being written. -/
  | starting
  /-- The job is queued and `*_submited_seqno` has not been read yet. -/
  | returned
  deriving DecidableEq, Repr

/-- A submit call in progress; the ticket counts the calls numbered on the channel up to this one. -/
structure SubmitCall (β : Type) where
  exec : ExecInfo β
  ticket : Nat
  phase : SubmitPhase
  deriving DecidableEq, Repr

/-- A submit call that has returned 0: its job, the number the job has, and the number it reported. -/
structure Report where
  id : Nat
  seqno : Nat
  reported : Nat
  deriving DecidableEq, Repr

/-- How far a call of `jz_aip_v20_wait_for_seqno` has come. -/
inductive WaitPhase where
  /-- `submited_seqno` has been read. -/
  | entered (submited : Nat)
  /-- In the `for (;;)` loop. -/
  | looping
  | returned (ret : Int)
  deriving DecidableEq, Repr

/-- A wait for the number that a submit reported, with the job of that submit. -/
structure WaitCall where
  id : Nat
  seqno : Nat
  timeoutNs : Nat
  phase : WaitPhase
  deriving DecidableEq, Repr

/--
One channel of the device and what its clients are doing.

The issued count, the tickets and the session list are history that the driver does not keep.
-/
structure Clients (β : Type) where
  chan : Channel β
  tJobMutex : Bool
  nextId : Nat
  issued : Nat
  taskIds : List Nat
  calls : List (SubmitCall β)
  reports : List Report
  waits : List WaitCall
  deriving DecidableEq, Repr

/-- The steps of the clients, of the interrupt and of the work queue. -/
inductive ClientStep (β : Type) where
  | op (pid : Nat) (body : β)
  | taskOp (pid : Nat) (body : β)
  | taskLock (call : Nat)
  | taskPoll (call : Nat)
  | taskAdd (call : Nat)
  | taskStart (call : Nat)
  | report (call : Nat)
  | irq
  | release (pid : Nat)
  | jobDoneWork
  | wait (report timeoutNs : Nat)
  | waitCheck (wait : Nat)
  | waitTurn (wait : Nat) (signal expired : Bool)
  | waitTask (pid : Nat)
  deriving DecidableEq, Repr

namespace Channel

variable {β : Type}

/-- The locked call that an interrupt makes on a channel, `jz_aip_v20_{f,p,t}_irq_finish_job`. -/
def finishJob (op : ChOp) (ch : Channel β) : Channel β :=
  match op with
  | .t => ch.tIrqFinishJob
  | .f | .p => ch.irqFinishJob

/-- The increment of `t_submited_seqno` in `jz_aip_v20_t_task_op`. -/
def taskSeqno (ch : Channel β) : Channel β :=
  { ch with submitedSeqno := nextSeqno ch.submitedSeqno }

/-- The `list_add_tail` of `jz_aip_v20_t_task_op`. -/
def taskAdd (ch : Channel β) (exec : ExecInfo β) : Channel β :=
  { ch with jobList := ch.jobList ++ [exec] }

/-- The rest of `jz_aip_v20_t_task_op`: the registers are written and the record says so. -/
def taskStart (ch : Channel β) (exec : ExecInfo β) : Channel β :=
  { ch with
    programmed := exec :: ch.programmed
    -- A record that was freed meanwhile is written to all the same, which no list shows.
    jobList := ch.jobList.map fun info =>
      if info.id = exec.id then { info with state := .running } else info }

end Channel

namespace Clients

variable {β : Type}

/-- The device after `jz_aip_v20_core_init`, without clients. -/
def init : Clients β :=
  { chan := Channel.init, tJobMutex := false, nextId := 0, issued := 0, taskIds := [], calls := [],
    reports := [], waits := [] }

/-- The record a submit call allocates. -/
def newExec (s : Clients β) (pid : Nat) (body : β) : ExecInfo β :=
  { id := s.nextId, pid := pid, state := .initial, seqno := 0, body := body }

/-- A call in the given phase goes on. -/
def withCall (s : Clients β) (call : Nat) (phase : SubmitPhase)
    (next : SubmitCall β → Option (Clients β)) : Option (Clients β) :=
  match s.calls[call]? with
  | some c => if c.phase = phase then next c else none
  | none => none

/-- A call enters another phase. -/
def setPhase (s : Clients β) (call : Nat) (c : SubmitCall β) (phase : SubmitPhase) : Clients β :=
  { s with calls := s.calls.set call { c with phase := phase } }

/-- The part of `jz_aip_v20_wait_for_seqno` before its loop, given `*_finished_seqno`. -/
def checkWait (w : WaitCall) (submited finished : Nat) : WaitPhase :=
  if w.seqno > submited then .returned (-1)
  else if finished ≥ w.seqno then .returned 0
  -- `-ETIME`
  else if w.timeoutNs = 0 then .returned (-62)
  else .looping

/-- One turn of the loop of `jz_aip_v20_wait_for_seqno`, given `*_finished_seqno`. -/
def turnWait (w : WaitCall) (finished : Nat) (signal expired : Bool) : WaitPhase :=
  -- `-ERESTARTSYS`
  if signal then .returned (-512)
  else if finished ≥ w.seqno then .returned 0
  else if w.timeoutNs ≠ 2 ^ 64 - 1 ∧ expired then .returned (-62)
  else .looping

/-- One step on a channel; a step that is not enabled has no result. -/
def step (op : ChOp) (s : Clients β) : ClientStep β → Option (Clients β)
  -- The locked section of `jz_aip_v20_{f,p,t}_op`, whose callers have built the job before.
  | .op pid body =>
    let exec := s.newExec pid body
    let numbered := { exec with seqno := Channel.nextSeqno s.chan.submitedSeqno }
    some { s with
      chan := s.chan.enqueue exec
      nextId := s.nextId + 1
      issued := s.issued + 1
      calls := s.calls ++ [{ exec := numbered, ticket := s.issued + 1, phase := .returned }] }
  | .taskOp pid body =>
    if op = .t then
      some { s with
        nextId := s.nextId + 1
        taskIds := s.nextId :: s.taskIds
        calls := s.calls ++ [{ exec := s.newExec pid body, ticket := 0, phase := .mutexWait }] }
    else none
  | .taskLock call =>
    s.withCall call .mutexWait fun c =>
      if s.tJobMutex then none
      else
        let chan := s.chan.taskSeqno
        let numbered := { c.exec with seqno := chan.submitedSeqno }
        some { s with
          chan := chan
          tJobMutex := true
          issued := s.issued + 1
          calls := s.calls.set call { exec := numbered, ticket := s.issued + 1, phase := .polling } }
  | .taskPoll call =>
    s.withCall call .polling fun c =>
      if s.chan.jobList.isEmpty then some (s.setPhase call c .adding) else none
  | .taskAdd call =>
    s.withCall call .adding fun c =>
      some { s.setPhase call c .starting with chan := s.chan.taskAdd c.exec }
  | .taskStart call =>
    s.withCall call .starting fun c =>
      some { s.setPhase call c .returned with chan := s.chan.taskStart c.exec }
  -- `dat->seqno = aip->*_submited_seqno`, read without the lock.
  | .report call =>
    s.withCall call .returned fun c =>
      some { s with
        calls := s.calls.eraseIdx call
        reports := s.reports ++ [⟨c.exec.id, c.exec.seqno, s.chan.submitedSeqno⟩] }
  | .irq => some { s with chan := s.chan.finishJob op }
  | .release pid => some { s with chan := s.chan.release pid }
  | .jobDoneWork => some { s with chan := s.chan.jobDoneWork }
  | .wait report timeoutNs =>
    (s.reports[report]?).map fun r =>
      { s with waits := s.waits ++ [⟨r.id, r.reported, timeoutNs, .entered s.chan.submitedSeqno⟩] }
  | .waitCheck wait =>
    match s.waits[wait]? with
    | some w =>
      match w.phase with
      | .entered submited =>
        let phase := checkWait w submited s.chan.finishedSeqno
        some { s with waits := s.waits.set wait { w with phase := phase } }
      | _ => none
    | none => none
  | .waitTurn wait signal expired =>
    match s.waits[wait]? with
    | some w =>
      if w.phase = .looping then
        let phase := turnWait w s.chan.finishedSeqno signal expired
        some { s with waits := s.waits.set wait { w with phase := phase } }
      else none
    | none => none
  -- `jz_aip_v20_wait` on a session takes the first job off the list, whoever queued it.
  | .waitTask _ =>
    if op = .t then
      match s.chan.jobList with
      -- The source dereferences the missing first job.
      | [] => none
      | _ :: rest => some { s with chan := { s.chan with jobList := rest }, tJobMutex := false }
    else none

end Clients

end Aip
