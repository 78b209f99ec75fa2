import Mathlib.Algebra.Order.Ring.Int
import Mathlib.Algebra.Order.Ring.Nat
import Mathlib.Data.List.Basic

/-! The job queue of one AIP channel, edited under the channel's spinlock. -/

namespace Aip

/-- The states of a job, `enum jz_aip_v20_job_state`. -/
inductive JobState where
  | initial
  | running
  | finish
  deriving DecidableEq, Repr

/--
One queued job: the fields that `struct jz_aip_v20_{f,p,t}_exec_info` share.

The identity stands for the address of the record, so two jobs alive at once never share it.
The body holds the fields that differ between the channels.
-/
structure ExecInfo (β : Type) where
  id : Nat
  pid : Nat
  state : JobState
  seqno : Nat
  body : β
  deriving DecidableEq, Repr

/--
The fields of `struct jz_aip_v20_dev` that belong to one channel.

The last field records the jobs whose registers were written, the latest first.
-/
structure Channel (β : Type) where
  submitedSeqno : Nat
  finishedSeqno : Nat
  jobList : List (ExecInfo β)
  jobDoneList : List (ExecInfo β)
  programmed : List (ExecInfo β)
  deriving DecidableEq, Repr

namespace Channel

variable {β : Type}

/-- The channel as `jz_aip_v20_core_init` leaves it. -/
def init : Channel β :=
  { submitedSeqno := 0, finishedSeqno := 0, jobList := [], jobDoneList := [], programmed := [] }

/-- The first job of the list, `jz_aip_v20_first_{f,p,t}_job`. -/
def firstJob (ch : Channel β) : Option (ExecInfo β) := ch.jobList.head?

/-- The step of a `uint64_t` sequence counter. -/
def nextSeqno (seqno : Nat) : Nat := (seqno + 1) % 2 ^ 64

/-- Program the first job into the hardware, `jz_aip_v20_submit_next_{f,p,t}_job`. -/
def submitNext (ch : Channel β) : Channel β :=
  match ch.jobList with
  -- An empty list leaves the registers alone.
  | [] => ch
  | exec :: rest =>
    { ch with
      programmed := exec :: ch.programmed
      jobList := { exec with state := .running } :: rest }

/-- The locked section of `jz_aip_v20_{f,p,t}_op`: number the job, queue it, start it if it is first. -/
def enqueue (ch : Channel β) (exec : ExecInfo β) : Channel β :=
  let seqno := nextSeqno ch.submitedSeqno
  let exec := { exec with seqno := seqno }
  let ch := { ch with submitedSeqno := seqno, jobList := ch.jobList ++ [exec] }
  -- The source compares the record's address with that of the first job.
  if ch.firstJob.map (·.id) = some exec.id then ch.submitNext else ch

/-- Completion of the running F or P job, `jz_aip_v20_{f,p}_irq_finish_job`. -/
def irqFinishJob (ch : Channel β) : Channel β :=
  match ch.jobList with
  | [] => ch
  | exec :: rest =>
    -- A first job that is not running was never started, so it is started now.
    if exec.state ≠ .running then ch.submitNext
    else
      submitNext { ch with
        finishedSeqno := exec.seqno
        jobList := rest
        jobDoneList := ch.jobDoneList ++ [exec] }

/-- Completion of the first T job, `jz_aip_v20_t_irq_finish_job`, which does not look at its state. -/
def tIrqFinishJob (ch : Channel β) : Channel β :=
  match ch.jobList with
  | [] => ch
  | exec :: rest =>
    submitNext { ch with
      finishedSeqno := exec.seqno
      jobList := rest
      jobDoneList := ch.jobDoneList ++ [exec] }

/-- Removal of every job of a process, `jz_aip_v20_{f,p,t}_release`. -/
def release (ch : Channel β) (pid : Nat) : Channel β :=
  -- `re_submit` is set by any removed job that was running.
  let reSubmit := ch.jobList.any fun info => info.pid = pid ∧ info.state = .running
  let ch := { ch with jobList := ch.jobList.filter fun info => info.pid ≠ pid }
  if reSubmit then ch.submitNext else ch

/-- One turn of `jz_aip_v20_{f,p,t}_job_handle_completed`: the first finished job is freed. -/
def jobDoneWork (ch : Channel β) : Channel β :=
  { ch with jobDoneList := ch.jobDoneList.tail }

/-- A field of a job that does not change when the job is started. -/
def Stateless {γ : Type} (key : ExecInfo β → γ) : Prop :=
  ∀ (info : ExecInfo β) (state : JobState), key { info with state := state } = key info

/-- Starting the first job changes neither which jobs are queued nor their order. -/
theorem submitNext_map {γ : Type} (ch : Channel β) {key : ExecInfo β → γ} (same : Stateless key) :
    ch.submitNext.jobList.map key = ch.jobList.map key := by
  cases listed : ch.jobList with
  | nil => simp [submitNext, listed]
  | cons exec rest => simp [submitNext, listed, same exec .running]

@[simp] theorem submitNext_seqnos (ch : Channel β) :
    ch.submitNext.jobList.map (·.seqno) = ch.jobList.map (·.seqno) :=
  submitNext_map ch fun _ _ => rfl

@[simp] theorem submitNext_done (ch : Channel β) : ch.submitNext.jobDoneList = ch.jobDoneList := by
  cases listed : ch.jobList <;> simp [submitNext, listed]

@[simp] theorem submitNext_submited (ch : Channel β) :
    ch.submitNext.submitedSeqno = ch.submitedSeqno := by
  cases listed : ch.jobList <;> simp [submitNext, listed]

@[simp] theorem submitNext_finished (ch : Channel β) :
    ch.submitNext.finishedSeqno = ch.finishedSeqno := by
  cases listed : ch.jobList <;> simp [submitNext, listed]

end Channel

end Aip
