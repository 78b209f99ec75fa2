import Aip.Driver.Clients
import Aip.Driver.Lifetime

/-! The call `jz_aip_v20_submit`, from its argument to the job it queues. -/

namespace Aip

/-- The order, the alpha and the offsets of a conversion, `aip_v20_ioctl_offset_t`. -/
structure Offset where
  order : Nat
  alpha : Nat
  offset0 : Nat
  offset1 : Nat
  deriving DecidableEq, Repr

/-- The word of `AIP_V20_{P,T}_OFST`. -/
def Offset.word (dat : Offset) : Nat :=
  ((dat.order &&& 15) <<< 24) ||| ((dat.alpha &&& 255) <<< 16) ||| ((dat.offset1 &&& 255) <<< 8) |||
    (dat.offset0 &&& 255)

/-- `aip_v20_ioctl_submit_p_t` before its parameters are copied; the last two are addresses. -/
structure SubmitArgP where
  mode : Nat
  offset : Offset
  posIn : Nat
  posOut : Nat
  nodeHandle : Nat
  nodeNum : Nat
  paddr : Nat
  param : Nat
  name : Nat
  deriving DecidableEq, Repr

/-- The argument with the parameters copied. -/
def SubmitArgP.dat (arg : SubmitArgP) (param : Vector Nat 9) : SubmitP where
  posIn := arg.posIn
  posOut := arg.posOut
  nodeHandle := arg.nodeHandle
  nodeNum := arg.nodeNum
  paddr := arg.paddr
  param := param

/-- `aip_v20_ioctl_submit_t_t`; the last three are addresses. -/
structure SubmitArgT where
  offset : Offset
  posIn : Nat
  posOut : Nat
  param : Nat
  node : Nat
  name : Nat
  deriving DecidableEq, Repr

/-- The argument of a submit call, by its `op`. -/
inductive SubmitArg where
  | f (dat : SubmitF) (name : Nat)
  | p (dat : SubmitArgP)
  | t (dat : SubmitArgT)
  | tTask (dat : SubmitArgT)
  | other (op : Nat)
  deriving DecidableEq, Repr

/-- The memory of the calling process: words and strings, as far as they can be read. -/
structure UserMem where
  copyFromUser (addr count : Nat) : Option (Vector Nat count)
  strncpyFromUser (addr count : Nat) : Option (List Nat)

namespace UserMem

/-- The name at the address cannot be read; a null pointer is not read at all. -/
def NameFault (user : UserMem) (name : Nat) : Prop := name ≠ 0 ∧ user.strncpyFromUser name 7 = none

/-- `JZ_AIP_V20_SET_JOB_NAME`, which only logs that a name cannot be read. -/
def setJobName (user : UserMem) (name : Nat) : List Nat :=
  -- The name of a null pointer is `nul`.
  if name = 0 then [0x6e, 0x75, 0x6c] else (user.strncpyFromUser name 7).getD []

end UserMem

/-- The eight words of an `aip_v20_t_node_t`. -/
def TNode.ofWords (words : Vector Nat 8) : TNode where
  srcYbase := words[0]
  srcCbase := words[1]
  dstBase := words[2]
  srcH := words[3]
  srcW := words[4]
  srcStride := words[5]
  dstStride := words[6]
  taskLen := words[7]

/-- The unlocked part of `jz_aip_v20_t_op` and `jz_aip_v20_t_task_op`. -/
def tOpBody (dat : SubmitArgT) (param : Vector Nat 9) (node : TNode) : TBody where
  cfgReg := busCfg dat.posIn dat.posOut
  param := param
  offset := dat.offset.word
  node := node

/--
The three channels, the buffer objects, and the records of jobs that are allocated.

The names are those of the records handed to a channel, the latest first.
-/
structure Submitting where
  life : Lifetime
  t : Clients TBody
  records : Nat
  names : List (List Nat)

/-- What becomes of a call. -/
inductive Outcome where
  /-- The call returns, with the number that it puts into its argument. -/
  | returned (ret : Int) (seqno : Option Nat) (s : Submitting)
  /-- The call waits for `t_job_mutex`; it goes on as `Clients.step` says, and returns 0. -/
  | mutexWait (s : Submitting)
  /-- A null pointer was dereferenced. -/
  | oops

/-- One locked section of `jz_aip_v20_{f,p}_op`, right after its unlocked part. -/
def Submits.queue {β : Type} (s : Submits β) (pid : Nat) (body : β) : Submits β :=
  let exec := { id := s.nextId, pid := pid, state := .initial, seqno := 0, body := body }
  { s with chan := s.chan.enqueue exec, nextId := s.nextId + 1 }

/-- Queueing is what a call does that builds its job and is not interrupted then. -/
theorem Submits.queue_eq {β : Type} (s : Submits β) (pid : Nat) (body : β) :
    (s.resolve pid body).step (.enqueue s.calls.length) = some (s.queue pid body) := by
  -- The call that was appended is the one taken out again.
  simp only [Submits.resolve, Submits.step, List.getElem?_concat_length, Option.map_some,
    Submits.queue, Option.some.injEq, Submits.mk.injEq, true_and]
  rw [List.eraseIdx_append_of_length_le (Nat.le_refl _)]
  simp

namespace Submitting

/-- The device without clients. -/
def init : Submitting := { life := .init, t := .init, records := 0, names := [] }

/-- The record of a new job is allocated. -/
def kcalloc (s : Submitting) : Submitting := { s with records := s.records + 1 }

/-- `jz_aip_v20_{f,p,t}_complete_exec`. -/
def completeExec (s : Submitting) : Submitting := { s with records := s.records - 1 }

/-- The record gets its name. -/
def named (s : Submitting) (name : List Nat) : Submitting := { s with names := name :: s.names }

variable (s : Submitting) (user : UserMem) (kcalloc : Bool) (pid : Nat)

/-- `jz_aip_v20_f_op`; whether `kcalloc` finds memory is given. -/
def fOp (dat : SubmitF) (name : Nat) : Outcome :=
  if kcalloc then
    match s.life.bo.handles.find dat.nodeHandle with
    | none => .returned (-14) s.life.f.chan.submitedSeqno s.kcalloc.completeExec
    | some bo =>
      let f := s.life.f.queue pid (fOpBody dat bo.ref bo.dma)
      .returned 0 f.chan.submitedSeqno
        { s.kcalloc.named (user.setJobName name) with life := { s.life with f := f } }
  else .returned (-14) s.life.f.chan.submitedSeqno s

/-- `jz_aip_v20_p_op`. -/
def pOp (dat : SubmitArgP) : Outcome :=
  if kcalloc then
    match user.copyFromUser dat.param 9 with
    -- The record is left behind.
    | none => .returned (-14) s.life.p.chan.submitedSeqno s.kcalloc
    | some param =>
      match s.life.bo.handles.find dat.nodeHandle with
      -- No pointer is below zero, so `exec->node < 0` fails and `exec->node->dma` is read.
      | none => .oops
      | some bo =>
        let p := s.life.p.queue pid (pOpBody (dat.dat param) bo.ref bo.dma)
        .returned 0 p.chan.submitedSeqno
          { s.kcalloc.named (user.setJobName dat.name) with life := { s.life with p := p } }
  else .returned (-14) s.life.p.chan.submitedSeqno s

/-- The part that `jz_aip_v20_t_op` and `jz_aip_v20_t_task_op` have in common. -/
def buildT (dat : SubmitArgT) (start : Submitting → TBody → Outcome) : Outcome :=
  if kcalloc then
    match user.copyFromUser dat.param 9 with
    | none => .returned (-14) s.t.chan.submitedSeqno s.kcalloc.completeExec
    | some param =>
      match user.copyFromUser dat.node 8 with
      | none => .returned (-14) s.t.chan.submitedSeqno s.kcalloc.completeExec
      | some node =>
        start (s.kcalloc.named (user.setJobName dat.name)) (tOpBody dat param (.ofWords node))
  else .returned (-14) s.t.chan.submitedSeqno s

/-- `jz_aip_v20_t_op`. -/
def tOp (dat : SubmitArgT) : Outcome :=
  s.buildT user kcalloc dat fun s body =>
    -- The step is always enabled.
    let t := (Clients.step .t s.t (.op pid body)).getD s.t
    .returned 0 t.chan.submitedSeqno { s with t := t }

/-- `jz_aip_v20_t_task_op`, up to `mutex_lock(&aip->t_job_mutex)`. -/
def tTaskOp (dat : SubmitArgT) : Outcome :=
  s.buildT user kcalloc dat fun s body =>
    .mutexWait { s with t := (Clients.step .t s.t (.taskOp pid body)).getD s.t }

/-- `jz_aip_v20_submit`. -/
def submit : SubmitArg → Outcome
  | .f dat name => s.fOp user kcalloc pid dat name
  | .p dat => s.pOp user kcalloc pid dat
  | .t dat => s.tOp user kcalloc pid dat
  | .tTask dat => s.tTaskOp user kcalloc pid dat
  -- An op that is not known is only logged.
  | .other _ => .returned 0 none s

/-- The handle is not registered, or something that the call copies cannot be read. -/
def Faulty : SubmitArg → Prop
  | .f dat name => s.life.bo.handles.find dat.nodeHandle = none ∨ user.NameFault name
  | .p dat =>
    s.life.bo.handles.find dat.nodeHandle = none ∨ user.copyFromUser dat.param 9 = none ∨
      user.NameFault dat.name
  | .t dat | .tTask dat =>
    user.copyFromUser dat.param 9 = none ∨ user.copyFromUser dat.node 8 = none ∨
      user.NameFault dat.name
  | .other _ => False

/-- The call fails, and the lists, the counters, the mutex, the registers and the records are as before. -/
def NoTrace (out : Outcome) : Prop := ∃ ret seqno, ret < 0 ∧ out = .returned ret seqno s

/-- A faulty call leaves no trace. -/
def FailsCleanly (arg : SubmitArg) : Prop :=
  s.Faulty user arg → s.NoTrace (s.submit user kcalloc pid arg)

/-- No fault of the call is one that its op passes over. -/
def Noticed : SubmitArg → Prop
  -- A name that cannot be read is noticed only together with another fault.
  | .f dat name =>
    kcalloc = true → user.NameFault name → s.life.bo.handles.find dat.nodeHandle = none
  | .p dat => kcalloc = true → ¬ s.Faulty user (.p dat)
  | .t dat | .tTask dat =>
    kcalloc = true → user.NameFault dat.name →
      user.copyFromUser dat.param 9 = none ∨ user.copyFromUser dat.node 8 = none
  | .other _ => True

variable {s user kcalloc pid}

/-- A record that is allocated and freed again leaves the device as it was. -/
@[simp] theorem completeExec_kcalloc (s : Submitting) : s.kcalloc.completeExec = s := rfl

/-- A call that returns zero has left a trace. -/
theorem not_noTrace_zero {seqno : Option Nat} {t : Submitting} :
    ¬ s.NoTrace (.returned 0 seqno t) := by
  rintro ⟨ret, number, negative, same⟩
  injection same with zero
  omega

/-- So has a call that keeps its record. -/
theorem not_noTrace_kcalloc {ret : Int} {seqno : Option Nat} :
    ¬ s.NoTrace (.returned ret seqno s.kcalloc) := by
  rintro ⟨_, number, negative, same⟩
  injection same with _ _ kept
  -- The count of the records is one higher.
  have more : s.records + 1 = s.records := congrArg Submitting.records kept
  omega

/-- A call that returns an error to an unchanged device has left none. -/
theorem noTrace_fault {seqno : Option Nat} : s.NoTrace (.returned (-14) seqno s) :=
  ⟨_, _, by decide, rfl⟩

/-- An F call fails exactly when there is no memory or no buffer. -/
theorem noTrace_fOp {dat : SubmitF} {name : Nat} :
    s.NoTrace (s.fOp user kcalloc pid dat name) ↔
      kcalloc = false ∨ s.life.bo.handles.find dat.nodeHandle = none := by
  -- The call returns at the allocation or at the lookup, and else it queues the job.
  cases kcalloc with
  | false => simp [fOp, noTrace_fault]
  | true =>
    cases found : s.life.bo.handles.find dat.nodeHandle with
    | none => simp [fOp, found, noTrace_fault]
    | some bo => simp [fOp, found, not_noTrace_zero]

/-- A P call fails cleanly only when there is no memory. -/
theorem noTrace_pOp {dat : SubmitArgP} :
    s.NoTrace (s.pOp user kcalloc pid dat) ↔ kcalloc = false := by
  -- Of the three ways on, one keeps the record, one never returns, and one queues the job.
  cases kcalloc with
  | false => simp [pOp, noTrace_fault]
  | true =>
    cases copied : user.copyFromUser dat.param 9 with
    | none => simp [pOp, copied, not_noTrace_kcalloc]
    | some param =>
      cases found : s.life.bo.handles.find dat.nodeHandle with
      | none => simp [pOp, copied, found, NoTrace]
      | some bo => simp [pOp, copied, found, not_noTrace_zero]

/-- A T call fails exactly when there is no memory or one of the two copies fails. -/
theorem noTrace_buildT {dat : SubmitArgT} {start : Submitting → TBody → Outcome}
    (started : ∀ t body, ¬ s.NoTrace (start t body)) :
    s.NoTrace (s.buildT user kcalloc dat start) ↔
      kcalloc = false ∨ user.copyFromUser dat.param 9 = none ∨
        user.copyFromUser dat.node 8 = none := by
  -- Both copies free the record when they fail.
  cases kcalloc with
  | false => simp [buildT, noTrace_fault]
  | true =>
    cases param : user.copyFromUser dat.param 9 with
    | none => simp [buildT, param, noTrace_fault]
    | some words =>
      cases node : user.copyFromUser dat.node 8 with
      | none => simp [buildT, param, node, noTrace_fault]
      | some image => simp [buildT, param, node, started]

/-- Either kind of T call does. -/
theorem noTrace_tOp {dat : SubmitArgT} :
    s.NoTrace (s.tOp user kcalloc pid dat) ↔
      kcalloc = false ∨ user.copyFromUser dat.param 9 = none ∨
        user.copyFromUser dat.node 8 = none :=
  noTrace_buildT fun _ _ => not_noTrace_zero

theorem noTrace_tTaskOp {dat : SubmitArgT} :
    s.NoTrace (s.tTaskOp user kcalloc pid dat) ↔
      kcalloc = false ∨ user.copyFromUser dat.param 9 = none ∨
        user.copyFromUser dat.node 8 = none :=
  noTrace_buildT fun _ _ => by rintro ⟨_, _, _, same⟩; cases same

/-- A faulty call leaves no trace exactly when its op does not pass over the fault. -/
theorem failsCleanly_iff (s : Submitting) (user : UserMem) (kcalloc : Bool) (pid : Nat)
    (arg : SubmitArg) :
    s.FailsCleanly user kcalloc pid arg ↔ s.Noticed user kcalloc arg := by
  cases arg with
  | f dat name =>
    -- A missing buffer is reported, so only the name is left.
    simp only [FailsCleanly, submit, noTrace_fOp, Faulty, Noticed]
    cases kcalloc with
    | false => simp
    | true =>
      simp only [Bool.true_eq_false, false_or, forall_const]
      tauto
  | p dat =>
    -- With memory the call cannot fail cleanly, so it must not be faulty.
    simp only [FailsCleanly, submit, noTrace_pOp, Noticed]
    cases kcalloc with
    | false => simp
    | true => simp only [Bool.true_eq_false, imp_false, forall_const]
  | t dat =>
    simp only [FailsCleanly, submit, noTrace_tOp, Faulty, Noticed]
    cases kcalloc with
    | false => simp
    | true =>
      simp only [Bool.true_eq_false, false_or, forall_const]
      tauto
  | tTask dat =>
    simp only [FailsCleanly, submit, noTrace_tTaskOp, Faulty, Noticed]
    cases kcalloc with
    | false => simp
    | true =>
      simp only [Bool.true_eq_false, false_or, forall_const]
      tauto
  | other op => simp [FailsCleanly, Faulty, Noticed]

/-- The parameters of a P call cannot be read, and the call keeps the record it has allocated. -/
theorem not_failsCleanly_param : ¬ ∀ (s : Submitting) (user : UserMem) (kcalloc : Bool) (pid : Nat)
    (arg : SubmitArg), s.FailsCleanly user kcalloc pid arg := by
  -- Nothing can be read from the process.
  intro every
  let user : UserMem := ⟨fun _ _ => none, fun _ _ => none⟩
  let dat : SubmitArgP := ⟨0, ⟨0, 0, 0, 0⟩, 0, 0, 1, 1, 0, 0x1000, 0⟩
  have clean := every init user true 1 (.p dat) (.inr (.inl rfl))
  exact not_noTrace_kcalloc clean

end Submitting

end Aip
