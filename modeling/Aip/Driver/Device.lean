import Aip.Driver.Clients
import Aip.Driver.Lifetime
import Aip.Driver.NnaLock

/-! The device with its open files, `jz_aip_v20_drv.c`, put together from its parts. -/

namespace Aip

/-- The processes that have an open file: one entry for each descriptor and each call on it. -/
abbrev OpenFile := List Task

/--
The fields of `struct jz_aip_v20_dev` that outlive a call, and the open files of the device.

The flag `bug` records that `BUG()` was reached, in a thread that holds `struct_mutex`.
-/
structure Device where
  isOk : Bool
  ref : Nat
  files : List OpenFile
  life : Lifetime
  t : Clients TBody
  nna : NnaClients
  oram : OramTable
  bug : Bool

/-- The steps of the processes and of the hardware; the answers of the kernel are given. -/
inductive DeviceStep where
  | open (task : Task)
  | share (file : Nat) (task heir : Task)
  | close (file : Nat) (task : Task)
  | life (a : LifetimeStep)
  | t (a : ClientStep TBody)
  | nna (a : NnaStep)
  | oramAlloc (pid size kvaddr id : Nat)
  | oramFree (pid handle : Nat)
  deriving DecidableEq, Repr

namespace Lifetime

/-- `jz_aip_v20_f_release`, `jz_aip_v20_p_release` and `jz_aip_v20_bo_release`. -/
def release (life : Lifetime) (pid : Nat) : Lifetime where
  f := { life.f with chan := life.f.chan.release pid }
  p := { life.p with chan := life.p.chan.release pid }
  bo := life.bo.release pid

/-- The processes with a submit call in progress on the F or P channel. -/
def callers (life : Lifetime) : List Nat := life.f.calls.map Prod.fst ++ life.p.calls.map Prod.fst

end Lifetime

namespace Device

/-- The device after its probe, not opened yet. -/
def init : Device :=
  { isOk := false, ref := 0, files := [], life := .init, t := .init, nna := .init, oram := .empty,
    bug := false }

/-- The files that stay open when a process gives up one descriptor. -/
def drop (files : List OpenFile) (file : Nat) (task : Task) : List OpenFile :=
  match files[file]? with
  | none => files
  | some holders =>
    if holders = [task] then files.eraseIdx file else files.set file (holders.erase task)

/-- A process numbered so has one of the files open. -/
def Reaches (files : List OpenFile) (pid : Nat) : Prop :=
  ∃ holders ∈ files, ∃ task ∈ holders, task.vnr = pid

instance (files : List OpenFile) (pid : Nat) : Decidable (Reaches files pid) :=
  inferInstanceAs (Decidable (∃ holders ∈ files, ∃ task ∈ holders, task.vnr = pid))

/-- The processes with a call in progress. -/
def callers (s : Device) : List Nat :=
  s.life.callers ++ s.t.calls.map (·.exec.pid) ++ s.nna.calls.map (·.pid)

/-- The test of `jz_aip_v20_close`: nothing is left on the device. -/
def Idle (s : Device) : Prop :=
  s.life.f.chan.jobList = [] ∧ s.t.chan.jobList = [] ∧ s.life.p.chan.jobList = [] ∧
  s.life.bo.handles.isEmpty ∧ s.oram.isEmpty ∧ s.nna.nna.nnaMutex = none

instance (s : Device) : Decidable s.Idle :=
  inferInstanceAs (Decidable (_ ∧ _ ∧ _ ∧ _ ∧ _ ∧ _))

/-- `kref_put_mutex` with `jz_aip_v20_close`; `BUG()` does not return to clear `is_ok`. -/
def put (s : Device) : Device :=
  if s.ref = 1 then
    if s.Idle then { s with ref := 0, isOk := false } else { s with ref := 0, bug := true }
  else { s with ref := s.ref - 1 }

/-- `jz_aip_v20_release`, called for the last descriptor of a file. -/
def release (s : Device) (pid : Nat) : Device :=
  let s := { s with
    life := s.life.release pid
    t := { s.t with chan := s.t.chan.release pid } }
  match NnaClients.step s.nna (.release pid) with
  -- The thread spins on `nna_job_lock` and never gives its reference back.
  | none => s
  | some nna => put { s with nna := nna, oram := s.oram.release pid }

/--
The step can be taken by somebody.

A call is begun by a process that has the device open, and goes on by itself; the release functions
are only called by `jz_aip_v20_release`.
-/
def mayStep (s : Device) : DeviceStep → Bool
  | .life (.boAppend task _ _ _) => s.files.any fun holders => task ∈ holders
  | .life (.boDestroy _) => !s.files.isEmpty
  | .life (.fOp pid _) | .life (.pOp pid _) => Reaches s.files pid
  | .life (.boRelease _) | .life (.f (.release _)) | .life (.p (.release _)) => false
  | .life (.f _) | .life (.p _) => true
  | .t (.op pid _) | .t (.taskOp pid _) | .t (.waitTask pid) => Reaches s.files pid
  | .t (.wait _ _) => !s.files.isEmpty
  | .t (.release _) => false
  | .t _ => true
  | .nna (.lock pid) | .nna (.trylock pid) | .nna (.unlock pid _) => Reaches s.files pid
  | .nna (.ctxLock pid) | .nna (.ctxUnlock pid) => Reaches s.files pid
  | .nna (.release _) => false
  | .nna _ => true
  | .oramAlloc pid _ _ _ | .oramFree pid _ => Reaches s.files pid
  -- A thread that reached `BUG()` holds `struct_mutex`.
  | .open _ => !s.bug
  | .share file task _ => (s.files[file]?).any fun holders => task ∈ holders
  -- A call in progress keeps its file open.
  | .close file task =>
    ((s.files[file]?).any fun holders => task ∈ holders) &&
      s.callers.all fun pid => Reaches (drop s.files file task) pid

/-- What a step does once it is taken. -/
def effect (s : Device) : DeviceStep → Option Device
  | .open task =>
    -- `kref_init` when the device was not open, and `kref_get` otherwise.
    some { s with
      isOk := true
      ref := if s.isOk then s.ref + 1 else 1
      files := s.files ++ [[task]] }
  | .share file _ heir => some { s with files := s.files.modify file (heir :: ·) }
  | .close file task =>
    let closed := { s with files := drop s.files file task }
    some (if s.files[file]? = some [task] then closed.release task.vnr else closed)
  | .life a => (Lifetime.step s.life a).map fun life => { s with life := life }
  | .t a => (Clients.step .t s.t a).map fun t => { s with t := t }
  | .nna a => (NnaClients.step s.nna a).map fun nna => { s with nna := nna }
  | .oramAlloc pid size kvaddr id =>
    (s.oram.oramAlloc pid size kvaddr id).map fun oram => { s with oram := oram }
  | .oramFree _ handle => some { s with oram := s.oram.oramFree handle }

/-- One step of the device. -/
def step (s : Device) (a : DeviceStep) : Option Device :=
  if s.mayStep a then s.effect a else none

end Device

end Aip
