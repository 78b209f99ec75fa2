import Mathlib.Data.List.Perm.Basic
import Aip.Driver.QueueOrder
import Aip.Lib.Slots

/-! Where the records of the jobs are: in a call, on a list or freed, over whole runs of a channel. -/

namespace Aip

/-- The phases of a session call before its record goes on the list. -/
def SubmitPhase.outside : SubmitPhase → Bool
  | .mutexWait | .polling | .adding => true
  | .starting | .returned => false

/-- A session call whose record is not on the list yet. -/
def SubmitCall.outside {β : Type} (c : SubmitCall β) : Bool := c.phase.outside

/--
A channel with its clients and, as history, the records that were freed, in the order of their `kfree`.

The three lists tell apart `*_job_handle_completed`, `*_release` and the end of a session.
-/
structure Ledger (β : Type) where
  clients : Clients β
  completed : List (ExecInfo β)
  withdrawn : List (ExecInfo β)
  closed : List (ExecInfo β)

namespace Ledger

open Channel Clients

variable {β : Type} {op : ChOp} {s t : Ledger β} {a : ClientStep β}

/-- A fresh channel, on which nothing has been freed. -/
def init : Ledger β := { clients := Clients.init, completed := [], withdrawn := [], closed := [] }

/-- What a step frees is written down where it belongs. -/
def entered (s : Ledger β) (clients : Clients β) : ClientStep β → Ledger β
  | .jobDoneWork =>
    { s with
      clients := clients
      completed := s.completed ++ s.clients.chan.jobDoneList.head?.toList }
  | .release pid =>
    { s with
      clients := clients
      withdrawn := s.withdrawn ++ s.clients.chan.jobList.filter fun info => info.pid = pid }
  | .waitTask _ =>
    { s with clients := clients, closed := s.closed ++ s.clients.chan.jobList.head?.toList }
  | _ => { s with clients := clients }

/-- One step on a channel, with the records that it frees. -/
def step (op : ChOp) (s : Ledger β) (a : ClientStep β) : Option (Ledger β) :=
  (Clients.step op s.clients a).map fun clients => s.entered clients a

/-- The finished records, in the order in which they finished. -/
def finished (s : Ledger β) : List (ExecInfo β) := s.completed ++ s.clients.chan.jobDoneList

/-- The records that are on a list or were on one. -/
def listed (s : Ledger β) : List (ExecInfo β) :=
  s.clients.chan.jobList ++ s.finished ++ (s.withdrawn ++ s.closed)

/-- The number of places at which a record is found. -/
def places (s : Ledger β) (id : Nat) : Nat :=
  s.clients.calls.countP (fun c => c.outside && c.exec.id == id) + (s.listed.map (·.id)).count id

/-- A step of the ledger is one of the clients. -/
theorem step_eq_some : step op s a = some t ↔
    ∃ clients, Clients.step op s.clients a = some clients ∧ s.entered clients a = t := by
  rw [step, Option.map_eq_some_iff]

section Accounts

variable {ch : Channel β}

/-- The places that identities from `n` to `m` are given. -/
def fresh (n m id : Nat) : Nat := if n ≤ id ∧ id < m then 1 else 0

end Accounts

end Ledger

end Aip
