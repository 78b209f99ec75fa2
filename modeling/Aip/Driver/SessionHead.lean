import Aip.Driver.Sessions
import Aip.Lib.Slots

/-! Whether the first job of the T channel has been started, over whole runs. -/

namespace Aip.Clients

open Channel

variable {β : Type}

/-- The job runs, or the session call that queued it is still writing its registers. -/
def StartedOn (s : Clients β) (exec : ExecInfo β) : Prop :=
  Running exec ∨ ∃ c ∈ s.calls, c.phase = .starting ∧ c.exec.id = exec.id

/-- Every queued job comes to run first after as many completions as there are jobs before it. -/
def Reached (s : Clients β) : Prop :=
  ∀ (n : Nat) exec, s.chan.jobList[n]? = some exec →
    ∃ t, Runs.exec (step .t) s (List.replicate n .irq) = some t ∧
      ∃ first, t.chan.firstJob = some first ∧ first.id = exec.id ∧ Running first

/-- A started job stays started while the calls that start jobs stay. -/
theorem StartedOn.carry {s t : Clients β} {exec : ExecInfo β} (started : StartedOn s exec)
    (calls : ∀ c ∈ s.calls, c.phase = .starting → c ∈ t.calls) : StartedOn t exec := by
  -- The running state is the job's own, and the starting call is kept.
  rcases started with running | ⟨c, member, phase, same⟩
  · exact .inl running
  · exact .inr ⟨c, calls c member phase, phase, same⟩

end Aip.Clients
