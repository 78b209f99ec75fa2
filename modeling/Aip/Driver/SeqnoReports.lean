import Aip.Driver.ClientsLaws
import Aip.Driver.Job

/-! The number that a submit reports to its caller. -/

namespace Aip.Clients

open Channel

variable {β : Type}

/-- Every submit that has returned reported the number of the job that it queued itself. -/
def OwnReports (s : Clients β) : Prop := ∀ r ∈ s.reports, r.reported = r.seqno

/--
A call that is about to read the counter was the last one numbered.

Calls numbered since then do no harm in the one case that the counter has come round to it again.
-/
def LastNumbered (s : Clients β) (a : ClientStep β) : Prop :=
  ∀ call, a = .report call → ∀ c, s.calls[call]? = some c → (s.issued - c.ticket) % 2 ^ 64 = 0

/--
On any channel, every submit reports its own number if and only if no other call is numbered between
the numbering of a call and its read of the counter.
-/
theorem ownReports_iff (op : ChOp) (run : List (ClientStep β)) :
    Runs.Always (step op) OwnReports init run
      ↔ Runs.Each (step op) (fun s a _ => LastNumbered s a) init run := by
  -- The count of numbered calls says what every read of the counter returns.
  apply Runs.always_safe_iff (I := fun s => OwnReports s ∧ Counted s)
  · exact fun s h => h.1
  · intro s a t invariant taken last
    obtain ⟨own, counted⟩ := invariant
    refine ⟨?_, counted.step taken⟩
    rcases step_reports taken with same | ⟨call, c, rfl, found, reports⟩
    · unfold OwnReports
      rw [same]
      exact own
    · -- The counter read is the number of the reporting call.
      obtain ⟨number, bound⟩ := counted.tickets c (List.mem_of_getElem? found)
      have counter := counted.counter
      have between := last call rfl c found
      intro r member
      rw [reports] at member
      rcases List.mem_append.mp member with old | new
      · exact own r old
      · rw [List.mem_singleton.mp new]
        show s.chan.submitedSeqno = c.exec.seqno
        omega
  · intro s a t invariant taken after call same c found
    obtain ⟨own, counted⟩ := invariant
    subst same
    -- The report just made is one of those the property speaks of.
    obtain ⟨number, bound⟩ := counted.tickets c (List.mem_of_getElem? found)
    have counter := counted.counter
    rcases step_reports taken with same | ⟨call', c', step, found', reports⟩
    · obtain ⟨_, _, _, rfl⟩ := step_report taken
      simp at same
    · cases step
      have this : c' = c := Option.some.inj (found'.symm.trans found)
      subst this
      have told := after _ (by rw [reports]; exact List.mem_append_right _ (List.mem_singleton_self _))
      have read : s.chan.submitedSeqno = c'.exec.seqno := told
      omega
  · exact ⟨by simp [OwnReports, Clients.init], Counted.init⟩

/-- Of two F submits, the first reads the counter after the second has been numbered. -/
theorem ownReports_overtaken : ¬ Runs.Always (step .f) OwnReports (init : Clients FBody)
    [.op 1 default, .op 2 default, .report 0] := by
  intro always
  -- The first caller is told 2, the number of the other job.
  have own := always.last rfl
  have told := own ⟨0, 1, 2⟩ (by decide)
  simp at told

end Aip.Clients
