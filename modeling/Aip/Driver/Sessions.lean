import Aip.Driver.ClientsLaws
import Aip.Driver.Job
import Mathlib.Data.List.Count

/-! The T channel, where queued jobs and task sessions share one list, over whole runs. -/

namespace Aip.Clients

open Channel

variable {β : Type}

/-- Every record on the T channel was allocated before, and every call inside a session belongs to one. -/
structure Fresh (s : Clients β) : Prop where
  queued : ∀ exec ∈ s.chan.jobList, exec.id < s.nextId
  calls : ∀ c ∈ s.calls, c.exec.id < s.nextId
  sessions : ∀ id ∈ s.taskIds, id < s.nextId
  owners : ∀ c ∈ s.calls, c.phase ≠ .returned → c.exec.id ∈ s.taskIds

/-- No record exists on a fresh channel. -/
theorem Fresh.init : Fresh (init : Clients β) := by
  constructor <;> simp [Clients.init, Channel.init]

/-- Steps that allocate nothing keep records known, whatever they do to the lists. -/
theorem Fresh.carry {s t : Clients β} (fresh : Fresh s) (nextId : t.nextId = s.nextId)
    (taskIds : t.taskIds = s.taskIds)
    (queued : ∀ exec ∈ t.chan.jobList, exec.id < s.nextId)
    (calls : ∀ c ∈ t.calls, ∃ old ∈ s.calls, c.exec.id = old.exec.id ∧
      (c.phase ≠ .returned → old.phase ≠ .returned)) : Fresh t := by
  -- Each clause is read off the calls and the lists of the state before.
  refine ⟨?_, ?_, ?_, ?_⟩
  · rw [nextId]
    exact queued
  · intro c member
    obtain ⟨old, listed, same, _⟩ := calls c member
    rw [nextId, same]
    exact fresh.calls old listed
  · rw [nextId, taskIds]
    exact fresh.sessions
  · intro c member inside
    obtain ⟨old, listed, same, phase⟩ := calls c member
    rw [taskIds, same]
    exact fresh.owners old listed (phase inside)

/-- A call that goes on within a session is the same call. -/
theorem set_calls {s : Clients β} {call : Nat} {c new : SubmitCall β}
    (found : s.calls[call]? = some c) (same : new.exec.id = c.exec.id)
    (inside : new.phase ≠ .returned → c.phase ≠ .returned) :
    ∀ c' ∈ s.calls.set call new, ∃ old ∈ s.calls, c'.exec.id = old.exec.id ∧
      (c'.phase ≠ .returned → old.phase ≠ .returned) := by
  -- Only one place of the list of calls is rewritten.
  intro c' member
  rcases List.mem_or_eq_of_mem_set member with old | rfl
  · exact ⟨c', old, rfl, id⟩
  · exact ⟨c, List.mem_of_getElem? found, same, inside⟩

/-- The records of a list are known when their identities are among those of a known list. -/
theorem known_of_ids {queue old : List (ExecInfo β)} {bound : Nat}
    (known : ∀ exec ∈ old, exec.id < bound)
    (fewer : queue.map (·.id) ⊆ old.map (·.id)) : ∀ exec ∈ queue, exec.id < bound := by
  -- A record on the new list has a namesake on the old one.
  intro exec member
  obtain ⟨before, listed, same⟩ := List.mem_map.mp (fewer (List.mem_map_of_mem member))
  exact same ▸ known before listed

/-- Every step on the T channel keeps records known. -/
theorem Fresh.step {s t : Clients β} {a : ClientStep β} (fresh : Fresh s)
    (taken : step .t s a = some t) : Fresh t := by
  -- The steps that allocate a record raise the bound, and the others move known records.
  have unchanged : ∀ c ∈ s.calls, ∃ old ∈ s.calls, c.exec.id = old.exec.id ∧
      (c.phase ≠ .returned → old.phase ≠ .returned) := fun c member => ⟨c, member, rfl, id⟩
  cases a with
  | op pid body =>
    simp only [Clients.step, Option.some.injEq] at taken
    subst taken
    refine ⟨?_, ?_, fun id listed => Nat.lt_succ_of_lt (fresh.sessions id listed), ?_⟩
    · intro exec member
      have key := List.mem_map_of_mem (f := fun info => info.id) member
      rw [enqueue_map _ _ fun _ _ => rfl] at key
      rcases List.mem_append.mp key with old | new
      · obtain ⟨before, listed, same⟩ := List.mem_map.mp old
        exact Nat.lt_succ_of_lt (same ▸ fresh.queued before listed)
      · -- The record just allocated is the one below the new bound.
        rw [List.mem_singleton.mp new]
        exact Nat.lt_succ_self _
    · intro c member
      rcases List.mem_append.mp member with old | new
      · exact Nat.lt_succ_of_lt (fresh.calls c old)
      · rw [List.mem_singleton.mp new]
        exact Nat.lt_succ_self _
    · intro c member inside
      rcases List.mem_append.mp member with old | new
      · exact fresh.owners c old inside
      · -- A plain submit is not inside a session.
        rw [List.mem_singleton.mp new] at inside
        exact absurd rfl inside
  | taskOp pid body =>
    obtain ⟨_, rfl⟩ := step_taskOp taken
    refine ⟨fun exec member => Nat.lt_succ_of_lt (fresh.queued exec member), ?_, ?_, ?_⟩
    · intro c member
      rcases List.mem_append.mp member with old | new
      · exact Nat.lt_succ_of_lt (fresh.calls c old)
      · rw [List.mem_singleton.mp new]
        exact Nat.lt_succ_self _
    · intro id listed
      rcases List.mem_cons.mp listed with rfl | old
      · exact Nat.lt_succ_self _
      · exact Nat.lt_succ_of_lt (fresh.sessions id old)
    · intro c member inside
      rcases List.mem_append.mp member with old | new
      · -- A call that was inside one still is.
        exact List.mem_cons_of_mem _ (fresh.owners c old inside)
      · rw [List.mem_singleton.mp new]
        exact List.mem_cons_self
  | taskLock call =>
    obtain ⟨c, found, phase, _, rfl⟩ := step_taskLock taken
    exact fresh.carry rfl rfl fresh.queued (set_calls found rfl fun _ => by simp [phase])
  | taskPoll call =>
    obtain ⟨c, found, phase, _, rfl⟩ := step_taskPoll taken
    exact fresh.carry rfl rfl fresh.queued (set_calls found rfl fun _ => by simp [phase])
  | taskAdd call =>
    obtain ⟨c, found, phase, rfl⟩ := step_taskAdd taken
    refine fresh.carry rfl rfl ?_ (set_calls found rfl fun _ => by simp [phase])
    intro exec member
    rcases List.mem_append.mp member with old | new
    · exact fresh.queued exec old
    · rw [List.mem_singleton.mp new]
      exact fresh.calls c (List.mem_of_getElem? found)
  | taskStart call =>
    obtain ⟨c, found, phase, rfl⟩ := step_taskStart taken
    refine fresh.carry rfl rfl ?_ (set_calls found rfl fun _ => by simp [phase])
    -- The start of a job renames no record.
    exact known_of_ids fresh.queued (by rw [taskStart_map _ _ fun _ _ => rfl]; exact fun _ => id)
  | report call =>
    obtain ⟨c, found, _, rfl⟩ := step_report taken
    exact fresh.carry rfl rfl fresh.queued fun c' member =>
      ⟨c', List.mem_of_mem_eraseIdx member, rfl, id⟩
  | irq =>
    simp only [Clients.step, Option.some.injEq] at taken
    subst taken
    refine fresh.carry rfl rfl (known_of_ids fresh.queued ?_) unchanged
    simp only [finishJob]
    rw [tIrqFinishJob_map _ fun _ _ => rfl]
    exact ((List.tail_sublist _).map _).subset
  | release pid =>
    simp only [Clients.step, Option.some.injEq] at taken
    subst taken
    refine fresh.carry rfl rfl (known_of_ids fresh.queued ?_) unchanged
    simp only
    rw [release_map _ _ fun _ _ => rfl]
    exact (List.filter_sublist.map _).subset
  | jobDoneWork =>
    simp only [Clients.step, Option.some.injEq] at taken
    subst taken
    exact fresh.carry rfl rfl fresh.queued unchanged
  | wait report timeoutNs =>
    obtain ⟨waits, rfl⟩ := step_onWaits taken trivial
    exact fresh.carry rfl rfl fresh.queued unchanged
  | waitCheck wait =>
    obtain ⟨waits, rfl⟩ := step_onWaits taken trivial
    exact fresh.carry rfl rfl fresh.queued unchanged
  | waitTurn wait signal expired =>
    obtain ⟨waits, rfl⟩ := step_onWaits taken trivial
    exact fresh.carry rfl rfl fresh.queued unchanged
  | waitTask pid =>
    obtain ⟨_, first, rest, listed, rfl⟩ := step_waitTask taken
    refine fresh.carry rfl rfl (fun exec member => fresh.queued exec ?_) unchanged
    rw [listed]
    exact List.mem_cons_of_mem _ member

end Aip.Clients
