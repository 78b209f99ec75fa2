import Aip.Driver.Nna
import Aip.Lib.Runs
import Aip.Lib.Slots

/-! The two ways to lock the NNA, over whole runs of many processes. -/

namespace Aip

/-- How far a call that locks the mutex has come. -/
inductive NnaPhase where
  /-- `jz_nna_lock` is in `mutex_lock(&nna->nna_mutex)`. -/
  | lockWait
  /-- `jz_nna_lock` has the mutex and allocates its entry. -/
  | lockHeld
  /-- `AIP_ACTION_CTX_LOCK` is in `mutex_lock(&aip->nna_mutex)`. -/
  | ctxWait
  deriving DecidableEq, Repr

/-- A locking call in progress. -/
structure NnaCall where
  pid : Nat
  phase : NnaPhase
  deriving DecidableEq, Repr

/-- The NNA lock with the calls in progress and, as history, the processes with an open CTX lock. -/
structure NnaClients where
  nna : Nna
  ctxOpen : List Nat
  calls : List NnaCall
  deriving DecidableEq, Repr

/-- The steps of the processes that use the NNA lock. -/
inductive NnaStep where
  | lock (pid : Nat)
  | trylock (pid : Nat)
  | acquire (call : Nat)
  | lockFinish (call : Nat) (allocated : Bool)
  | unlock (pid : Nat) (force : Bool)
  | ctxLock (pid : Nat)
  | ctxAcquire (call : Nat)
  | ctxUnlock (pid : Nat)
  | release (pid : Nat)
  deriving DecidableEq, Repr

namespace NnaClients

/-- The free lock. -/
def init : NnaClients := { nna := .init, ctxOpen := [], calls := [] }

/-- A call in the given phase goes on. -/
def withCall (s : NnaClients) (call : Nat) (phase : NnaPhase)
    (next : NnaCall → Option NnaClients) : Option NnaClients :=
  match s.calls[call]? with
  | some c => if c.phase = phase then next c else none
  | none => none

/-- One step on the NNA lock; a step that has to wait is not enabled. -/
def step (s : NnaClients) : NnaStep → Option NnaClients
  | .lock pid => some { s with calls := s.calls ++ [⟨pid, .lockWait⟩] }
  | .trylock pid =>
    -- `-EFAULT` when the mutex is taken, and else `jz_nna_lock` with the mutex taken by this call.
    if s.nna.nnaMutex.isSome then some s
    else some { s with
      nna := { s.nna with nnaMutex := some pid }
      calls := s.calls ++ [⟨pid, .lockWait⟩] }
  | .acquire call =>
    s.withCall call .lockWait fun c =>
      if s.nna.nnaMutex.isSome then none
      else some { s with
        nna := { s.nna with nnaMutex := some c.pid }
        calls := s.calls.set call { c with phase := .lockHeld } }
  | .lockFinish call allocated =>
    s.withCall call .lockHeld fun c =>
      -- Without an entry the call returns `-EFAULT` and leaves the mutex as it is.
      if allocated then
        (s.nna.lockJob c.pid).map fun nna => { s with nna := nna, calls := s.calls.eraseIdx call }
      else some { s with calls := s.calls.eraseIdx call }
  | .unlock pid force => (s.nna.unlock pid force).map fun nna => { s with nna := nna }
  | .ctxLock pid => some { s with calls := s.calls ++ [⟨pid, .ctxWait⟩] }
  | .ctxAcquire call =>
    s.withCall call .ctxWait fun c =>
      if s.nna.nnaMutex.isSome then none
      else some {
        nna := { s.nna with nnaMutex := some c.pid }
        ctxOpen := s.ctxOpen ++ [c.pid]
        calls := s.calls.eraseIdx call }
  | .ctxUnlock pid => some { s with nna := s.nna.ctxUnlock, ctxOpen := s.ctxOpen.erase pid }
  | .release pid => (s.nna.release pid).map fun nna => { s with nna := nna }

/-- The call has the mutex. -/
def Holding (c : NnaCall) : Bool := c.phase = .lockHeld

/-- The job list entries, open CTX locks and calls about to enter one that hold the NNA, counted. -/
def holders (s : NnaClients) : Nat :=
  s.nna.nnaJobList.length + s.ctxOpen.length + s.calls.countP Holding

/--
The step keeps to the protocol.

No process locks what it holds, in one call or in two at once; a TRYLOCK finds the mutex taken;
an entry can be allocated; and a CTX unlock is made by the process whose CTX lock is open, if any
process holds the mutex.
-/
def KeepsProtocol (s : NnaClients) : NnaStep → Prop
  | .lock pid | .ctxLock pid => s.nna.nnaMutex ≠ some pid
  | .trylock _ => s.nna.nnaMutex.isSome
  | .acquire call | .ctxAcquire call => ∀ c, s.calls[call]? = some c →
      ∀ other ∈ s.calls.eraseIdx call, other.pid ≠ c.pid
  | .lockFinish _ allocated => allocated
  | .ctxUnlock pid => s.nna.nnaMutex.isSome → pid ∈ s.ctxOpen
  | _ => True

/-- The holder of the mutex is the one process that an entry, a CTX lock or a call stands for. -/
structure Held (s : NnaClients) : Prop where
  count : s.holders = s.nna.nnaMutex.toList.length
  entry : ∀ pid ∈ s.nna.nnaJobList, s.nna.nnaMutex = some pid ∧ pid = s.nna.nnaPid
  ctx : ∀ pid ∈ s.ctxOpen, s.nna.nnaMutex = some pid
  call : ∀ c ∈ s.calls, c.phase = .lockHeld → s.nna.nnaMutex = some c.pid
  progress : ∀ c ∈ s.calls, c.phase ≠ .lockHeld → s.nna.nnaMutex ≠ some c.pid

/-- Nobody holds the free lock. -/
theorem Held.init : Held init := by
  constructor <;> simp [NnaClients.init, Nna.init, holders]

/-- A call goes on exactly when it is in the phase the step is for. -/
theorem withCall_eq_some {s t : NnaClients} {call : Nat} {phase : NnaPhase}
    {next : NnaCall → Option NnaClients} : s.withCall call phase next = some t ↔
      ∃ c, s.calls[call]? = some c ∧ c.phase = phase ∧ next c = some t := by
  -- Only an existing call in that phase lets the step continue.
  unfold withCall
  cases found : s.calls[call]? with
  | none => simp
  | some c =>
    by_cases here : c.phase = phase
    · simp [here]
    · simp [here]

/-- `jz_nna_lock` takes the free mutex. -/
theorem step_acquire {s t : NnaClients} {call : Nat} (taken : step s (.acquire call) = some t) :
    ∃ c, s.calls[call]? = some c ∧ c.phase = .lockWait ∧ s.nna.nnaMutex = none ∧
      t = { s with
        nna := { s.nna with nnaMutex := some c.pid }
        calls := s.calls.set call { c with phase := .lockHeld } } := by
  -- A mutex that is taken keeps the call waiting.
  simp only [step, withCall_eq_some, Option.ite_none_left_eq_some, Option.some.injEq,
    Option.not_isSome_iff_eq_none] at taken
  obtain ⟨c, found, phase, free, same⟩ := taken
  exact ⟨c, found, phase, free, same.symm⟩

/-- `AIP_ACTION_CTX_LOCK` takes the free mutex. -/
theorem step_ctxAcquire {s t : NnaClients} {call : Nat}
    (taken : step s (.ctxAcquire call) = some t) : ∃ c, s.calls[call]? = some c ∧
      c.phase = .ctxWait ∧ s.nna.nnaMutex = none ∧
      t = {
        nna := { s.nna with nnaMutex := some c.pid }
        ctxOpen := s.ctxOpen ++ [c.pid]
        calls := s.calls.eraseIdx call } := by
  -- A mutex that is taken keeps the call waiting.
  simp only [step, withCall_eq_some, Option.ite_none_left_eq_some, Option.some.injEq,
    Option.not_isSome_iff_eq_none] at taken
  obtain ⟨c, found, phase, free, same⟩ := taken
  exact ⟨c, found, phase, free, same.symm⟩

/-- `jz_nna_lock` ends with an entry on the list, or without one when it could not allocate it. -/
theorem step_lockFinish {s t : NnaClients} {call : Nat} {allocated : Bool}
    (taken : step s (.lockFinish call allocated) = some t) : ∃ c, s.calls[call]? = some c ∧
      c.phase = .lockHeld ∧
      ((allocated = true ∧ s.nna.nnaJobLock = false ∧
          t = { s with
            nna := { s.nna with nnaPid := c.pid, nnaJobList := s.nna.nnaJobList ++ [c.pid] }
            calls := s.calls.eraseIdx call }) ∨
        (allocated = false ∧ t = { s with calls := s.calls.eraseIdx call })) := by
  -- Only the section that enters the process needs the spinlock.
  simp only [step, withCall_eq_some] at taken
  obtain ⟨c, found, phase, taken⟩ := taken
  refine ⟨c, found, phase, ?_⟩
  cases allocated with
  | true =>
    simp only [if_true, Option.map_eq_some_iff, Nna.lockJob_eq_some] at taken
    obtain ⟨_, ⟨free, rfl⟩, same⟩ := taken
    exact .inl ⟨rfl, free, same.symm⟩
  | false =>
    simp only [Bool.false_eq_true, if_false, Option.some.injEq] at taken
    exact .inr ⟨rfl, taken.symm⟩

/-- A release drops the entry of its process. -/
theorem step_release {s t : NnaClients} {pid : Nat} (taken : step s (.release pid) = some t) :
    s.nna.nnaJobLock = false ∧ t = { s with nna := s.nna.dropJob pid } := by
  -- The section that drops the entry needs the spinlock.
  simp only [step, Option.map_eq_some_iff, Nna.release_eq_some] at taken
  obtain ⟨_, ⟨free, rfl⟩, same⟩ := taken
  exact ⟨free, same.symm⟩

/-- While the mutex is free, there is no entry, no open CTX lock and no call that has it. -/
theorem Held.free {s : NnaClients} (held : Held s) (free : s.nna.nnaMutex = none) :
    s.nna.nnaJobList = [] ∧ s.ctxOpen = [] ∧ s.calls.countP Holding = 0 := by
  have count := held.count
  simp only [holders, free, Option.toList_none, List.length_nil] at count
  exact ⟨List.length_eq_zero_iff.mp (by omega), List.length_eq_zero_iff.mp (by omega), by omega⟩

/-- A call that waits is not counted among those that have the mutex. -/
theorem holding_eq_false {c : NnaCall} {phase : NnaPhase} (here : c.phase = phase)
    (waits : phase ≠ .lockHeld) : Holding c = false := by
  simp [Holding, here, waits]

/-- No other call has the mutex while it is free. -/
theorem not_holding {calls : List NnaCall} (none : calls.countP Holding = 0) :
    ∀ c ∈ calls, c.phase ≠ .lockHeld := by
  intro c member holding
  exact List.countP_eq_zero.mp none c member (by simp [Holding, holding])

/-- A waiting call of a process that does not hold the mutex joins the others. -/
theorem Held.join {s : NnaClients} (held : Held s) {c : NnaCall} (waits : c.phase ≠ .lockHeld)
    (other : s.nna.nnaMutex ≠ some c.pid) : Held { s with calls := s.calls ++ [c] } := by
  -- The new call holds nothing, and its process does not either.
  refine ⟨?_, held.entry, held.ctx, ?_, ?_⟩
  · simpa [holders, List.countP_append, holding_eq_false rfl waits] using held.count
  · intro c' member holding
    rcases List.mem_append.mp member with old | new
    · exact held.call c' old holding
    · exact absurd (List.mem_singleton.mp new ▸ holding) waits
  · intro c' member waiting
    rcases List.mem_append.mp member with old | new
    · exact held.progress c' old waiting
    · rw [List.mem_singleton.mp new]
      exact other

/-- Taking an entry off the list frees the mutex that it stood for. -/
theorem Held.dropJob {s : NnaClients} (held : Held s) (pid : Nat) :
    Held { s with nna := s.nna.dropJob pid } := by
  unfold Nna.dropJob
  split
  case isFalse absent => exact held
  case isTrue listed =>
    -- The entry is the only holder, so nothing is left once it is gone.
    have owner := (held.entry pid listed).1
    have count := held.count
    have length := List.length_erase_of_mem listed
    have positive := List.length_pos_of_mem listed
    simp only [holders, owner, Option.toList_some, List.length_singleton] at count
    have empty : s.nna.nnaJobList.erase pid = [] := List.length_eq_zero_iff.mp (by omega)
    have closed : s.ctxOpen = [] := List.length_eq_zero_iff.mp (by omega)
    have none : s.calls.countP Holding = 0 := by omega
    refine ⟨by simp [holders, empty, closed, none], by simp [empty], by simp [closed], ?_, by simp⟩
    exact fun c member holding => absurd holding (not_holding none c member)

/-- A free mutex goes to the call that takes it, provided no other call of its process waits. -/
theorem Held.take {s : NnaClients} (held : Held s) (free : s.nna.nnaMutex = none) {call : Nat}
    {c : NnaCall} (found : s.calls[call]? = some c)
    (alone : ∀ other ∈ s.calls.eraseIdx call, other.pid ≠ c.pid) :
    Held { s with
      nna := { s.nna with nnaMutex := some c.pid }
      calls := s.calls.set call { c with phase := .lockHeld } } ∧
    Held {
      nna := { s.nna with nnaMutex := some c.pid }
      ctxOpen := s.ctxOpen ++ [c.pid]
      calls := s.calls.eraseIdx call } := by
  obtain ⟨empty, closed, none⟩ := held.free free
  have others : (s.calls.eraseIdx call).countP Holding = 0 := by
    rw [Slots.countP_eraseIdx Holding found] at none
    omega
  have waiting := not_holding others
  constructor
  · -- The call of `jz_nna_lock` goes on as the holder.
    refine ⟨?_, by simp [empty], by simp [closed], ?_, ?_⟩
    · simp [holders, empty, closed, Slots.countP_set Holding found, others, Holding]
    · intro c' member holding
      rcases (Slots.mem_set found).mp member with rfl | old
      · rfl
      · exact absurd holding (waiting c' old)
    · intro c' member waits
      rcases (Slots.mem_set found).mp member with rfl | old
      · exact absurd rfl waits
      · exact fun same => alone c' old (Option.some.inj same).symm
  · refine ⟨?_, by simp [empty], by simp [closed], ?_, ?_⟩
    · simp [holders, empty, closed, others]
    · exact fun c' member holding => absurd holding (waiting c' member)
    · exact fun c' member _ same => alone c' member (Option.some.inj same).symm

/-- Steps that keep to the protocol keep track of the holder. -/
theorem Held.step {s t : NnaClients} {a : NnaStep} (held : Held s) (taken : step s a = some t)
    (keeps : KeepsProtocol s a) : Held t := by
  cases a with
  | lock pid | ctxLock pid =>
    simp only [NnaClients.step, Option.some.injEq] at taken
    subst taken
    exact held.join (by simp) keeps
  | trylock pid =>
    -- The TRYLOCK fails, because the mutex is taken.
    have busy : s.nna.nnaMutex.isSome = true := keeps
    simp only [NnaClients.step, busy, if_true, Option.some.injEq] at taken
    exact taken ▸ held
  | acquire call =>
    obtain ⟨c, found, _, free, rfl⟩ := step_acquire taken
    exact (held.take free found (keeps c found)).1
  | ctxAcquire call =>
    obtain ⟨c, found, _, free, rfl⟩ := step_ctxAcquire taken
    exact (held.take free found (keeps c found)).2
  | lockFinish call allocated =>
    -- The entry takes the place of the call that held the mutex.
    have entry : allocated = true := keeps
    subst entry
    obtain ⟨c, found, holding, ⟨_, _, rfl⟩ | ⟨failed, _⟩⟩ := step_lockFinish taken
    case inr => cases failed
    have owner := held.call c (List.mem_of_getElem? found) holding
    have count := held.count
    rw [holders, Slots.countP_eraseIdx Holding found] at count
    refine ⟨?_, ?_, held.ctx, ?_, ?_⟩
    · simp [Holding, holding, holders] at count ⊢
      omega
    · intro pid member
      rcases List.mem_append.mp member with old | new
      · have same := (held.entry pid old).1
        exact ⟨same, Option.some.inj (same.symm.trans owner)⟩
      · rw [List.mem_singleton.mp new]
        exact ⟨owner, rfl⟩
    · exact fun c' member => held.call c' (List.mem_of_mem_eraseIdx member)
    · exact fun c' member => held.progress c' (List.mem_of_mem_eraseIdx member)
  -- Every way through the unlock drops an entry or leaves the mutex alone.
  | unlock pid force =>
    obtain ⟨nna, unlocked, rfl⟩ := Option.map_eq_some_iff.mp taken
    rcases Nna.unlock_cases unlocked with rfl | ⟨_, _, _, rfl⟩ | ⟨_, _, rfl⟩
    · exact held
    · exact held.dropJob _
    · exact ⟨held.count, held.entry, held.ctx, held.call, held.progress⟩
  | ctxUnlock pid =>
    simp only [NnaClients.step, Option.some.injEq] at taken
    subst taken
    cases mutex : s.nna.nnaMutex with
    | none =>
      obtain ⟨empty, closed, none⟩ := held.free mutex
      refine ⟨by simp [holders, Nna.ctxUnlock, empty, closed, none],
        by simp [Nna.ctxUnlock, empty], by simp [closed], ?_, by simp [Nna.ctxUnlock]⟩
      exact fun c member holding => absurd holding (not_holding none c member)
    | some owner =>
      -- The open CTX lock is the only holder.
      have opened : pid ∈ s.ctxOpen := keeps (by simp [mutex])
      have count := held.count
      have length := List.length_erase_of_mem opened
      have positive := List.length_pos_of_mem opened
      simp only [holders, mutex, Option.toList_some, List.length_singleton] at count
      have empty : s.nna.nnaJobList = [] := List.length_eq_zero_iff.mp (by omega)
      have closed : s.ctxOpen.erase pid = [] := List.length_eq_zero_iff.mp (by omega)
      have none : s.calls.countP Holding = 0 := by omega
      refine ⟨by simp [holders, Nna.ctxUnlock, empty, closed, none],
        by simp [Nna.ctxUnlock, empty], by simp [closed], ?_, by simp [Nna.ctxUnlock]⟩
      exact fun c member holding => absurd holding (not_holding none c member)
  -- The release frees the mutex only together with an entry.
  | release pid =>
    obtain ⟨_, rfl⟩ := step_release taken
    exact held.dropJob pid

end NnaClients

end Aip
