import Aip.Driver.NnaLock

/-! Requests for the NNA lock that fail, over whole runs of many processes. -/

namespace Aip

/-- The clients of the NNA lock together with `nna_seqno`. -/
structure NnaRequests where
  clients : NnaClients
  nnaSeqno : Nat
  deriving DecidableEq, Repr

namespace NnaRequests

/-- The free lock, before the first request. -/
def init : NnaRequests := { clients := .init, nnaSeqno := 0 }

/-- `nna_seqno` behind a step, which `jz_nna_lock` increments on 64 bits with the entry. -/
def seqnoAfter (nnaSeqno : Nat) : NnaStep → Nat
  | .lockFinish _ true => (nnaSeqno + 1) % 2 ^ 64
  | _ => nnaSeqno

/-- One step on the NNA lock. -/
def step (s : NnaRequests) (a : NnaStep) : Option NnaRequests :=
  (s.clients.step a).map fun clients =>
    { clients := clients, nnaSeqno := seqnoAfter s.nnaSeqno a }

/-- The call of a step that ends `jz_nna_lock`. -/
def caller (s : NnaRequests) (call : Nat) : Option NnaCall := s.clients.calls[call]?

/-- The lock without the mutex that a process has taken. -/
def withoutHold (nna : Nna) (pid : Nat) : Nna :=
  { nna with nnaMutex := if nna.nnaMutex = some pid then none else nna.nnaMutex }

/-- A request that got as far as the spinlock gets it, and with it ends. -/
structure Served (s : NnaRequests) : Prop where
  unlock : ∀ pid force, (step s (.unlock pid force)).isSome
  lock : ∀ call c, s.caller call = some c → c.phase = .lockHeld →
    ∀ allocated, (step s (.lockFinish call allocated)).isSome

/--
A request returns with the spinlock released, and a failed one has changed nothing.

A TRYLOCK returns at once: it leaves no call in progress. What a failed `jz_nna_lock` has done to the
lock is to take the mutex, so without a change the mutex is no longer held by its process.
-/
def Returns (s : NnaRequests) (a : NnaStep) (t : NnaRequests) : Prop :=
  match a with
  | .unlock _ _ => t.clients.nna.nnaJobLock = false
  | .trylock _ => t.clients.nna.nnaJobLock = false ∧ t.clients.calls = s.clients.calls
  | .lockFinish call allocated => t.clients.nna.nnaJobLock = false ∧
      (allocated = false → ∀ c, s.caller call = some c →
        t.clients.nna = withoutHold s.clients.nna c.pid ∧ t.nnaSeqno = s.nnaSeqno)
  | _ => True

/--
The step does not meet a failure that leaves something behind.

An unlock is forced, or made by another process than the last to lock, or finds the mutex locked; a
TRYLOCK finds the mutex locked; and `jz_nna_lock` can allocate its entry, or somebody else has
unlocked its mutex meanwhile.
-/
def AvoidsFailure (s : NnaRequests) : NnaStep → Prop
  | .unlock pid force => force ∨ s.clients.nna.nnaPid ≠ pid ∨ s.clients.nna.nnaMutex.isSome
  | .trylock _ => s.clients.nna.nnaMutex.isSome
  | .lockFinish call allocated => allocated ∨
      ∀ c, s.caller call = some c → s.clients.nna.nnaMutex ≠ some c.pid
  | _ => True

/-- The spinlock is free. -/
def Unlocked (s : NnaRequests) : Prop := s.clients.nna.nnaJobLock = false

/-- What a failed lock leaves is the lock as it was exactly when its mutex is no longer taken. -/
theorem eq_withoutHold_iff {nna : Nna} {pid : Nat} :
    nna = withoutHold nna pid ↔ nna.nnaMutex ≠ some pid := by
  constructor
  · intro same held
    have mutex := congrArg Nna.nnaMutex same
    simp [withoutHold, held] at mutex
  · intro other
    simp [withoutHold, other]

/-- An unlock that gets the spinlock keeps it exactly when it finds the mutex free and must not. -/
theorem unlock_jobLock {nna after : Nna} {pid : Nat} {force : Bool}
    (free : nna.nnaJobLock = false) (unlocked : nna.unlock pid force = some after) :
    after.nnaJobLock = false ↔ (force ∨ nna.nnaPid ≠ pid ∨ nna.nnaMutex.isSome) := by
  unfold Nna.unlock at unlocked
  split at unlocked
  case isTrue other =>
    -- A process that did not lock last is turned away before the spinlock.
    cases unlocked
    exact ⟨fun _ => .inr (.inl other.2), fun _ => free⟩
  case isFalse owner =>
    simp only [free, Bool.false_eq_true, if_false] at unlocked
    split at unlocked
    case isTrue taken =>
      cases unlocked
      refine ⟨fun _ => .inr (.inr taken), fun _ => ?_⟩
      unfold Nna.dropJob
      split
      · exact free
      · exact free
    case isFalse idle =>
      cases force with
      | true =>
        simp only [Bool.not_true, Bool.false_eq_true, if_false, Option.some.injEq] at unlocked
        subst unlocked
        exact ⟨fun _ => .inl rfl, fun _ => free⟩
      | false =>
        -- The early return of the last owner leaves the spinlock taken.
        simp only [Bool.not_false, if_true, Option.some.injEq] at unlocked
        subst unlocked
        have own : nna.nnaPid = pid := by simpa using owner
        simp [own, idle]

/-- An unlock always ends while the spinlock is free. -/
theorem unlock_isSome {nna : Nna} (free : nna.nnaJobLock = false) (pid : Nat) (force : Bool) :
    (nna.unlock pid force).isSome := by
  unfold Nna.unlock
  simp only [free, Bool.false_eq_true, if_false]
  split_ifs <;> rfl

/-- Every request is served exactly while the spinlock is free. -/
theorem served_iff {s : NnaRequests} : Served s ↔ Unlocked s := by
  constructor
  · intro served
    -- An unlock by the last owner has to take the spinlock.
    have ends := served.unlock s.clients.nna.nnaPid false
    by_contra taken
    have taken : s.clients.nna.nnaJobLock = true := by simpa [Unlocked] using taken
    simp [step, NnaClients.step, Nna.unlock, taken] at ends
  · intro free
    refine ⟨fun pid force => ?_, fun call c found held allocated => ?_⟩
    · simpa [step, NnaClients.step] using unlock_isSome free pid force
    · unfold caller at found
      unfold Unlocked at free
      cases allocated with
      | true => simp [step, NnaClients.step, NnaClients.withCall, found, held, Nna.lockJob, free]
      | false => simp [step, NnaClients.step, NnaClients.withCall, found, held]

/-- What the clients do in a step. -/
theorem step_eq_some {s t : NnaRequests} {a : NnaStep} : step s a = some t ↔
    s.clients.step a = some t.clients ∧ t.nnaSeqno = seqnoAfter s.nnaSeqno a := by
  simp only [step, Option.map_eq_some_iff]
  constructor
  · intro given
    obtain ⟨clients, taken, rfl⟩ := given
    exact ⟨taken, rfl⟩
  · intro given
    refine ⟨t.clients, given.1, ?_⟩
    rw [← given.2]

/-- A step taken with the spinlock free ends as it should exactly when it avoids the failures. -/
theorem returns_iff {s t : NnaRequests} {a : NnaStep} (free : Unlocked s)
    (taken : step s a = some t) : (Unlocked t ∧ Returns s a t) ↔ AvoidsFailure s a := by
  obtain ⟨moved, seqno⟩ := step_eq_some.mp taken
  unfold Unlocked at free ⊢
  cases a with
  | lock pid | ctxLock pid | ctxUnlock pid =>
    simp only [NnaClients.step, Option.some.injEq] at moved
    rw [← moved]
    simpa [Returns, AvoidsFailure, Nna.ctxUnlock] using free
  | acquire call =>
    obtain ⟨c, _, _, _, same⟩ := NnaClients.step_acquire moved
    simpa [same, Returns, AvoidsFailure] using free
  | ctxAcquire call =>
    obtain ⟨c, _, _, _, same⟩ := NnaClients.step_ctxAcquire moved
    simpa [same, Returns, AvoidsFailure] using free
  | release pid =>
    obtain ⟨_, same⟩ := NnaClients.step_release moved
    simp only [same, Returns, AvoidsFailure, and_true, iff_true]
    unfold Nna.dropJob
    split
    · exact free
    · exact free
  | trylock pid =>
    by_cases busy : s.clients.nna.nnaMutex.isSome = true
    · simp only [NnaClients.step, busy, if_true, Option.some.injEq] at moved
      simp [← moved, Returns, AvoidsFailure, busy, free]
    · -- The call goes on to lock the mutex that the TRYLOCK has just locked.
      simp only [NnaClients.step, busy, Bool.false_eq_true, if_false, Option.some.injEq] at moved
      simp [← moved, Returns, AvoidsFailure, busy]
  | unlock pid force =>
    obtain ⟨nna, unlocked, same⟩ := Option.map_eq_some_iff.mp moved
    have keeps := unlock_jobLock free unlocked
    simp only [← same, Returns, AvoidsFailure, and_self]
    exact keeps
  | lockFinish call allocated =>
    obtain ⟨c, found, _, ⟨rfl, _, same⟩ | ⟨rfl, same⟩⟩ := NnaClients.step_lockFinish moved
    · simp [same, Returns, AvoidsFailure, free]
    · -- The entry could not be allocated, and the mutex stays as it is.
      have seqno : t.nnaSeqno = s.nnaSeqno := seqno
      simp only [same, Returns, AvoidsFailure, caller, found, free, seqno, Option.some.injEq,
        forall_eq', and_true, true_and, forall_const, Bool.false_eq_true, false_or]
      exact eq_withoutHold_iff

/--
In every state of a run the requests are served, and each of them returns with the spinlock released
and undoes what it took if it fails, if and only if no step of the run meets one of the failures.
-/
theorem returns_iff_avoidsFailure (run : List NnaStep) :
    (Runs.Always step Served init run ∧ Runs.Each step Returns init run)
      ↔ Runs.Each step (fun s a _ => AvoidsFailure s a) init run := by
  -- The invariant is the free spinlock.
  apply Runs.safe_iff (I := Unlocked)
  · exact fun s free => served_iff.mpr free
  · exact fun s a t free taken avoids => (returns_iff free taken).mpr avoids
  · intro s a t free taken after returns
    exact (returns_iff free taken).mp ⟨served_iff.mp after, returns⟩
  · rfl

/--
A second unlock by the last owner keeps the spinlock, on which the next request spins, and a lock
whose entry cannot be allocated keeps the mutex.
-/
theorem returns_failures :
    ¬ Runs.Always step Served init
        [.lock 1, .acquire 0, .lockFinish 0 true, .unlock 1 false, .unlock 1 false] ∧
      ¬ Runs.Each step Returns init [.lock 1, .acquire 0, .lockFinish 0 false] := by
  constructor
  · intro always
    have served := always.last rfl
    have spins := served.unlock 1 false
    revert spins
    decide
  · intro each
    have before : Runs.exec step init [.lock 1, .acquire 0] = some
        ⟨{ nna := { Nna.init with nnaMutex := some 1 }, ctxOpen := [], calls := [⟨1, .lockHeld⟩] }, 0⟩ :=
      rfl
    have returns := Runs.each_iff.mp each _ (.lockFinish 0 false) _ _ (List.prefix_refl _) before rfl
    have kept := (returns.2 rfl ⟨1, .lockHeld⟩ rfl).1
    revert kept
    decide

end NnaRequests

end Aip
