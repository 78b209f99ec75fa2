import Aip.Hal.LibraryLaws
import Aip.Lib.Runs

/-! When the resources of the library live as long as the inits that are not yet followed by a deinit. -/

namespace Aip

namespace AipLib

/-- What is there between an init and its deinit; caches and chain buffers come with the first use. -/
structure Live (chip : Chip) (lib : AipLib) : Prop where
  regs : lib.regs = .live
  memFd : lib.memFd = .live
  manager : ∀ index, (lib.manage index).Serving
  cache : ∀ index, (lib.cache index).ptr ≠ .stale
  dummy : chip = .a1 → lib.dummy = .live

/-- Nothing is there any more, or not yet. -/
structure Idle (lib : AipLib) : Prop where
  regs : lib.regs ≠ .live
  memFd : lib.memFd ≠ .live
  manager : ∀ index, (lib.manage index).ptr ≠ .live ∧ (lib.manage index).held = 0
  cache : ∀ index, (lib.cache index).ptr ≠ .live
  dummy : lib.dummy ≠ .live

/--
The resources are there exactly while more inits have succeeded than deinits were called, none was
released twice or used behind its release, and none was lost.
-/
structure Sound (chip : Chip) (lib : AipLib) : Prop where
  unbroken : lib.broken = false
  kept : lib.leaked = 0
  live : lib.outstanding ≠ 0 → lib.Live chip
  idle : lib.outstanding = 0 → lib.Idle

/--
A failed init changes nothing, a nested one nothing but the counts, and neither does a deinit with
no init outstanding.
-/
def Respects (chip : Chip) (lib : AipLib) (call : LibStep) (after : AipLib) : Prop :=
  match call with
  | .init answers =>
    if (lib.init chip answers).1 = true then
      lib.outstanding ≠ 0 →
        after = { lib with count := after.count, outstanding := after.outstanding }
    else after = lib
  | .process _ => True
  | .deinit => lib.outstanding = 0 → after = lib

/-- The system gives everything that an init asks for. -/
def Given (answers : InitAnswers) : Prop :=
  (∀ index, answers.managers index = true) ∧ answers.opened = true ∧ answers.mapped = true

/--
On the T41 the first init gets everything, and a nested one does not wrap the counter; on the A1
there is no nested init, and one that does not get everything fails at its first `malloc`.
-/
def InitFits (chip : Chip) (lib : AipLib) (answers : InitAnswers) : Prop :=
  match chip with
  | .t41 => if lib.outstanding = 0 then Given answers else lib.count + 1 < 2 ^ 32
  | .a1 => lib.outstanding = 0 ∧
      (answers.managers .p = false ∨ Given answers ∧ answers.dummy = true)

/-- The cache of the call is too small for its nodes. -/
def Grows (chip : Chip) (lib : AipLib) (call : ProcessCall) : Prop :=
  ∃ index size, call.cache = some (index, size) ∧
    (lib.cache index).size < call.nodeBytes chip size

/--
Between an init and its deinit the chain gets its buffer, unless there is no memory for the nodes;
otherwise the call has no nodes in a cache, or fails to get a first one.
-/
def ProcessFits (chip : Chip) (lib : AipLib) (call : ProcessCall) : Prop :=
  if lib.outstanding = 0 then
    ∀ index size, call.cache = some (index, size) →
      if (lib.cache index).size < call.nodeBytes chip size then
        (lib.cache index).ptr = .null ∧ call.malloc = false
      else call.nodeBytes chip size = 0 ∧ (chip = .a1 → call.kind ≠ .resize)
  else
    (call.malloc = true ∨ ¬ Grows chip lib call) →
      (lib.prepared chip call).Allocates lib.chainBufSize call.answers

/--
There is a deinit only on the T41, when the counter is at least three, or when it is the last one
and the mapping of every unit is as large as its last call has recorded.
-/
def DeinitFits (chip : Chip) (lib : AipLib) : Prop :=
  chip = .t41 ∧ (3 ≤ lib.count ∨ lib.outstanding = 1 ∧ ∀ index, (lib.manage index).Covered)

/-- The condition on a call. -/
def Careful (chip : Chip) (lib : AipLib) (call : LibStep) : Prop :=
  match call with
  | .init answers => InitFits chip lib answers
  | .process call => ProcessFits chip lib call
  | .deinit => DeinitFits chip lib

/-- What holds behind careful calls: the counter of the T41 may fall behind, but not to zero. -/
structure Tracks (chip : Chip) (lib : AipLib) : Prop extends Sound chip lib where
  t41 : chip = .t41 → 0 ≤ lib.count ∧ lib.count ≤ lib.outstanding ∧ lib.count < 2 ^ 32 ∧
    (lib.outstanding ≠ 0 → lib.count ≠ 0)
  a1 : chip = .a1 → lib.count = lib.outstanding ∧ lib.outstanding ≤ 1
  unused : chip = .t41 → lib.dummy = .null
  gone : lib.outstanding = 0 → ∀ index, lib.manage index = .null
  empty : ∀ index, (lib.cache index).ptr = .null → (lib.cache index).size = 0

variable {chip : Chip} {lib after : AipLib} {answers : InitAnswers} {call : ProcessCall}

/-- Only what is there is held. -/
theorem held_zero {ptr : Ptr} : ptr.held = 0 ↔ ptr ≠ .live := by
  cases ptr <;> decide

/-- Nothing is there when the program starts. -/
theorem tracks_start (chip : Chip) : Tracks chip start where
  unbroken := rfl
  kept := rfl
  live some := absurd rfl some
  idle _ := ⟨by decide, by decide, fun _ => ⟨Ptr.noConfusion, rfl⟩, fun _ => Ptr.noConfusion, by decide⟩
  t41 _ := by decide
  a1 _ := by decide
  unused _ := rfl
  gone _ _ := rfl
  empty _ _ := rfl

/-- What an init leaves that has got its managers, from a library that was idle. -/
def opened (lib : AipLib) (answers : InitAnswers) : AipLib :=
  (({ lib with manage := fun _ => .fresh } : AipLib).getIoaddr answers).forgetCaches

/-- The first init of an idle library loses nothing, and gets what the system gives. -/
theorem opened_idle (idle : lib.Idle) : (lib.opened answers).leaked = lib.leaked ∧
    (∀ index, (lib.opened answers).manage index = .fresh) ∧
    (∀ index, (lib.opened answers).cache index = ⟨.null, 0⟩) := by
  have regs := held_zero.mpr idle.regs
  have memFd := held_zero.mpr idle.memFd
  have cache := fun index => held_zero.mpr (idle.cache index)
  refine ⟨?_, fun _ => rfl, fun _ => rfl⟩
  have fresh : AipManage.fresh.held = 0 := rfl
  simp [opened, getIoaddr, forgetCaches, regs, memFd, cache, fresh]

/-- The registers are there exactly when they are given. -/
theorem opened_regs (lib : AipLib) (answers : InitAnswers) :
    ((lib.opened answers).regs = .live ∧ (lib.opened answers).memFd = .live) ↔
    answers.opened = true ∧ answers.mapped = true := by
  cases first : answers.opened <;> cases second : answers.mapped <;>
    simp [opened, getIoaddr, forgetCaches, first, second]

/-- What the first `malloc` leaves when it fails; the T41 has counted the init before. -/
theorem init_refused (tracks : Tracks chip lib) (none : lib.outstanding = 0)
    (refused : answers.managers .p = false) :
    lib.init chip answers = (false, if chip = .t41 then { lib with count := 1 } else lib) := by
  have null := tracks.gone none
  cases chip with
  | t41 =>
    obtain ⟨low, high, _⟩ := tracks.t41 rfl
    have zero : lib.count = 0 := by omega
    have failed := memInit_refused { lib with count := 1 } null refused
    simp [init, zero, failed]
  | a1 =>
    have zero : lib.count = 0 := by
      have := (tracks.a1 rfl).1
      omega
    simp [init, zero, memInit_refused lib null refused]

/-- What a later `malloc` leaves when it fails. -/
theorem init_partial (tracks : Tracks chip lib) (none : lib.outstanding = 0)
    (got : answers.managers .p = true)
    (refused : answers.managers .f = false ∨ answers.managers .t = false) :
    (lib.init chip answers).1 = false ∧ ((lib.init chip answers).2.manage .p).ptr = .live := by
  have null := tracks.gone none
  -- Both chips get to the managers with nothing held.
  cases chip with
  | t41 =>
    obtain ⟨low, high, _⟩ := tracks.t41 rfl
    have zero : lib.count = 0 := by omega
    have failed := memInit_partial { lib with count := 1 } null got refused
    cases result : ({ lib with count := 1 } : AipLib).memInit answers with
    | mk done left =>
      rw [result] at failed
      obtain ⟨rfl, manager, _⟩ := failed
      simpa [init, zero, result] using manager
  | a1 =>
    have zero : lib.count = 0 := by
      have := (tracks.a1 rfl).1
      omega
    have failed := memInit_partial lib null got refused
    cases result : lib.memInit answers with
    | mk done left =>
      rw [result] at failed
      obtain ⟨rfl, manager, _⟩ := failed
      simpa [init, zero, result] using manager

/-- What the first init leaves when it has got its managers. -/
theorem init_done (tracks : Tracks chip lib) (none : lib.outstanding = 0)
    (got : ∀ index, answers.managers index = true) :
    lib.init chip answers = (true, { lib.opened answers with
      count := 1
      leaked := 0
      dummy := if chip = .t41 then lib.dummy else if answers.dummy then .live else .null
      outstanding := 1 }) := by
  have null := tracks.gone none
  have idle := tracks.idle none
  have kept : (lib.opened answers).leaked = 0 := (opened_idle idle).1.trans tracks.kept
  have dummy : lib.dummy.held = 0 := held_zero.mpr idle.dummy
  -- The A1 has a dummy buffer besides, and does not count before it succeeds.
  cases chip with
  | t41 =>
    obtain ⟨low, high, _⟩ := tracks.t41 rfl
    have zero : lib.count = 0 := by omega
    have done := memInit_done { lib with count := 1 } null got
    simp only [init, zero]
    simp only [Int.zero_add, Int.reducePow, Int.reduceMod, Int.lt_irrefl, if_false, done]
    simp only [opened, forgetCaches, getIoaddr, none] at kept ⊢
    simp [kept]
  | a1 =>
    have zero : lib.count = 0 := by
      have := (tracks.a1 rfl).1
      omega
    have done := memInit_done lib null got
    simp only [init, zero, if_true, done]
    simp only [opened, forgetCaches, getIoaddr, none, zero, dummy] at kept ⊢
    simp [kept]

/-- The state behind the first init is sound exactly when everything was given. -/
theorem opened_sound (tracks : Tracks chip lib) {dummy : Ptr} {after : AipLib}
    (unused : chip = .t41 → dummy = .null) (is : after = { lib.opened answers with
      count := 1, leaked := 0, dummy := dummy, outstanding := 1 }) :
    (answers.opened = true ∧ answers.mapped = true ∧ (chip = .a1 → dummy = .live) → Tracks chip after) ∧
    (Sound chip after → answers.opened = true ∧ answers.mapped = true ∧ (chip = .a1 → dummy = .live)) := by
  subst is
  constructor
  · -- Whatever else was answered, the managers are fresh.
    intro given
    obtain ⟨opened, mapped, some⟩ := given
    have both := (opened_regs lib answers).mpr ⟨opened, mapped⟩
    exact
      { unbroken := tracks.unbroken
        kept := rfl
        live := fun _ => ⟨both.1, both.2, fun _ => AipManage.fresh_serving,
          fun _ => Ptr.noConfusion, some⟩
        idle := fun zero => absurd zero (Nat.succ_ne_zero _)
        t41 := fun _ => ⟨Int.one_nonneg, Int.le_refl _, by simp, fun _ => Int.one_ne_zero⟩
        a1 := fun _ => ⟨rfl, Nat.le_refl _⟩
        unused := unused
        gone := fun zero => absurd zero (Nat.succ_ne_zero _)
        empty := fun _ _ => rfl }
  · intro sound
    have live := sound.live (Nat.succ_ne_zero _)
    obtain ⟨opened, mapped⟩ := (opened_regs lib answers).mp ⟨live.regs, live.memFd⟩
    exact ⟨opened, mapped, live.dummy⟩

/-- A nested init of the T41 only counts, unless the counter wraps and the registers are lost. -/
theorem init_nested (answers : InitAnswers) (tracks : Tracks .t41 lib) (some : lib.outstanding ≠ 0) :
    if lib.count + 1 < 2 ^ 32 then
      lib.init .t41 answers =
        (true, { lib with count := lib.count + 1, outstanding := lib.outstanding + 1 })
    else (lib.init .t41 answers).1 = true ∧ (lib.init .t41 answers).2.leaked ≠ 0 := by
  obtain ⟨low, high, wide, positive⟩ := tracks.t41 rfl
  have counted := positive some
  have live := tracks.live some
  -- The counter has 32 bits, and at zero the library opens its files anew.
  split
  case isTrue within =>
    have same : (lib.count + 1) % 2 ^ 32 = lib.count + 1 := by omega
    simp only [init, same]
    rw [if_pos (by omega)]
  case isFalse wraps =>
    have zero : (lib.count + 1) % 2 ^ 32 = 0 := by omega
    have again := memInit_again { lib with count := 0 } answers
      fun index => (live.manager index).ptr
    simp only [init, zero, again]
    simp [getIoaddr, forgetCaches, Ptr.held, live.regs]

/-- A nested init of the A1 loses the dummy buffer. -/
theorem init_lost (tracks : Tracks .a1 lib) (some : lib.outstanding ≠ 0) :
    (lib.init .a1 answers).2.leaked ≠ 0 := by
  have counted : lib.count ≠ 0 := by
    have := (tracks.a1 rfl).1
    omega
  simp [init, counted, forgetCaches, Ptr.held, (tracks.live some).dummy rfl]

/-- An init that fits keeps the invariant and respects what is in use. -/
theorem tracks_init (tracks : Tracks chip lib) (fits : InitFits chip lib answers) :
    Tracks chip (lib.init chip answers).2 ∧
      Respects chip lib (.init answers) (lib.init chip answers).2 := by
  by_cases none : lib.outstanding = 0
  · -- The first init got everything, or it is one of the A1 that has got nothing.
    have cases : (chip = .a1 ∧ answers.managers .p = false) ∨
        (Given answers ∧ (chip = .a1 → answers.dummy = true)) := by
      cases chip with
      | t41 => exact .inr ⟨by simpa [InitFits, none] using fits, fun other => by cases other⟩
      | a1 =>
        rcases fits.2 with refused | ⟨given, dummy⟩
        · exact .inl ⟨rfl, refused⟩
        · exact .inr ⟨given, fun _ => dummy⟩
    rcases cases with ⟨rfl, refused⟩ | ⟨⟨got, opened, mapped⟩, dummy⟩
    · have same := init_refused tracks none refused
      simp only [reduceCtorEq, if_false] at same
      simp [Respects, same, tracks]
    · have done := init_done tracks none got
      simp only [Respects, done, if_true]
      have unused : chip = .t41 → (if chip = .t41 then lib.dummy
          else if answers.dummy then .live else .null) = .null :=
        fun t41 => (if_pos t41).trans (tracks.unused t41)
      refine ⟨(opened_sound tracks unused rfl).1 ⟨opened, mapped, fun a1 => ?_⟩,
        fun some => absurd none some⟩
      simp [a1, dummy a1]
  · cases chip with
    | a1 => exact absurd fits.1 none
    | t41 =>
      have within : lib.count + 1 < 2 ^ 32 := by simpa [InitFits, none] using fits
      have nested := init_nested answers tracks none
      rw [if_pos within] at nested
      simp only [Respects, nested, if_true]
      have live := tracks.live none
      obtain ⟨low, high, _, _⟩ := tracks.t41 rfl
      refine ⟨?_, fun _ => trivial⟩
      exact
        { unbroken := tracks.unbroken
          kept := tracks.kept
          live := fun _ => ⟨live.regs, live.memFd, live.manager, live.cache, live.dummy⟩
          idle := fun zero => absurd zero (Nat.succ_ne_zero _)
          t41 := fun _ => ⟨by dsimp only; omega, by dsimp only; omega, within, fun _ => by
            dsimp only; omega⟩
          a1 := fun other => by cases other
          unused := tracks.unused
          gone := fun zero => absurd zero (Nat.succ_ne_zero _)
          empty := tracks.empty }

/-- An init that leaves a sound state, and respects what is in use, fits. -/
theorem fits_init (tracks : Tracks chip lib) (sound : Sound chip (lib.init chip answers).2)
    (respects : Respects chip lib (.init answers) (lib.init chip answers).2) :
    InitFits chip lib answers := by
  by_cases none : lib.outstanding = 0
  · cases first : answers.managers .p with
    | false =>
      have same := init_refused tracks none first
      cases chip with
      | a1 => exact ⟨none, .inl first⟩
      | t41 =>
        -- The counter has moved although the init failed.
        simp only [Respects, same, Bool.false_eq_true, if_false, if_true] at respects
        have moved : (1 : Int) = lib.count := congrArg count respects
        obtain ⟨_, high, _⟩ := tracks.t41 rfl
        omega
    | true =>
      by_cases rest : answers.managers .f = true ∧ answers.managers .t = true
      · have got : ∀ index, answers.managers index = true := by
          intro index
          cases index with
          | p => exact first
          | t => exact rest.2
          | f => exact rest.1
        have done := init_done tracks none got
        rw [done] at sound
        obtain ⟨opened, mapped, dummy⟩ := (opened_sound tracks
          (fun t41 => (if_pos t41).trans (tracks.unused t41)) rfl).2 sound
        cases chip with
        | t41 => simpa [InitFits, none] using ⟨got, opened, mapped⟩
        | a1 =>
          refine ⟨none, .inr ⟨⟨got, opened, mapped⟩, ?_⟩⟩
          have live := dummy rfl
          simp only [reduceCtorEq, if_false] at live
          cases given : answers.dummy with
          | true => rfl
          | false => simp [given] at live
      · -- A manager has stayed though the init failed.
        have refused : answers.managers .f = false ∨ answers.managers .t = false := by
          simpa only [Decidable.not_and_iff_or_not, Bool.not_eq_true] using rest
        obtain ⟨failed, live⟩ := init_partial tracks none first refused
        simp only [Respects, failed, Bool.false_eq_true, if_false] at respects
        rw [respects, tracks.gone none] at live
        cases live
  · cases chip with
    | a1 => exact absurd sound.kept (init_lost tracks none)
    | t41 =>
      have nested := init_nested answers tracks none
      split at nested
      case isTrue within => simpa [InitFits, none] using within
      case isFalse => exact absurd sound.kept nested.2

end AipLib

end Aip
