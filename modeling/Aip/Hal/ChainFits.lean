import Aip.Hal.Chainbuf
import Aip.Lib.Runs

/-! When the descriptors of every call fit the buffer of its own unit, and no unit is put out of use. -/

namespace Aip

namespace Hal

/--
A call that succeeds has written inside the buffer mapped for its own manager, and one that is
refused because the chain is too long leaves the manager as it was.
-/
structure Serves (hal : Hal) (call : HalCall) (after : Hal) : Prop where
  inside : (hal.alloc call).ret = 0 → (after.manage call.index).ptr = .live ∧
    (writtenBytes call.index call.chainNum = 0 ∨ (after.manage call.index).buffer = .live ∧
      writtenBytes call.index call.chainNum ≤ (after.manage call.index).mapped)
  refused : (hal.alloc call).tooMuch = true → (after.manage call.index).fd = .live ∧
    (after.manage call.index).mapped = (hal.manage call.index).mapped ∧
    (after.manage call.index).size = (hal.manage call.index).size

/-- What the first call of a unit gets is mapped, and large enough for the chain. -/
def FirstFits (call : HalCall) : Prop :=
  0 < writtenBytes call.index call.chainNum → ∀ size ∈ call.answers.malloc,
    call.answers.mapped = true ∧ writtenBytes call.index call.chainNum ≤ size

/--
A later call asks for no more than the buffer of the unit that was opened last, and if it writes a
chain, the buffer of its own unit is mapped and large enough.
-/
def LaterFits (hal : Hal) (call : HalCall) : Prop :=
  chainSize call.index call.chainNum ≤ hal.chainBufSize ∧
    (0 < writtenBytes call.index call.chainNum → (hal.manage call.index).buffer = .live ∧
      writtenBytes call.index call.chainNum ≤ (hal.manage call.index).mapped)

/-- The condition on a call: it is the first one of its unit, or a later one. -/
def Fits (hal : Hal) (call : HalCall) : Prop :=
  if (hal.manage call.index).fdOpenCnt = 0 then
    -- A call that gets no descriptor or no buffer fails, and harms only those behind it.
    call.answers.opened = true → (call.chainNum = 0 ∨ call.answers.malloc ≠ none) →
      (hal.manage call.index).ptr = .live ∧ FirstFits call
  else (hal.manage call.index).ptr = .live ∧ LaterFits hal call

variable {hal after : Hal} {call : HalCall}

/-- A chain is written only when there is more than one node. -/
theorem writtenBytes_zero (index : AipIndex) : writtenBytes index 0 = 0 := by
  cases index <;> rfl

/-- An `int` is zero on 32 bits only if it is zero. -/
theorem chainNum_zero (possible : call.Possible) :
    (call.chainNum % 2 ^ 32).toNat = 0 ↔ call.chainNum = 0 := by
  have range := possible.1
  omega

/-- The states behind a call differ in its own manager, as the allocation leaves it. -/
theorem step_manage (taken : step hal call = some after) :
    call.Possible ∧ after.manage call.index = (hal.alloc call).manage := by
  simp only [step, Option.ite_none_right_eq_some, Option.some.injEq] at taken
  obtain ⟨possible, rfl⟩ := taken
  exact ⟨possible, if_pos rfl⟩

/-- How the first call of a unit ends. -/
theorem alloc_first (possible : call.Possible) (first : (hal.manage call.index).fdOpenCnt = 0) :
    (call.answers.opened = false ∧ (hal.alloc call).ret = -1 ∧ (hal.alloc call).tooMuch = false) ∨
    (call.answers.opened = true ∧ call.chainNum = 0 ∧ (hal.alloc call).ret = 0 ∧
      (hal.alloc call).tooMuch = false ∧
      (hal.alloc call).manage.ptr = (hal.manage call.index).ptr) ∨
    (call.answers.opened = true ∧ call.chainNum ≠ 0 ∧ call.answers.malloc = none ∧
      (hal.alloc call).ret = -1 ∧ (hal.alloc call).tooMuch = false) ∨
    ∃ size, call.answers.opened = true ∧ call.chainNum ≠ 0 ∧ call.answers.malloc = some size ∧
      (hal.alloc call).ret = 0 ∧ (hal.alloc call).tooMuch = false ∧
      (hal.alloc call).manage.ptr = (hal.manage call.index).ptr ∧
      (hal.alloc call).manage.buffer = .live ∧
      (hal.alloc call).manage.mapped = if call.answers.mapped then size else 0 := by
  have zero := chainNum_zero possible
  have start : (hal.prepared call).fdOpenCnt = 0 := first
  have length : (hal.prepared call).chainNum = (call.chainNum % 2 ^ 32).toNat := rfl
  simp only [alloc, aipChainbufAlloc, chainbufOpen, if_pos start, length, zero]
  -- The device is opened or not, and then the kernel gives a buffer or not.
  cases opened : call.answers.opened with
  | false => exact .inl ⟨rfl, rfl, rfl⟩
  | true =>
    by_cases none : call.chainNum = 0
    · refine .inr (.inl ⟨rfl, none, ?_⟩)
      simp only [Bool.true_eq_false, if_false, if_pos none, Nat.lt_irrefl]
      exact ⟨trivial, trivial, rfl⟩
    · cases given : call.answers.malloc with
      | none =>
        refine .inr (.inr (.inl ⟨rfl, none, rfl, ?_⟩))
        simp only [Bool.true_eq_false, if_false, if_neg none]
        exact ⟨trivial, trivial⟩
      | some size =>
        refine .inr (.inr (.inr ⟨size, rfl, none, rfl, ?_⟩))
        simp only [Bool.true_eq_false, if_false, if_neg none, Nat.lt_irrefl]
        exact ⟨trivial, trivial, rfl, trivial, trivial⟩

/-- How a later call ends: it keeps what the unit has, or is refused and closes the descriptor. -/
theorem alloc_later (hal : Hal) (later : (hal.manage call.index).fdOpenCnt ≠ 0) :
    if hal.chainBufSize < chainSize call.index call.chainNum then
      (hal.alloc call).ret = -1 ∧ (hal.alloc call).tooMuch = true ∧
        (hal.alloc call).manage.fd = .stale
    else
      (hal.alloc call).ret = 0 ∧ (hal.alloc call).tooMuch = false ∧
        (hal.alloc call).manage = hal.prepared call := by
  have open_ : (hal.prepared call).fdOpenCnt ≠ 0 := later
  have size : (hal.prepared call).size = chainSize call.index call.chainNum := rfl
  simp only [alloc, aipChainbufAlloc, chainbufOpen, if_neg open_, size]
  split
  · exact ⟨rfl, rfl, rfl⟩
  · exact ⟨rfl, rfl, rfl⟩

/-- A call that fails for another reason than its length promises nothing. -/
theorem serves_failed (ret : (hal.alloc call).ret = -1) (fine : (hal.alloc call).tooMuch = false) :
    Serves hal call after := by
  refine ⟨fun zero => ?_, fun refused => absurd (fine.symm.trans refused) Bool.false_ne_true⟩
  rw [ret] at zero
  cases zero

/-- A call serves its unit exactly when it fits. -/
theorem serves_iff (taken : step hal call = some after) : Serves hal call after ↔ Fits hal call := by
  obtain ⟨possible, left⟩ := step_manage taken
  rw [Fits]
  split
  case isTrue first =>
    rcases alloc_first possible first with ⟨closed, ret, fine⟩ | ⟨opened, none, ret, fine, ptr⟩ |
      ⟨opened, some, failed, ret, fine⟩ | ⟨size, opened, some, given, ret, fine, ptr, buffer, mapped⟩
    · constructor
      · intro _ opened
        rw [closed] at opened
        cases opened
      · intro _
        exact serves_failed ret fine
    · have nothing : writtenBytes call.index call.chainNum = 0 := none ▸ writtenBytes_zero _
      constructor
      · intro serves _ _
        refine ⟨?_, fun written => absurd nothing (Nat.ne_of_gt written)⟩
        rw [← ptr, ← left]
        exact (serves.inside ret).1
      · intro fits
        refine ⟨fun _ => ⟨?_, .inl nothing⟩,
          fun refused => absurd (fine.symm.trans refused) Bool.false_ne_true⟩
        rw [left, ptr]
        exact (fits opened (.inl none)).1
    · constructor
      · intro _ _ given
        rcases given with zero | got
        · exact absurd zero some
        · exact absurd failed got
      · intro _
        exact serves_failed ret fine
    · constructor
      · intro serves _ _
        obtain ⟨live, written⟩ := serves.inside ret
        rw [left] at live written
        refine ⟨ptr ▸ live, fun positive other same => ?_⟩
        cases given.symm.trans same
        rcases written with zero | ⟨_, inside⟩
        · exact absurd zero (Nat.ne_of_gt positive)
        · rw [mapped] at inside
          -- Nothing positive fits a mapping that has failed.
          split at inside
          case isTrue good => exact ⟨good, inside⟩
          case isFalse => exact absurd inside (Nat.not_le_of_gt positive)
      · intro fits
        obtain ⟨live, fit⟩ := fits opened (.inr (by rw [given]; simp))
        refine ⟨fun _ => ?_, fun refused => absurd (fine.symm.trans refused) Bool.false_ne_true⟩
        rw [left]
        refine ⟨ptr ▸ live, ?_⟩
        rcases Nat.eq_zero_or_pos (writtenBytes call.index call.chainNum) with zero | positive
        · exact .inl zero
        · obtain ⟨good, inside⟩ := fit positive size given
          exact .inr ⟨buffer, by rw [mapped, if_pos good]; exact inside⟩
  case isFalse later =>
    have ends := alloc_later hal later
    split at ends
    case isTrue tooMuch =>
      obtain ⟨_, refused, closed⟩ := ends
      constructor
      · intro serves
        have kept := (serves.refused refused).1
        rw [left, closed] at kept
        cases kept
      · intro fits
        exact absurd fits.2.1 (Nat.not_le_of_gt tooMuch)
    case isFalse enough =>
      obtain ⟨ret, fine, same⟩ := ends
      constructor
      · intro serves
        obtain ⟨live, written⟩ := serves.inside ret
        rw [left, same] at live written
        refine ⟨live, Nat.le_of_not_lt enough, fun positive => ?_⟩
        exact written.resolve_left (Nat.ne_of_gt positive)
      · intro fits
        obtain ⟨live, _, fit⟩ := fits
        refine ⟨fun _ => ?_, fun refused => absurd (fine.symm.trans refused) Bool.false_ne_true⟩
        rw [left, same]
        refine ⟨live, ?_⟩
        rcases Nat.eq_zero_or_pos (writtenBytes call.index call.chainNum) with zero | positive
        · exact .inl zero
        · exact .inr (fit positive)

/--
In every run of calls behind `aip_mem_init` each call that succeeds writes inside the buffer of its
own unit and each refused one leaves its unit in use, exactly when every call of the run fits.
-/
theorem serves_always_iff (chainBufSize : Nat) (run : List HalCall) :
    Runs.Each step Serves (init chainBufSize) run ↔
      Runs.Each step (fun hal call _ => Fits hal call) (init chainBufSize) run :=
  Runs.each_congr (I := fun _ => True) (fun _ _ _ _ _ => trivial)
    (fun _ _ _ _ taken => serves_iff taken) trivial

/-- The F unit is opened for two nodes, the P unit for a thousand, and the F unit gets a thousand. -/
def sharedRun : List HalCall :=
  [⟨.f, 2, ⟨true, some 8192, true⟩⟩, ⟨.p, 1000, ⟨true, some 221184, true⟩⟩,
    ⟨.f, 1000, ⟨true, none, true⟩⟩]

/-- The longer chain of the F unit is measured by the buffer of the P unit, and overruns its own. -/
theorem serves_shared : ¬ Runs.Each step Serves (init 0) sharedRun := by
  intro each
  obtain ⟨_, each⟩ := each _ rfl
  obtain ⟨_, each⟩ := each _ rfl
  obtain ⟨serves, _⟩ := each _ rfl
  -- The last call returns 0, with 104000 bytes written to a mapping of 8192.
  have written := (serves.inside rfl).2
  revert written
  decide

end Hal

end Aip
