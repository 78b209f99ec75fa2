import Aip.Hal.Library

/-! What each call of the library does to the managers, the caches and the registers. -/

namespace Aip

namespace AipManage

/-- The chain buffer is mapped as a whole, or there is none. -/
def Whole (manage : AipManage) : Prop :=
  (manage.buffer = .live ∧ 0 < manage.mapped) ∨ (manage.buffer = .null ∧ manage.mapped = 0)

/-- A manager that is there, and has exactly what its count of open descriptors says. -/
structure Serving (manage : AipManage) : Prop where
  ptr : manage.ptr = .live
  opened : manage.fdOpenCnt ≠ 0 → manage.fd = .live ∧ manage.Whole
  closed : manage.fdOpenCnt = 0 → manage.fd ≠ .live ∧ manage.buffer = .null ∧ manage.mapped = 0

/-- The device opens and what the kernel gives is mapped, or an opened unit has enough. -/
def Allocates (chainBufSize : Nat) (manage : AipManage) (answers : ChainbufAnswers) : Prop :=
  if manage.fdOpenCnt = 0 then
    answers.opened = true ∧
      (manage.chainNum ≠ 0 → ∀ size ∈ answers.malloc, answers.mapped = true ∧ 0 < size)
  else manage.size ≤ chainBufSize

/-- The last call of the unit has recorded the size of the mapping, if there is one. -/
def Covered (manage : AipManage) : Prop :=
  manage.fdOpenCnt ≠ 0 →
    pages manage.mapped = if manage.chainNum = 0 then 0 else pages manage.size

variable {manage : AipManage} {answers : ChainbufAnswers} {chainBufSize : Nat}

/-- A new manager serves. -/
theorem fresh_serving : fresh.Serving :=
  ⟨rfl, fun opened => absurd rfl opened, fun _ => ⟨by decide, rfl, rfl⟩⟩

/-- A serving manager is left serving exactly when it allocates. -/
theorem serving_alloc (chainBufSize : Nat) (answers : ChainbufAnswers)
    (serving : manage.Serving) :
    (aipChainbufAlloc chainBufSize manage answers).manage.Serving ↔
      manage.Allocates chainBufSize answers := by
  by_cases first : manage.fdOpenCnt = 0
  · obtain ⟨_, none, unmapped⟩ := serving.closed first
    simp only [aipChainbufAlloc, chainbufOpen, Allocates, if_pos first]
    cases opened : answers.opened with
    | false =>
      -- The structure has been freed.
      constructor
      · intro left
        cases left.ptr
      · intro allocates
        cases allocates.1
    | true =>
      by_cases single : manage.chainNum = 0
      · simp only [Bool.true_eq_false, if_false, if_pos single, Nat.lt_irrefl]
        refine ⟨fun _ => ⟨trivial, fun some => absurd single some⟩, fun _ => ?_⟩
        exact ⟨serving.ptr, fun _ => ⟨rfl, .inr ⟨none, unmapped⟩⟩,
          fun zero => absurd zero (Nat.succ_ne_zero _)⟩
      · simp only [Bool.true_eq_false, if_false, if_neg single]
        cases given : answers.malloc with
        | none =>
          -- Nothing was handed out, and the descriptor is closed again.
          refine ⟨fun _ => ⟨trivial, fun _ size got => by cases got⟩, fun _ => ?_⟩
          refine ⟨serving.ptr, fun some => absurd first some, fun _ => ⟨Ptr.noConfusion, ?_, unmapped⟩⟩
          simp [close, none]
        | some size =>
          simp only [Nat.lt_irrefl, if_false]
          constructor
          · intro left
            refine ⟨trivial, fun _ size' got => ?_⟩
            cases got
            obtain ⟨_, whole⟩ := left.opened (Nat.succ_ne_zero _)
            rcases whole with ⟨_, some⟩ | ⟨buffer, _⟩
            · cases mapped : answers.mapped with
              | false => simp [mapped] at some
              | true => exact ⟨rfl, by simpa [mapped] using some⟩
            · cases buffer
          · intro allocates
            obtain ⟨mapped, some⟩ := allocates.2 single size rfl
            exact ⟨serving.ptr, fun _ => ⟨rfl, .inl ⟨rfl, by simpa [mapped] using some⟩⟩,
              fun zero => absurd zero (Nat.succ_ne_zero _)⟩
  · simp only [aipChainbufAlloc, chainbufOpen, Allocates, if_neg first]
    split
    case isTrue much =>
      -- The descriptor is closed while its count stays.
      constructor
      · intro left
        cases (left.opened first).1
      · intro fits
        omega
    case isFalse fits => exact ⟨fun _ => by omega, fun _ => serving⟩

/-- A manager that allocates is not told that the chain is too long. -/
theorem tooMuch_alloc (allocates : manage.Allocates chainBufSize answers) :
    (aipChainbufAlloc chainBufSize manage answers).tooMuch = false := by
  -- The first allocation sets the limit, and a later one is held against it.
  by_cases first : manage.fdOpenCnt = 0
  · simp only [Allocates, if_pos first] at allocates
    simp only [aipChainbufAlloc, chainbufOpen, if_pos first, allocates.1, Bool.true_eq_false,
      if_false]
    by_cases single : manage.chainNum = 0
    · simp [if_pos single]
    · cases answers.malloc <;> simp [if_neg single]
  · simp only [Allocates, if_neg first] at allocates
    simp [aipChainbufAlloc, chainbufOpen, if_neg first, Nat.not_lt.mpr allocates]

/-- Whole pages are taken away from a mapping without a rest exactly when they reach its end. -/
theorem pages_rest (mapped size : Nat) :
    mapped - 4096 * pages size = 0 ↔ pages mapped ≤ pages size := by
  simp only [pages]
  omega

/-- A serving manager gives everything back, once, exactly when it is covered. -/
theorem chainbufFree_iff (serving : manage.Serving) :
    (manage.chainbufFree.1.held = 0 ∧ manage.chainbufFree.2 = false) ↔ manage.Covered := by
  -- By what the manager has: no file, one whole buffer, or one cut into chains.
  by_cases first : manage.fdOpenCnt = 0
  · obtain ⟨fd, buffer, mapped⟩ := serving.closed first
    simp [chainbufFree, Covered, first, held, Ptr.held, fd, buffer, mapped]
  · obtain ⟨fd, whole⟩ := serving.opened first
    have some : 0 < manage.fdOpenCnt := Nat.pos_of_ne_zero first
    by_cases single : manage.chainNum = 0
    · have rest : pages manage.mapped = 0 ↔ manage.mapped = 0 := by
        simp only [pages]
        omega
      rcases whole with ⟨buffer, mapped⟩ | ⟨buffer, mapped⟩
      · simp [chainbufFree, Covered, first, some, single, held, Ptr.held, fd, buffer, rest, mapped,
          Nat.ne_of_gt mapped]
      · simp [chainbufFree, Covered, first, some, single, held, Ptr.held, fd, buffer, mapped, pages]
    · have rest := pages_rest manage.mapped manage.size
      have gone : (if manage.buffer = .live then Ptr.stale else manage.buffer) ≠ .live := by
        split
        · exact Ptr.noConfusion
        · assumption
      simp only [chainbufFree, Covered, if_pos some, if_neg single, held, Ptr.held, fd, if_neg gone]
      simp only [reduceCtorEq, if_false, Nat.zero_add, ne_eq, not_true_eq_false, false_or,
        decide_eq_false_iff_not, Nat.not_lt, first, not_false_eq_true, forall_const]
      constructor
      · intro both
        split at both <;> omega
      · intro same
        exact ⟨by rw [if_neg (by omega)], by omega⟩

end AipManage

namespace AipLib

variable {lib : AipLib} {answers : InitAnswers} {chip : Chip}

/-- The first `malloc` fails, and nothing has happened. -/
theorem memInit_refused (lib : AipLib) (null : ∀ index, lib.manage index = .null)
    (refused : answers.managers .p = false) : lib.memInit answers = (false, lib) := by
  simp [memInit, allocManager, null, refused, AipManage.null]

/-- A later `malloc` fails, and the first manager stays. -/
theorem memInit_partial (lib : AipLib) (null : ∀ index, lib.manage index = .null)
    (got : answers.managers .p = true)
    (refused : answers.managers .f = false ∨ answers.managers .t = false) :
    (lib.memInit answers).1 = false ∧ ((lib.memInit answers).2.manage .p).ptr = .live ∧
      (lib.memInit answers).2.outstanding = lib.outstanding := by
  cases second : answers.managers .f with
  | false => simp [memInit, allocManager, null, got, second, AipManage.null, setManage,
      AipManage.fresh]
  | true =>
    have third : answers.managers .t = false := by simpa [second] using refused
    simp [memInit, allocManager, null, got, second, third, AipManage.null, setManage,
      AipManage.fresh]

/-- All three managers are there, and the registers are asked for. -/
theorem memInit_done (lib : AipLib) (null : ∀ index, lib.manage index = .null)
    (got : ∀ index, answers.managers index = true) :
    lib.memInit answers =
      (true, ({ lib with manage := fun _ => .fresh } : AipLib).getIoaddr answers) := by
  have all : (fun other : AipIndex => if other = .t then AipManage.fresh else
      if other = .f then .fresh else if other = .p then .fresh else .null) = fun _ => .fresh := by
    funext index
    cases index <;> rfl
  simp [memInit, allocManager, null, got, AipManage.null, setManage]
  exact congrArg (fun manage => ({ lib with manage := manage } : AipLib).getIoaddr answers) all

/-- Managers that are there already are kept, and only the registers are asked for. -/
theorem memInit_again (lib : AipLib) (answers : InitAnswers)
    (live : ∀ index, (lib.manage index).ptr = .live) :
    lib.memInit answers = (true, lib.getIoaddr answers) := by
  simp [memInit, allocManager, live]

/-- A cache set to what it is. -/
theorem setCache_self (index : CacheIndex) : lib.setCache index (lib.cache index) = lib := by
  have same : (fun other => if other = index then lib.cache index else lib.cache other) =
      lib.cache := by
    funext other
    split
    case isTrue equal => rw [equal]
    case isFalse => rfl
  simp only [setCache, same]

@[simp] theorem freeCache_count (index : CacheIndex) :
    (lib.freeCache index).count = lib.count := by
  simp only [freeCache, releasing, setCache]
  split <;> rfl

@[simp] theorem freeCache_regs (index : CacheIndex) : (lib.freeCache index).regs = lib.regs := by
  simp only [freeCache, releasing, setCache]
  split <;> rfl

@[simp] theorem freeCache_outstanding (index : CacheIndex) :
    (lib.freeCache index).outstanding = lib.outstanding := by
  simp only [freeCache, releasing, setCache]
  split <;> rfl

@[simp] theorem freeManager_regs (index : AipIndex) :
    (lib.freeManager index).regs = lib.regs := by
  simp only [freeManager, releasing, setManage]
  split <;> rfl

@[simp] theorem freeManager_outstanding (index : AipIndex) :
    (lib.freeManager index).outstanding = lib.outstanding := by
  simp only [freeManager, releasing, setManage]
  split <;> rfl

/-- Caches that are not dangling are freed once each. -/
theorem freeCaches_eq (kept : ∀ index, (lib.cache index).ptr ≠ .stale) :
    lib.freeCaches = { lib with
      cache := fun index => if (lib.cache index).ptr = .null then lib.cache index
        else { lib.cache index with ptr := .stale } } := by
  -- Freeing a cache marks it, and leaves the others alone.
  have one : ∀ (lib : AipLib) (index : CacheIndex), (lib.cache index).ptr ≠ .stale →
      lib.freeCache index = lib.setCache index (if (lib.cache index).ptr = .null
        then lib.cache index else { lib.cache index with ptr := .stale }) := by
    intro lib index kept
    simp only [freeCache]
    split
    · exact (setCache_self index).symm
    · simp [setCache, releasing, kept]
  rw [freeCaches, one _ _ (kept _), one _ .anode, one _ .fnode]
  · simp only [setCache]
    congr 1
    funext index
    cases index <;> simp
  · simpa [setCache] using kept _
  · simpa [setCache] using kept _

/-- A manager that is there is freed with what it has. -/
theorem freeManager_eq {index : AipIndex} (live : (lib.manage index).ptr = .live) :
    lib.freeManager index = { lib.setManage index .null with
      leaked := lib.leaked + (lib.manage index).chainbufFree.1.held
      broken := lib.broken || (lib.manage index).chainbufFree.2 } := by
  simp [freeManager, live, releasing, setManage]

/-- A manager is freed without the others. -/
theorem freeManager_other {index other : AipIndex} (differ : other ≠ index) :
    (lib.freeManager index).manage other = lib.manage other := by
  simp only [freeManager, releasing, setManage]
  split
  · rfl
  · exact if_neg differ

/-- The managers and the registers are given back when all of them are there. -/
theorem memFree_eq (live : ∀ index, (lib.manage index).ptr = .live) (regs : lib.regs = .live)
    (memFd : lib.memFd = .live) :
    lib.memFree .t41 = { lib with
      regs := .stale
      memFd := .stale
      manage := fun _ => .null
      leaked := lib.leaked + (lib.manage .p).chainbufFree.1.held +
        (lib.manage .f).chainbufFree.1.held + (lib.manage .t).chainbufFree.1.held
      broken := lib.broken || (lib.manage .p).chainbufFree.2 ||
        (lib.manage .f).chainbufFree.2 || (lib.manage .t).chainbufFree.2 } := by
  -- Each free finds its manager as it was, since it is not the one freed before.
  rw [memFree, freeManager_eq, freeManager_eq, freeManager_eq]
  · simp only [releaseIoaddr, setManage, live, regs, memFd]
    simp only [reduceCtorEq, if_false, if_true, ne_eq, not_true_eq_false, or_self, decide_false,
      Bool.or_false]
    congr 1
    funext index
    cases index <;> rfl
  · exact live .p
  · rw [freeManager_other (by decide)]
    exact live .f
  · rw [freeManager_other (by decide), freeManager_other (by decide)]
    exact live .t

end AipLib

end Aip
