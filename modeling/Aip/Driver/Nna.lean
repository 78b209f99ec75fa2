import Aip.Lib.Idr

/-! The NNA lock and the NNA memory of the device, `jz_nna_v20_core.c`. -/

namespace Aip

/--
The fields of `struct jz_aip_v20_dev` behind the NNA lock.

The mutex is free or names the process that locked it, which the kernel's mutex does not tell the
driver. Each job list entry is the `pid` of a `struct jz_nna_v20_exec_info`. The spinlock is recorded
as left locked when a section ends without unlocking it.
-/
structure Nna where
  nnaMutex : Option Nat
  nnaJobLock : Bool
  nnaJobList : List Nat
  nnaPid : Nat
  deriving DecidableEq, Repr

namespace Nna

/-- The lock as `jz_nna_v20_core_init` leaves it. -/
def init : Nna := { nnaMutex := none, nnaJobLock := false, nnaJobList := [], nnaPid := 0 }

/-- The part of `jz_nna_lock` under the spinlock, whose caller has the mutex and a zeroed entry. -/
def lockJob (nna : Nna) (pid : Nat) : Option Nna :=
  if nna.nnaJobLock then none
  else some { nna with nnaPid := pid, nnaJobList := nna.nnaJobList ++ [pid] }

/-- Take the first entry of a process off the job list and unlock the mutex, if there is one. -/
def dropJob (nna : Nna) (pid : Nat) : Nna :=
  if pid ∈ nna.nnaJobList then
    { nna with nnaJobList := nna.nnaJobList.erase pid, nnaMutex := none }
  else nna

/-- `jz_nna_unlock`; it has no result when it spins on the spinlock. -/
def unlock (nna : Nna) (pid : Nat) (force : Bool) : Option Nna :=
  -- `-EFAULT`, "NNA mutex unlock by other proc."
  if !force ∧ nna.nnaPid ≠ pid then some nna
  else if nna.nnaJobLock then none
  else if nna.nnaMutex.isSome then some (nna.dropJob nna.nnaPid)
  -- `-EFAULT` is returned with the spinlock held.
  else if !force then some { nna with nnaJobLock := true }
  else some nna

/-- `AIP_ACTION_CTX_UNLOCK`; unlocking a free mutex leaves it free. -/
def ctxUnlock (nna : Nna) : Nna := { nna with nnaMutex := none }

/-- The part of `jz_nna_v20_release` under the spinlock. -/
def release (nna : Nna) (pid : Nat) : Option Nna :=
  if nna.nnaJobLock then none else some (nna.dropJob pid)

/-- A call that gets the spinlock enters its process on the list. -/
theorem lockJob_eq_some {nna after : Nna} {pid : Nat} : nna.lockJob pid = some after ↔
    nna.nnaJobLock = false ∧
      after = { nna with nnaPid := pid, nnaJobList := nna.nnaJobList ++ [pid] } := by
  -- Without the spinlock the call has no result.
  cases lock : nna.nnaJobLock <;> simp [lockJob, lock, eq_comm]

/-- A release that gets the spinlock drops the entry of the process. -/
theorem release_eq_some {nna after : Nna} {pid : Nat} : nna.release pid = some after ↔
    nna.nnaJobLock = false ∧ after = nna.dropJob pid := by
  -- Without the spinlock the release has no result.
  cases lock : nna.nnaJobLock <;> simp [release, lock, eq_comm]

/-- An unlock does nothing, or drops the entry of the last owner, or leaves the spinlock taken. -/
theorem unlock_cases {nna after : Nna} {pid : Nat} {force : Bool}
    (unlocked : nna.unlock pid force = some after) : after = nna ∨
      (nna.nnaJobLock = false ∧ (force = true ∨ nna.nnaPid = pid) ∧ nna.nnaMutex.isSome ∧
        after = nna.dropJob nna.nnaPid) ∨
      (nna.nnaJobLock = false ∧ nna.nnaMutex = none ∧ after = { nna with nnaJobLock := true }) := by
  unfold unlock at unlocked
  split at unlocked
  · cases unlocked
    exact .inl rfl
  case isFalse owner =>
    split at unlocked
    · cases unlocked
    case isFalse free =>
      have free : nna.nnaJobLock = false := by simpa using free
      split at unlocked
      case isTrue taken =>
        cases unlocked
        refine .inr (.inl ⟨free, ?_, taken, rfl⟩)
        -- A call without force has been compared with the last owner.
        cases force with
        | true => exact .inl rfl
        | false => exact .inr (by simpa using owner)
      case isFalse idle =>
        split at unlocked <;> cases unlocked
        · exact .inr (.inr ⟨free, by simpa using idle, rfl⟩)
        · exact .inl rfl

end Nna

/-- `struct jz_nna_v20_oram`. -/
structure OramInfo where
  pid : Nat
  kvaddr : Nat
  size : Nat
  deriving DecidableEq, Repr, Inhabited

/-- The handles of the chunks taken from the NNA memory pool, `nna_oram_handles`. -/
abbrev OramTable := Idr OramInfo

namespace OramTable

/-- A size rounded up to the granularity of the NNA DMA, `round_up(oram->size, 64)` on 32 bits. -/
def roundUp (size : Nat) : Nat := (size + 63) / 64 * 64 % 2 ^ 32

/-- A successful `NNA_OP_ORAM_ALLOC`, given the pool's and the allocator's answers. -/
def oramAlloc (oram : OramTable) (pid size kvaddr id : Nat) : Option OramTable :=
  oram.alloc id { pid := pid, kvaddr := kvaddr, size := roundUp size }

/-- `NNA_OP_ORAM_FREE`. -/
def oramFree (oram : OramTable) (handle : Nat) : OramTable := oram.remove handle

/-- The part of `jz_nna_v20_release` that frees the chunks of a process. -/
def release (oram : OramTable) (pid : Nat) : OramTable :=
  oram.removeIf fun _ info => info.pid = pid

end OramTable

end Aip
