import Aip.Lib.Idr

/-! The buffer objects of the device, `jz_aip_v20_bo.c`. -/

namespace Aip

/-- A process as the driver sees it: `task_tgid_nr` and `task_tgid_vnr` of its threads. -/
structure Task where
  nr : Nat
  vnr : Nat
  deriving DecidableEq, Repr, Inhabited

/-- `struct jz_aip_v20_bo_info`; the reference stands for the address of the record. -/
structure BoInfo where
  ref : Nat
  pid : Nat
  dma : Nat
  size : Nat
  deriving DecidableEq, Repr, Inhabited

/-- Two regions of DMA memory share no byte. -/
def BoInfo.Apart (a b : BoInfo) : Prop := a.dma + a.size ≤ b.dma ∨ b.dma + b.size ≤ a.dma

instance (a b : BoInfo) : Decidable (BoInfo.Apart a b) :=
  inferInstanceAs (Decidable (_ ∨ _))

/-- The region lies in 32-bit memory, and the record counter is ahead of the record. -/
structure BoInfo.Placed (nextRef : Nat) (bo : BoInfo) : Prop where
  known : bo.ref < nextRef
  nonempty : 0 < bo.size
  inside : bo.dma + bo.size ≤ 2 ^ 32

/-- The buffer objects registered in `bo_handles`, with records and regions that never coincide. -/
structure BoTable where
  handles : Idr BoInfo
  nextRef : Nat
  distinct : (handles.values.map BoInfo.ref).Nodup
  placed : ∀ bo ∈ handles.values, bo.Placed nextRef
  apart : handles.values.Pairwise BoInfo.Apart

namespace BoTable

/-- The table as `jz_aip_v20_bo_init` leaves it. -/
def init : BoTable where
  handles := .empty
  nextRef := 0
  distinct := by simp
  placed := by simp
  apart := by simp

/-- A size rounded up to whole pages, `round_up(size, PAGE_SIZE)` on 32 bits. -/
def roundUp (size : Nat) : Nat := (size + 4095) / 4096 * 4096 % 2 ^ 32

/-- A region that `dma_alloc_writecombine` may answer with: in memory and apart from all live ones. -/
def Free (table : BoTable) (bo : BoInfo) : Prop :=
  0 < bo.size ∧ bo.dma + bo.size ≤ 2 ^ 32 ∧ ∀ other ∈ table.handles.values, other.Apart bo

instance (table : BoTable) (bo : BoInfo) : Decidable (table.Free bo) :=
  inferInstanceAs (Decidable (_ ∧ _ ∧ _))

/--
A successful `jz_aip_v20_bo_append`, given the region and the handle that the kernel answers with.

An answer that the kernel cannot give has no result, and a failing call changes nothing.
-/
def append (table : BoTable) (pid size dma id : Nat) : Option BoTable :=
  let bo : BoInfo := { ref := table.nextRef, pid := pid, dma := dma, size := roundUp size }
  if free : table.Free bo then
    match entered : table.handles.alloc id bo with
    | none => none
    | some grown =>
      some {
        handles := grown
        nextRef := table.nextRef + 1
        distinct := by
          rw [Idr.alloc_values entered, List.map_append, List.nodup_append]
          refine ⟨table.distinct, by simp, ?_⟩
          rintro ref member new listed rfl
          have fresh : ref = table.nextRef := by simpa using listed
          obtain ⟨old, live, same⟩ := List.mem_map.mp member
          have known := (table.placed old live).known
          omega
        placed := by
          intro other member
          rw [Idr.alloc_values entered] at member
          rcases List.mem_append.mp member with live | new
          · exact { table.placed other live with
              known := Nat.lt_succ_of_lt (table.placed other live).known }
          · rw [List.mem_singleton.mp new]
            exact ⟨Nat.lt_succ_self _, free.1, free.2.1⟩
        apart := by
          rw [Idr.alloc_values entered, List.pairwise_append]
          refine ⟨table.apart, by simp, ?_⟩
          intro other live new listed
          rw [List.mem_singleton.mp listed]
          exact free.2.2 other live }
  else none

/-- Remove the buffer objects that a test selects and free them, `jz_aip_v20_bo_remove`. -/
def removeIf (table : BoTable) (drop : Nat → BoInfo → Bool) : BoTable where
  handles := table.handles.removeIf drop
  nextRef := table.nextRef
  distinct := table.distinct.sublist ((table.handles.removeIf_values drop).map _)
  placed := fun bo member => table.placed bo ((table.handles.removeIf_values drop).subset member)
  apart := table.apart.sublist (table.handles.removeIf_values drop)

/-- `jz_aip_v20_bo_destroy`: the object under the handle, if there is one, is freed. -/
def destroy (table : BoTable) (handle : Nat) : BoTable :=
  table.removeIf fun id _ => id = handle

/-- `jz_aip_v20_bo_release`: every object of the process is freed. -/
def release (table : BoTable) (pid : Nat) : BoTable :=
  table.removeIf fun _ bo => bo.pid = pid

/-- The record is registered, so it has not been freed. -/
def Live (table : BoTable) (ref : Nat) : Prop := ∃ bo ∈ table.handles.values, bo.ref = ref

/-- A record found under a handle is live. -/
theorem live_of_find {table : BoTable} {id : Nat} {bo : BoInfo}
    (found : table.handles.find id = some bo) : table.Live bo.ref :=
  ⟨bo, Idr.mem_values_of_find found, rfl⟩

/-- The table after a successful append. -/
theorem append_spec {table grown : BoTable} {pid size dma id : Nat}
    (taken : table.append pid size dma id = some grown) :
    table.Free ⟨table.nextRef, pid, dma, roundUp size⟩ ∧
    table.handles.alloc id ⟨table.nextRef, pid, dma, roundUp size⟩ = some grown.handles ∧
    grown.nextRef = table.nextRef + 1 := by
  -- Both tests of the kernel's answer have passed when there is a result.
  simp only [BoTable.append] at taken
  split at taken
  case isFalse => cases taken
  case isTrue free =>
    split at taken
    · cases taken
    · cases taken
      exact ⟨free, by assumption, rfl⟩

/-- Appending frees nothing. -/
theorem Live.append {table grown : BoTable} {pid size dma id ref : Nat} (live : table.Live ref)
    (taken : table.append pid size dma id = some grown) : grown.Live ref := by
  -- The record stays among the old objects of the grown table.
  obtain ⟨bo, member, same⟩ := live
  refine ⟨bo, ?_, same⟩
  rw [Idr.alloc_values (append_spec taken).2.1]
  exact List.mem_append_left _ member

/-- A record stands under one handle. -/
theorem find_ref {table : BoTable} {id other : Nat} {bo object : BoInfo}
    (found : table.handles.find id = some bo) (found' : table.handles.find other = some object)
    (same : object.ref = bo.ref) : other = id ∧ object = bo := by
  -- Records are distinct, so two entries with one record are one entry.
  have distinct := table.distinct
  rw [Idr.values, List.map_map] at distinct
  have entry := List.inj_on_of_nodup_map distinct (Idr.find_eq_some.mp found')
    (Idr.find_eq_some.mp found) same
  exact ⟨congrArg Prod.fst entry, congrArg Prod.snd entry⟩

/-- The selected objects are those whose records a removal frees. -/
theorem live_removeIf {table : BoTable} {drop : Nat → BoInfo → Bool} {ref : Nat} :
    (table.removeIf drop).Live ref
      ↔ table.Live ref ∧ ∀ id bo, table.handles.find id = some bo → bo.ref = ref →
        drop id bo = false := by
  constructor
  · -- The entry that is left is the only one with this record.
    intro given
    obtain ⟨bo, member, rfl⟩ := given
    obtain ⟨id, found, kept⟩ := Idr.mem_removeIf_values.mp member
    refine ⟨live_of_find found, fun other object listed same => ?_⟩
    obtain ⟨rfl, rfl⟩ := find_ref found listed same
    exact kept
  · -- The record has an entry, and that entry was not selected.
    intro given
    obtain ⟨⟨bo, member, rfl⟩, kept⟩ := given
    obtain ⟨id, found⟩ := Idr.exists_find member
    exact ⟨bo, Idr.mem_removeIf_values.mpr ⟨id, found, kept id bo found rfl⟩, rfl⟩

end BoTable

end Aip
