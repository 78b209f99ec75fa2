import Mathlib.Algebra.Order.Ring.Int
import Mathlib.Algebra.Order.Ring.Nat
import Mathlib.Data.List.Nodup

/-! Tables of objects under small positive handles, as an identity allocator keeps them. -/

/-- A table in which every handle is positive and stands for one object. -/
structure Idr (α : Type*) where
  entries : List (Nat × α)
  nodup : (entries.map Prod.fst).Nodup
  positive : ∀ entry ∈ entries, 0 < entry.1

namespace Idr

variable {α : Type*}

/-- The table without handles. -/
def empty : Idr α := ⟨[], List.nodup_nil, by simp⟩

/-- The object a handle stands for. -/
def find (table : Idr α) (id : Nat) : Option α :=
  (table.entries.find? fun entry => entry.1 = id).map Prod.snd

/-- The objects in the table. -/
def values (table : Idr α) : List α := table.entries.map Prod.snd

/-- Enter an object under a handle, which the allocator may pick from those not in use. -/
def alloc (table : Idr α) (id : Nat) (value : α) : Option (Idr α) :=
  if allowed : 0 < id ∧ id ∉ table.entries.map Prod.fst then
    some {
      entries := table.entries ++ [(id, value)]
      nodup := by
        rw [List.map_append, List.nodup_append]
        refine ⟨table.nodup, by simp, ?_⟩
        rintro other member same listed rfl
        have fresh : other = id := by simpa using listed
        exact allowed.2 (fresh ▸ member)
      positive := by
        intro entry member
        rcases List.mem_append.mp member with old | new
        · exact table.positive entry old
        · rw [List.mem_singleton.mp new]
          exact allowed.1 }
  else none

/-- Take out the entries that a test selects. -/
def removeIf (table : Idr α) (drop : Nat → α → Bool) : Idr α where
  entries := table.entries.filter fun entry => !drop entry.1 entry.2
  nodup := table.nodup.sublist (List.filter_sublist.map _)
  positive := fun entry member => table.positive entry (List.mem_of_mem_filter member)

/-- Take out one handle. -/
def remove (table : Idr α) (id : Nat) : Idr α := table.removeIf fun other _ => other = id

/-- No handle is in use. -/
def isEmpty (table : Idr α) : Bool := table.entries.isEmpty

@[simp] theorem values_empty : (empty : Idr α).values = [] := rfl

/-- Looking a handle up finds its entry. -/
theorem find_eq_some {table : Idr α} {id : Nat} {value : α} :
    table.find id = some value ↔ (id, value) ∈ table.entries := by
  constructor
  · -- The search reports both membership and the handle it compared with.
    intro found
    obtain ⟨⟨other, object⟩, first, rfl⟩ := Option.map_eq_some_iff.mp found
    have same : other = id := by simpa using List.find?_some first
    exact same ▸ List.mem_of_find?_eq_some first
  · intro member
    -- Handles are distinct, so the first entry with this handle is the one listed.
    cases found : table.entries.find? (fun entry => entry.1 = id) with
    | none =>
      have absent := List.find?_eq_none.mp found (id, value) member
      simp at absent
    | some entry =>
      obtain ⟨other, object⟩ := entry
      have same : other = id := by simpa using List.find?_some found
      subst same
      have agree := List.inj_on_of_nodup_map table.nodup (List.mem_of_find?_eq_some found) member rfl
      simp only [find, found, Option.map_some, Option.some.injEq]
      exact (Prod.mk.inj agree).2

/-- An object found under a handle is in the table. -/
theorem mem_values_of_find {table : Idr α} {id : Nat} {value : α} (found : table.find id = some value) :
    value ∈ table.values :=
  List.mem_map_of_mem (f := Prod.snd) (find_eq_some.mp found)

/-- An object in the table is found under some handle. -/
theorem exists_find {table : Idr α} {value : α} (member : value ∈ table.values) :
    ∃ id, table.find id = some value := by
  -- The entry that holds the object names its handle.
  obtain ⟨⟨id, object⟩, listed, rfl⟩ := List.mem_map.mp member
  exact ⟨id, find_eq_some.mpr listed⟩

/-- A new entry goes behind the old ones. -/
theorem alloc_entries {table grown : Idr α} {id : Nat} {value : α}
    (entered : table.alloc id value = some grown) :
    grown.entries = table.entries ++ [(id, value)] := by
  -- An allocation that is refused has no result.
  unfold alloc at entered
  split at entered
  · cases entered
    rfl
  · cases entered

/-- A handle that has just been given out was not in use. -/
theorem alloc_fresh {table grown : Idr α} {id : Nat} {value : α}
    (entered : table.alloc id value = some grown) : 0 < id ∧ table.find id = none := by
  -- A handle that is found is among those the allocator may not pick.
  unfold alloc at entered
  split at entered
  case isFalse => cases entered
  case isTrue allowed =>
    refine ⟨allowed.1, ?_⟩
    cases found : table.find id with
    | none => rfl
    | some other =>
      exact absurd (List.mem_map_of_mem (f := Prod.fst) (find_eq_some.mp found)) allowed.2

/-- The objects after an allocation are the old ones and the new one. -/
theorem alloc_values {table grown : Idr α} {id : Nat} {value : α}
    (entered : table.alloc id value = some grown) : grown.values = table.values ++ [value] := by
  simp [values, alloc_entries entered]

/-- A handle that stood for something before an allocation still does. -/
theorem find_alloc {table grown : Idr α} {id other : Nat} {value old : α}
    (entered : table.alloc id value = some grown) (found : table.find other = some old) :
    grown.find other = some old := by
  -- The old entry is among the entries before the new one.
  rw [find_eq_some, alloc_entries entered]
  exact List.mem_append_left _ (find_eq_some.mp found)

/-- The new handle stands for the new object. -/
theorem find_alloc_self {table grown : Idr α} {id : Nat} {value : α}
    (entered : table.alloc id value = some grown) : grown.find id = some value := by
  -- The new entry is the last one.
  rw [find_eq_some, alloc_entries entered]
  exact List.mem_append_right _ (List.mem_singleton.mpr rfl)

/-- Every handle in use is positive. -/
theorem pos_of_find {table : Idr α} {id : Nat} {value : α} (found : table.find id = some value) :
    0 < id :=
  table.positive (id, value) (find_eq_some.mp found)

/-- Removal only takes objects out. -/
theorem removeIf_values (table : Idr α) (drop : Nat → α → Bool) :
    (table.removeIf drop).values.Sublist table.values :=
  List.filter_sublist.map _

/-- The objects that a removal leaves are those that have an unselected entry. -/
theorem mem_removeIf_values {table : Idr α} {drop : Nat → α → Bool} {value : α} :
    value ∈ (table.removeIf drop).values ↔ ∃ id, table.find id = some value ∧ drop id value = false := by
  simp [values, removeIf, find_eq_some]

/-- Removing the objects with one key leaves the keys of the others. -/
theorem mem_map_removeIf {key : α → Nat} {table : Idr α} {dropped other : Nat} :
    other ∈ (table.removeIf fun _ value => key value = dropped).values.map key ↔
      other ∈ table.values.map key ∧ other ≠ dropped := by
  -- An object is left under a handle exactly when its key is another one.
  simp only [List.mem_map, mem_removeIf_values]
  constructor
  · intro given
    obtain ⟨value, ⟨id, found, kept⟩, rfl⟩ := given
    exact ⟨⟨value, mem_values_of_find found, rfl⟩, by simpa using kept⟩
  · intro given
    obtain ⟨⟨value, member, rfl⟩, apart⟩ := given
    obtain ⟨id, found⟩ := exists_find member
    exact ⟨value, ⟨id, found, by simpa using apart⟩, rfl⟩

/-- A handle that a removal leaves stands for what it stood for. -/
theorem find_removeIf {table : Idr α} {drop : Nat → α → Bool} {id : Nat} {value : α} :
    (table.removeIf drop).find id = some value
      ↔ table.find id = some value ∧ drop id value = false := by
  simp [find_eq_some, removeIf]

/-- A handle in use and the others are all the entries. -/
theorem perm_remove [DecidableEq α] {table : Idr α} {id : Nat} {value : α}
    (found : table.find id = some value) :
    table.entries.Perm ((id, value) :: (table.remove id).entries) := by
  have member := find_eq_some.mp found
  have distinct : table.entries.Nodup := List.Nodup.of_map Prod.fst table.nodup
  -- The entry taken out is the only one with this handle.
  have rest : (table.remove id).entries = table.entries.erase (id, value) := by
    rw [distinct.erase_eq_filter]
    refine List.filter_congr fun entry listed => ?_
    by_cases same : entry.1 = id
    · have whole : entry = (id, value) :=
        List.inj_on_of_nodup_map table.nodup listed member same
      simp [whole]
    · have other : entry ≠ (id, value) := fun whole => same (congrArg Prod.fst whole)
      simp [same, other]
  rw [rest]
  exact List.perm_cons_erase member

/-- An object in the table and those under the other handles are all the objects. -/
theorem perm_values_remove [DecidableEq α] {table : Idr α} {id : Nat} {value : α}
    (found : table.find id = some value) :
    table.values.Perm (value :: (table.remove id).values) :=
  (perm_remove found).map Prod.snd

end Idr
