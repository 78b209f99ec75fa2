import Mathlib.Algebra.Order.Ring.Int
import Mathlib.Algebra.Order.Ring.Nat
import Mathlib.Data.List.Perm.Basic

/-! Lists of slots that are read, replaced and given up by position. -/

namespace Slots

variable {α : Type*} {slots : List α} {i : Nat} {a : α}

/-- The slot at a position counts apart from the others. -/
theorem countP_eraseIdx (p : α → Bool) (found : slots[i]? = some a) :
    slots.countP p = (slots.eraseIdx i).countP p + (if p a then 1 else 0) := by
  -- The list is a permutation of the slot followed by the others.
  obtain ⟨bound, rfl⟩ := List.getElem?_eq_some_iff.mp found
  rw [← (List.getElem_cons_eraseIdx_perm bound).countP_eq p, List.countP_cons]

/-- A replaced slot counts as its new content. -/
theorem countP_set (p : α → Bool) (found : slots[i]? = some a) (new : α) :
    (slots.set i new).countP p = (slots.eraseIdx i).countP p + (if p new then 1 else 0) := by
  -- The list is a permutation of the new slot followed by the others.
  obtain ⟨bound, _⟩ := List.getElem?_eq_some_iff.mp found
  rw [(List.set_perm_cons_eraseIdx bound new).countP_eq p, List.countP_cons]

/-- Replacing one slot keeps every slot with a different content. -/
theorem mem_set_of_ne (found : slots[i]? = some a) (new : α) {b : α} (member : b ∈ slots)
    (other : b ≠ a) : b ∈ slots.set i new := by
  -- The other slot stands at another position.
  obtain ⟨j, found'⟩ := List.mem_iff_getElem?.mp member
  have apart : i ≠ j := by
    intro same
    subst same
    rw [found] at found'
    exact other (Option.some.inj found').symm
  exact List.mem_of_getElem? ((List.getElem?_set_ne apart).trans found')

/-- Giving up one slot keeps every slot with a different content. -/
theorem mem_eraseIdx_of_ne (found : slots[i]? = some a) {b : α} (member : b ∈ slots)
    (other : b ≠ a) : b ∈ slots.eraseIdx i := by
  -- The other slot stands at another position.
  obtain ⟨j, found'⟩ := List.mem_iff_getElem?.mp member
  refine List.mem_eraseIdx_iff_getElem?.mpr ⟨j, ?_, found'⟩
  intro same
  subst same
  rw [found] at found'
  exact other (Option.some.inj found').symm

/-- What a replaced list of slots holds is the new content or was there before. -/
theorem mem_set (found : slots[i]? = some a) {new b : α} :
    b ∈ slots.set i new ↔ b = new ∨ b ∈ slots.eraseIdx i := by
  -- Only the order of the slots differs.
  obtain ⟨bound, _⟩ := List.getElem?_eq_some_iff.mp found
  rw [(List.set_perm_cons_eraseIdx bound new).mem_iff, List.mem_cons]

end Slots
