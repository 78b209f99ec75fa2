import Mathlib.Algebra.Order.Ring.Int
import Mathlib.Algebra.Order.Ring.Nat
import Mathlib.Data.List.Basic

/-! Runs of words in a memory of fixed length, written one behind the other. -/

namespace Segment

variable {α : Type*} {memory written : List α} {xs ys : List α} {place : Nat}

/-- The memory with a run of words written from a place on; a write behind its end has no result. -/
def write (memory : List α) (place : Nat) (xs : List α) : Option (List α) :=
  if place + xs.length ≤ memory.length then
    some (memory.take place ++ xs ++ memory.drop (place + xs.length))
  else none

/-- The run of words stands in the memory from a place on. -/
def At (memory : List α) (place : Nat) (xs : List α) : Prop :=
  ∃ front back, memory = front ++ xs ++ back ∧ front.length = place

/-- A write of a run that fits has a result of the same length, in which the run stands. -/
theorem write_fits (memory : List α) (place : Nat) (xs : List α)
    (fits : place + xs.length ≤ memory.length) : ∃ written,
      write memory place xs = some written ∧ written.length = memory.length ∧ At written place xs := by
  refine ⟨_, if_pos fits, ?_, memory.take place, memory.drop (place + xs.length), rfl, ?_⟩
  · simp only [List.length_append, List.length_take, List.length_drop]
    omega
  · rw [List.length_take]
    omega

/-- A run in front of the place stays where it is. -/
theorem At.write (stands : At memory place xs) {behind : Nat} (ahead : place + xs.length ≤ behind)
    (done : Segment.write memory behind ys = some written) : At written place xs := by
  simp only [Segment.write, Option.ite_none_right_eq_some, Option.some.injEq] at done
  obtain ⟨_, rfl⟩ := done
  obtain ⟨front, back, rfl, rfl⟩ := stands
  -- What is taken up to the later place begins with all that stands in front of it.
  have kept : (front ++ xs ++ back).take behind =
      front ++ xs ++ back.take (behind - (front ++ xs).length) := by
    rw [List.take_append, List.take_of_length_le (by simpa using ahead)]
  refine ⟨front, back.take (behind - (front ++ xs).length) ++ ys ++
    (front ++ xs ++ back).drop (behind + ys.length), ?_, rfl⟩
  rw [kept]
  simp only [List.append_assoc]

end Segment
