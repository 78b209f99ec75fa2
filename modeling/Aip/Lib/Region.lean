import Mathlib.Algebra.Order.Ring.Int
import Mathlib.Algebra.Order.Ring.Nat
import Mathlib.Data.Nat.Basic

/-! Regions of an address space that is counted in natural numbers. -/

/-- The addresses from a start, as many as the size says. -/
structure Region where
  start : Nat
  size : Nat
  deriving DecidableEq, Repr

namespace Region

/-- One of the two regions ends before the other one starts. -/
def Apart (a b : Region) : Prop := a.start + a.size ≤ b.start ∨ b.start + b.size ≤ a.start

/-- Every address of the first region is one of the second. -/
def Inside (a b : Region) : Prop := b.start ≤ a.start ∧ a.start + a.size ≤ b.start + b.size

instance (a b : Region) : Decidable (Apart a b) := inferInstanceAs (Decidable (_ ∨ _))

instance (a b : Region) : Decidable (Inside a b) := inferInstanceAs (Decidable (_ ∧ _))

/-- Being apart does not depend on the order. -/
theorem Apart.symm {a b : Region} (apart : Apart a b) : Apart b a := Or.symm apart

/-- Regions inside regions that are apart are apart themselves. -/
theorem Apart.of_inside {a b outerA outerB : Region} (apart : Apart outerA outerB)
    (insideA : Inside a outerA) (insideB : Inside b outerB) : Apart a b := by
  simp only [Apart, Inside] at apart insideA insideB ⊢
  omega

/-- A region that is cut off at its end stays inside. -/
theorem Inside.shrink {a b outer : Region} (inside : Inside a outer) (start : b.start = a.start)
    (size : b.size ≤ a.size) : Inside b outer := by
  simp only [Inside] at inside ⊢
  omega

/-- A region that is cut off at its end stays apart. -/
theorem Apart.shrink {a b other : Region} (apart : Apart a other) (start : b.start = a.start)
    (size : b.size ≤ a.size) : Apart b other := by
  simp only [Apart] at apart ⊢
  omega

/-- Regions that share an inner address are not apart. -/
theorem Apart.elim {a b : Region} (apart : Apart a b) (address : Nat)
    (inA : a.start ≤ address ∧ address < a.start + a.size)
    (inB : b.start ≤ address ∧ address < b.start + b.size) : False := by
  simp only [Apart] at apart
  omega

end Region
