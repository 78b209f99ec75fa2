import Mathlib.Algebra.Order.Ring.Int
import Mathlib.Algebra.Order.Ring.Nat

/-! Arrays of a few fixed lengths have indices, so that numerals can name them. -/

namespace Indices

instance two : NeZero 2 := ⟨by decide⟩

instance three : NeZero 3 := ⟨by decide⟩

instance four : NeZero 4 := ⟨by decide⟩

instance nine : NeZero 9 := ⟨by decide⟩

instance sixtyFour : NeZero 64 := ⟨by decide⟩

end Indices
