import Mathlib.Algebra.Order.Ring.Int
import Mathlib.Algebra.Order.Ring.Nat
import Mathlib.Data.Nat.Bitwise

/-! A memory of bytes with words of 32 bits in it, the low byte first. -/

namespace Words

/-- A byte for each address. -/
abbrev Mem := Nat → UInt8

variable {m m' : Mem} {a b n v x : Nat}

/-- The word at an address. -/
def load (m : Mem) (a : Nat) : Nat :=
  (m a).toNat + 2 ^ 8 * (m (a + 1)).toNat + 2 ^ 16 * (m (a + 2)).toNat +
    2 ^ 24 * (m (a + 3)).toNat

/-- The memory with a word written at an address. -/
def store (m : Mem) (a v : Nat) : Mem := fun x =>
  if x = a then UInt8.ofNat v
  else if x = a + 1 then UInt8.ofNat (v / 2 ^ 8)
  else if x = a + 2 then UInt8.ofNat (v / 2 ^ 16)
  else if x = a + 3 then UInt8.ofNat (v / 2 ^ 24)
  else m x

/-- The memory with the same byte written at `n` addresses from the first one on. -/
def fill (m : Mem) (a n : Nat) (v : UInt8) : Mem := fun x => if a ≤ x ∧ x < a + n then v else m x

/-- The memory with `n` bytes copied to an address from another one. -/
def copy (m : Mem) (a b n : Nat) : Mem := fun x =>
  if a ≤ x ∧ x < a + n then m (b + (x - a)) else m x

/-- The word at an address depends on its own bytes only. -/
theorem load_congr (same : ∀ x, a ≤ x → x < a + 4 → m' x = m x) : load m' a = load m a := by
  rw [load, load, same a (by omega) (by omega), same (a + 1) (by omega) (by omega),
    same (a + 2) (by omega) (by omega), same (a + 3) (by omega) (by omega)]

/-- A store changes no byte outside its word. -/
theorem store_outside (outside : x < a ∨ a + 4 ≤ x) : store m a v x = m x := by
  rw [store, if_neg (by omega), if_neg (by omega), if_neg (by omega), if_neg (by omega)]

/-- A fill changes no byte outside its range. -/
theorem fill_outside {byte : UInt8} (outside : x < a ∨ a + n ≤ x) : fill m a n byte x = m x := by
  rw [fill, if_neg (by omega)]

/-- A copy changes no byte outside of where it goes. -/
theorem copy_outside (outside : x < a ∨ a + n ≤ x) : copy m a b n x = m x := by
  rw [copy, if_neg (by omega)]

/-- A word is read back as it has been written. -/
theorem load_store (small : v < 2 ^ 32) : load (store m a v) a = v := by
  have one : ¬ a + 1 = a := by omega
  have two : ¬ a + 2 = a ∧ ¬ a + 2 = a + 1 := by omega
  have three : ¬ a + 3 = a ∧ ¬ a + 3 = a + 1 ∧ ¬ a + 3 = a + 2 := by omega
  simp only [load, store, if_pos, one, two, three, if_false, UInt8.toNat_ofNat']
  omega

/-- A store leaves the words apart from its own alone. -/
theorem load_store_apart (apart : b + 4 ≤ a ∨ a + 4 ≤ b) : load (store m a v) b = load m b :=
  load_congr fun x _ _ => store_outside (by omega)

/-- A word has 32 bits. -/
theorem load_lt (m : Mem) (a : Nat) : load m a < 2 ^ 32 := by
  have b0 := (m a).toNat_lt
  have b1 := (m (a + 1)).toNat_lt
  have b2 := (m (a + 2)).toNat_lt
  have b3 := (m (a + 3)).toNat_lt
  rw [load]
  omega

/-- A mask that leaves the low bits out rounds down to a multiple. -/
theorem and_mask {k : Nat} (small : x < 2 ^ n) (within : k ≤ n) :
    x &&& (2 ^ n - 1 - (2 ^ k - 1)) = x / 2 ^ k * 2 ^ k := by
  have less : 2 ^ k - 1 < 2 ^ n := by
    have powers := Nat.pow_le_pow_right (show 0 < 2 by decide) within
    have positive := Nat.two_pow_pos k
    omega
  apply Nat.eq_of_testBit_eq
  intro i
  have mask : 2 ^ n - 1 - (2 ^ k - 1) = 2 ^ n - (2 ^ k - 1 + 1) := by omega
  rw [Nat.testBit_and, mask, Nat.testBit_two_pow_sub_succ less, Nat.testBit_two_pow_sub_one,
    Nat.testBit_mul_two_pow, Nat.testBit_div_two_pow]
  by_cases low : i < k
  · simp [low]
  · by_cases high : i < n
    · simp [low, high, show k ≤ i by omega, show i - k + k = i by omega]
    · -- A number below the power has no bits from there on.
      have none : x.testBit i = false :=
        Nat.testBit_lt_two_pow (Nat.lt_of_lt_of_le small (Nat.pow_le_pow_right (by decide) (by omega)))
      simp [none, show i - k + k = i by omega]

end Words
