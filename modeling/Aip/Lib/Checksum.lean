import Mathlib.Algebra.BigOperators.Group.List.Basic
import Mathlib.Algebra.Order.Ring.Int
import Mathlib.Algebra.Order.Ring.Nat
import Mathlib.Data.List.Nodup

/-! Checksums of 32 bits, and what it takes for two lists of reads to agree in every memory. -/

namespace Checksum

variable {α : Type*}

/-- What the bytes at some places add up to, in 32 bits. -/
def total (mem : α → UInt8) (places : List α) : UInt32 :=
  UInt32.ofNat (places.map fun place => (mem place).toNat).sum

variable {mem : α → UInt8} {place : α} {places more : List α}

@[simp] theorem total_nil : total mem [] = 0 := rfl

/-- The totals of two lists add up. -/
theorem total_append : total mem (places ++ more) = total mem places + total mem more := by
  rw [total, List.map_append, List.sum_append, UInt32.ofNat_add]
  rfl

/-- The first byte is added to the others. -/
theorem total_cons : total mem (place :: places) = (mem place).toUInt32 + total mem places := by
  have byte : (mem place).toUInt32 = UInt32.ofNat (mem place).toNat := by simp
  rw [total, List.map_cons, List.sum_cons, UInt32.ofNat_add, byte]
  rfl

variable [DecidableEq α]

/-- The memory that holds a one at a place and zeros elsewhere. -/
def mark (place : α) : α → UInt8 := fun other => if other = place then 1 else 0

/-- A marked place counts as often as it is read. -/
theorem total_mark (place : α) (places : List α) :
    total (mark place) places = UInt32.ofNat (places.count place) := by
  unfold total
  congr 1
  -- Each place that is read adds one if it is the marked one.
  induction places with
  | nil => rfl
  | cons other places ih =>
    rw [List.map_cons, List.sum_cons, ih, List.count_cons]
    by_cases same : other = place <;> simp [mark, same, Nat.add_comm]

/-- Reads that add up, in every memory, to what different places hold meet each of these. -/
theorem mem_of_total {reads : List α} (agree : ∀ mem, total mem reads = total mem places)
    (nodup : places.Nodup) (member : place ∈ places) : place ∈ reads := by
  -- A place that is not read would count zero times on one side and once on the other.
  by_contra missed
  have once := agree (mark place)
  rw [total_mark, total_mark, List.count_eq_zero_of_not_mem missed,
    List.count_eq_one_of_mem nodup member] at once
  exact absurd once (by decide)

end Checksum
