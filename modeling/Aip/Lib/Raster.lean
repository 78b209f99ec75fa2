import Mathlib.Algebra.Order.Ring.Int
import Mathlib.Algebra.Order.Ring.Nat
import Mathlib.Data.Int.ModEq
import Mathlib.Data.List.Nodup
import Mathlib.Data.List.Perm.Basic
import Mathlib.Tactic.Linarith
import Mathlib.Tactic.Ring

/-! Points of a plane: intervals, rectangles, cyclic walks, and the corners of a linear form. -/

namespace Raster

/-- So many integers from `low` on, in order. -/
def span (low : Int) (count : Nat) : List Int :=
  (List.range count).map fun step : Nat => low + (step : Int)

variable {low value : Int} {count : Nat}

@[simp] theorem mem_span : value ∈ span low count ↔ low ≤ value ∧ value < low + count := by
  unfold span
  rw [List.mem_map]
  constructor
  · rintro ⟨step, member, rfl⟩
    have := List.mem_range.mp member
    omega
  · rintro ⟨lower, upper⟩
    exact ⟨(value - low).toNat, List.mem_range.mpr (by omega), by omega⟩

@[simp] theorem length_span : (span low count).length = count := by
  rw [span, List.length_map, List.length_range]

/-- The integers of a span stand in increasing order. -/
theorem span_increasing : (span low count).Pairwise (· < ·) := by
  refine List.Pairwise.map _ (fun first second less => ?_) List.pairwise_lt_range
  omega

theorem nodup_span : (span low count).Nodup :=
  span_increasing.imp fun less => ne_of_lt less

/-- A point of the plane. -/
abbrev Point := Int × Int

/-- The points of a rectangle, column after column. -/
def columns (left : Int) (width : Nat) (top : Int) (height : Nat) : List Point :=
  (span left width).flatMap fun x => (span top height).map fun y => (x, y)

/-- The points of a rectangle, row after row. -/
def rows (left : Int) (width : Nat) (top : Int) (height : Nat) : List Point :=
  (span top height).flatMap fun y => (span left width).map fun x => (x, y)

variable {left top : Int} {width height : Nat} {point : Point}

@[simp] theorem mem_columns : point ∈ columns left width top height ↔
    (left ≤ point.1 ∧ point.1 < left + width) ∧ top ≤ point.2 ∧ point.2 < top + height := by
  rcases point with ⟨x, y⟩
  simp [columns]

@[simp] theorem mem_rows : point ∈ rows left width top height ↔
    (left ≤ point.1 ∧ point.1 < left + width) ∧ top ≤ point.2 ∧ point.2 < top + height := by
  rcases point with ⟨x, y⟩
  simp [rows, and_comm]

@[simp] theorem length_columns : (columns left width top height).length = width * height := by
  simp [columns]

/-- Row after row, the points are ordered by their row and then by their column. -/
theorem rows_increasing : (rows left width top height).Pairwise fun point next =>
    point.2 < next.2 ∨ point.2 = next.2 ∧ point.1 < next.1 := by
  refine List.pairwise_flatMap.mpr ⟨?_, ?_⟩
  · -- Within a row the columns increase.
    intro y _
    exact List.Pairwise.map _ (fun first second less => Or.inr ⟨rfl, less⟩) span_increasing
  · -- Every point of a later row is behind every point of this one.
    refine span_increasing.imp fun less => ?_
    intro point here next there
    obtain ⟨x, _, rfl⟩ := List.mem_map.mp here
    obtain ⟨x', _, rfl⟩ := List.mem_map.mp there
    exact Or.inl less

theorem nodup_rows : (rows left width top height).Nodup := by
  apply rows_increasing.imp
  rintro point next before rfl
  omega

theorem nodup_columns : (columns left width top height).Nodup := by
  refine List.pairwise_flatMap.mpr ⟨fun x _ => ?_, span_increasing.imp fun less => ?_⟩
  · exact nodup_span.map fun first second same => (Prod.mk.inj same).2
  · rintro point here next there rfl
    obtain ⟨y, _, rfl⟩ := List.mem_map.mp here
    obtain ⟨y', _, same⟩ := List.mem_map.mp there
    have := (Prod.mk.inj same).1
    omega

/-- The two ways through a rectangle meet the same points. -/
theorem rows_perm_columns :
    (rows left width top height).Perm (columns left width top height) :=
  (List.perm_ext_iff_of_nodup nodup_rows nodup_columns).mpr fun _ => by simp

/-- Parts that each point owns one of make up the whole, when together they have its points. -/
theorem parts_perm {ι π : Type*} {parts : List ι} {part : ι → List π} {whole : List π}
    (owner : π → ι) (nodup : parts.Nodup) (once : ∀ i ∈ parts, (part i).Nodup)
    (owned : ∀ i ∈ parts, ∀ p ∈ part i, owner p = i) (wholeOnce : whole.Nodup)
    (covers : ∀ p, p ∈ whole ↔ ∃ i ∈ parts, p ∈ part i) :
    (parts.flatMap part).Perm whole := by
  have split : (parts.flatMap part).Nodup := by
    refine List.nodup_flatMap.mpr ⟨once, ?_⟩
    refine List.Pairwise.imp_of_mem ?_ nodup
    intro i j here there differ p first second
    -- A point of two parts would have two owners.
    exact differ ((owned i here p first).symm.trans (owned j there p second))
  apply (List.perm_ext_iff_of_nodup split wholeOnce).mpr
  intro p
  rw [List.mem_flatMap, covers]

section Turn

/-- Where a walk through `height` rows from `low` on is after so many steps, coming round again. -/
def turn (low : Int) (height : Nat) (start direction : Int) (steps : Nat) : Int :=
  low + (start - low + direction * steps) % height

variable {start direction : Int} {steps other : Nat}

/-- The walk stays within the rows. -/
theorem turn_within (positive : 0 < height) : low ≤ turn low height start direction steps ∧
    turn low height start direction steps < low + height := by
  unfold turn
  have lower := Int.emod_nonneg (start - low + direction * steps) (b := height) (by omega)
  have upper := Int.emod_lt_of_pos (start - low + direction * steps) (b := height) (by omega)
  omega

/-- A walk that starts within the rows is there before its first step. -/
theorem turn_zero (within : low ≤ start ∧ start < low + height) :
    turn low height start direction 0 = start := by
  unfold turn
  rw [Int.emod_eq_of_lt (by simp; omega) (by simp; omega)]
  simp

/-- A step moves from where the walk is, coming round again. -/
theorem turn_succ : turn low height start direction (steps + 1) =
    low + (turn low height start direction steps - low + direction) % height := by
  have further : start - low + direction * ((steps + 1 : Nat) : Int) =
      start - low + direction * steps + direction := by
    push_cast
    ring
  simp only [turn]
  rw [further, add_sub_cancel_left, Int.emod_add_emod]

/-- A step upwards from the last row leads to the first one. -/
theorem turn_succ_up (positive : 0 < height) :
    turn low height start 1 (steps + 1) =
      if turn low height start 1 steps + 1 = low + height then low
      else turn low height start 1 steps + 1 := by
  have within : low ≤ turn low height start 1 steps ∧
      turn low height start 1 steps < low + height := turn_within positive
  rw [turn_succ]
  split
  · rename_i last
    rw [show turn low height start 1 steps - low + 1 = height by omega, Int.emod_self]
    omega
  · rw [Int.emod_eq_of_lt (by omega) (by omega)]
    omega

/-- A step downwards from the first row leads to the last one. -/
theorem turn_succ_down (positive : 0 < height) :
    turn low height start (-1) (steps + 1) =
      if turn low height start (-1) steps - 1 = low - 1 then low + height - 1
      else turn low height start (-1) steps - 1 := by
  have within : low ≤ turn low height start (-1) steps ∧
      turn low height start (-1) steps < low + height := turn_within positive
  rw [turn_succ]
  split
  · rename_i first
    rw [show turn low height start (-1) steps - low + -1 = -1 by omega]
    rw [← Int.add_emod_right, Int.emod_eq_of_lt (by omega) (by omega)]
    omega
  · rw [Int.emod_eq_of_lt (by omega) (by omega)]
    omega

/-- From the first row upwards the walk does not come round before it ends. -/
theorem turn_up (before : steps < height) : turn low height low 1 steps = low + steps := by
  unfold turn
  rw [Int.emod_eq_of_lt (by omega) (by omega)]
  omega

/-- From the last row downwards the walk does not come round before it ends. -/
theorem turn_down (before : steps < height) :
    turn low height (low + height - 1) (-1) steps = low + height - 1 - steps := by
  unfold turn
  rw [Int.emod_eq_of_lt (by omega) (by omega)]
  omega

/-- Fewer than a full turn of steps lead to different rows. -/
theorem turn_injective (unit : direction = 1 ∨ direction = -1) (before : steps < height)
    (after : other < height)
    (same : turn low height start direction steps = turn low height start direction other) :
    steps = other := by
  -- Equal remainders make the height divide the difference, which is smaller than it.
  unfold turn at same
  have equal : (start - low + direction * steps) % height =
      (start - low + direction * other) % height := by omega
  have divides : (height : Int) ∣ (steps : Int) - other := by
    have apart := Int.ModEq.dvd equal
    rcases unit with rfl | rfl
    · rw [show start - low + 1 * (other : Int) - (start - low + 1 * steps) =
        -((steps : Int) - other) by ring] at apart
      exact (Int.dvd_neg).mp apart
    · rw [show start - low + -1 * (other : Int) - (start - low + -1 * steps) =
        (steps : Int) - other by ring] at apart
      exact apart
  have zero := Int.eq_zero_of_abs_lt_dvd divides (abs_lt.mpr ⟨by omega, by omega⟩)
  omega

/-- A full turn leads back to the start. -/
theorem turn_full (within : low ≤ start ∧ start < low + height) :
    turn low height start direction height = start := by
  unfold turn
  rw [Int.add_mul_emod_self_right, Int.emod_eq_of_lt (by omega) (by omega)]
  omega

/-- The walk is back at its start after a full turn and not before. -/
theorem turn_back (unit : direction = 1 ∨ direction = -1)
    (within : low ≤ start ∧ start < low + height) (some' : 0 < steps) (most : steps ≤ height) :
    turn low height start direction steps = start ↔ steps = height := by
  -- Before a full turn no row is met twice.
  constructor
  · intro back
    by_contra early
    have zero : turn low height start direction 0 = start := turn_zero within
    have same := turn_injective unit (by omega) (by omega) (back.trans zero.symm)
    omega
  · rintro rfl
    exact turn_full within

/-- A full turn meets every row once. -/
theorem turn_perm (unit : direction = 1 ∨ direction = -1) :
    ((List.range height).map (turn low height start direction)).Perm (span low height) := by
  -- The turn has as many different rows as there are, and all of them lie within the span.
  have nodup : ((List.range height).map (turn low height start direction)).Nodup := by
    refine List.Nodup.map_on ?_ List.nodup_range
    intro steps before other after same
    exact turn_injective unit (List.mem_range.mp before) (List.mem_range.mp after) same
  have inside : (List.range height).map (turn low height start direction) ⊆ span low height := by
    intro row member
    obtain ⟨steps, before, rfl⟩ := List.mem_map.mp member
    have := List.mem_range.mp before
    exact mem_span.mpr (turn_within (by omega))
  exact (List.subperm_of_subset nodup inside).perm_of_length_le (by simp)

end Turn

/-- A place in rows of a stride says which row it is in and where in that row. -/
theorem offset_unique {stride row next column other : Int} (inRow : 0 ≤ column ∧ column < stride)
    (inOther : 0 ≤ other ∧ other < stride)
    (same : row * stride + column = next * stride + other) : row = next ∧ column = other := by
  -- The row is the quotient by the stride, and the rest is the place in it.
  have positive : 0 < stride := by omega
  have rowOf : ∀ {r c : Int}, 0 ≤ c ∧ c < stride → (r * stride + c) / stride = r := by
    intro r c within
    rw [Int.add_comm, Int.add_mul_ediv_right _ _ (by omega), Int.ediv_eq_zero_of_lt within.1 within.2,
      Int.zero_add]
  have equal := rowOf (r := row) inRow
  rw [same, rowOf inOther] at equal
  subst equal
  exact ⟨rfl, by omega⟩

/-- A place in one of the rows comes before the end of the last one. -/
theorem offset_within {stride row column height : Int} (inRow : 0 ≤ column ∧ column < stride)
    (inColumn : 0 ≤ row ∧ row < height) :
    0 ≤ row * stride + column ∧ row * stride + column < stride * height := by
  have first : 0 ≤ row * stride := mul_nonneg inColumn.1 (by omega)
  have last : (row + 1) * stride ≤ height * stride :=
    mul_le_mul_of_nonneg_right (by omega) (by omega)
  rw [add_mul, Int.one_mul, mul_comm height] at last
  omega

section Corners

variable {a b c x y left right top bottom : Int}

/-- A linear form takes its largest value on a rectangle in one of the four corners. -/
theorem le_corner (horizontal : left ≤ x ∧ x ≤ right) (vertical : top ≤ y ∧ y ≤ bottom) :
    a * x + b * y + c ≤ a * left + b * top + c ∨ a * x + b * y + c ≤ a * right + b * top + c ∨
      a * x + b * y + c ≤ a * left + b * bottom + c ∨
        a * x + b * y + c ≤ a * right + b * bottom + c := by
  -- The sign of each factor says at which end of its side the form is largest.
  have first : a * x ≤ a * left ∨ a * x ≤ a * right := by
    rcases le_total 0 a with up | down
    · exact Or.inr (mul_le_mul_of_nonneg_left horizontal.2 up)
    · exact Or.inl (mul_le_mul_of_nonpos_left horizontal.1 down)
  have second : b * y ≤ b * top ∨ b * y ≤ b * bottom := by
    rcases le_total 0 b with up | down
    · exact Or.inr (mul_le_mul_of_nonneg_left vertical.2 up)
    · exact Or.inl (mul_le_mul_of_nonpos_left vertical.1 down)
  omega

/-- A linear form takes its smallest value on a rectangle in one of the four corners. -/
theorem corner_le (horizontal : left ≤ x ∧ x ≤ right) (vertical : top ≤ y ∧ y ≤ bottom) :
    a * left + b * top + c ≤ a * x + b * y + c ∨ a * right + b * top + c ≤ a * x + b * y + c ∨
      a * left + b * bottom + c ≤ a * x + b * y + c ∨
        a * right + b * bottom + c ≤ a * x + b * y + c := by
  -- This is the largest value of the opposite form.
  have opposite := le_corner (a := -a) (b := -b) (c := -c) horizontal vertical
  simp only [neg_mul] at opposite
  omega

end Corners

end Raster
