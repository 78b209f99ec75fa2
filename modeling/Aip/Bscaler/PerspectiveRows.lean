import Aip.Bscaler.PerspectiveGuides
import Aip.Bscaler.SplitPerspective

/-! The source rows that the phases of a perspective box go through, which are to ascend. -/

namespace Aip.Bscaler

open Raster (Point turn)

/-- A source point strictly inside the source box, as the traversal's own check takes it. -/
def SrcPoint.StrictlyInside (point : SrcPoint) (src : BsBox) : Prop :=
  (src.sboxX < point.xp ∧ point.xp < src.sboxX + src.sboxW) ∧
    (src.sboxY < point.yp ∧ point.yp < src.sboxY + src.sboxH)

/-- Where two pixels both map strictly inside the source box, the second maps to no earlier row. -/
def Rises (matrix : Matrix) (src : BsBox) (p q : Point) : Prop :=
  (perspectivePoint matrix p).StrictlyInside src →
    (perspectivePoint matrix q).StrictlyInside src →
      (perspectivePoint matrix p).yp ≤ (perspectivePoint matrix q).yp

instance (matrix : Matrix) (src : BsBox) (p q : Point) : Decidable (Rises matrix src p q) := by
  unfold Rises SrcPoint.StrictlyInside
  infer_instance

/-- The phase that visits a pixel of the box, `true` for the first one. -/
def firstPhase (guides : Guides) (dst : BsBox) (p : Point) : Bool :=
  unified.allowed (guides.mono dst (p.1 - dst.sboxX).toNat)

/-- Two pixels that a phase visits one after the other have their source rows in order. -/
def RowsAscend (guides : Guides) (matrix : Matrix) (src dst : BsBox) (pixels : List Point) : Prop :=
  pixels.IsChain fun p q =>
    firstPhase guides dst p = firstPhase guides dst q → Rises matrix src p q

/-- The pixel that a column of a box with rows meets after so many steps. -/
def columnPixel (guides : Guides) (dst : BsBox) (i steps : Nat) : Point :=
  (i + dst.sboxX, turn dst.sboxY dst.sboxH.toNat
    (if guides.inside dst i then guides.limit dst i
      else if yIncreases (guides.mono dst i) then dst.sboxY else dst.sboxY + dst.sboxH.toNat - 1)
    (if yIncreases (guides.mono dst i) then 1 else -1) steps)

/-- The numerator of the source row of a pixel keeps its value when it is shifted in 64 bits. -/
def Held (matrix : Matrix) (p : Point) : Prop := |sourceY matrix p * 65536| < 9223372036854775808

/--
A step that nothing keeps from going back.

It is the first one of a column that starts at its extreme point, or one where 64 bits are too few.
-/
def Loose (guides : Guides) (matrix : Matrix) (dst : BsBox) (i steps : Nat) : Prop :=
  steps = 0 ∧ guides.inside dst i ∨ ¬ Held matrix (columnPixel guides dst i steps) ∨
    ¬ Held matrix (columnPixel guides dst i (steps + 1))

/-- No loose step of a column of the box goes back. -/
def Steady (guides : Guides) (matrix : Matrix) (src dst : BsBox) : Prop :=
  ∀ i steps : Nat, (i : Int) < dst.sboxW → steps + 1 < dst.sboxH.toNat →
    Loose guides matrix dst i steps →
      Rises matrix src (columnPixel guides dst i steps) (columnPixel guides dst i (steps + 1))

variable {matrix : Matrix} {guides : Guides} {src dst : BsBox} {mem image : Memory}
  {zeroPoint nv2bgrAlpha : UInt8} {isAbgrOrder : Nat} {p q : Point} {dx y y' : Int} {i steps : Nat}

/-- An entry of a matrix times a number of 16 bits. -/
theorem product_bound (entry : Int32) {factor : Int} (lower : 0 ≤ factor) (upper : factor < 65536) :
    -140737488355328 ≤ factor * entry.toInt ∧ factor * entry.toInt ≤ 140737488355328 := by
  have low := Int32.le_toInt entry
  have high := Int32.toInt_lt entry
  constructor <;> nlinarith

/-- A number that 64 bits hold is kept. -/
theorem s64_of_held {value : Int} (held : |value| < 9223372036854775808) : s64 value = value := by
  rw [abs_lt] at held
  exact Int.bmod_eq_of_le (by omega) (by omega)

/-- The source row of a pixel whose denominator is not zero. -/
theorem perspectivePoint_row (column : 0 ≤ p.1 ∧ p.1 < 65536) (row : 0 ≤ p.2 ∧ p.2 < 65536)
    (nonzero : sourceZ matrix p ≠ 0) (held : Held matrix p) : (perspectivePoint matrix p).yp =
      fixWhole (clip ((sourceY matrix p * 65536).tdiv (sourceZ matrix p)) s32Min s32Max) := by
  have sum : ∀ scale skew trans : Int32,
      |p.1 * scale.toInt + p.2 * skew.toInt + trans.toInt| < 9223372036854775808 := by
    intro scale skew trans
    have first := product_bound scale column.1 column.2
    have second := product_bound skew row.1 row.2
    have low := Int32.le_toInt trans
    have high := Int32.toInt_lt trans
    rw [abs_lt]
    constructor <;> omega
  have numerator : s64 (p.1 * (matrix mskewy).toInt + p.2 * (matrix mscaley).toInt +
      (matrix mtransy).toInt) = sourceY matrix p := s64_of_held (sum _ _ _)
  have denominator : s64 (p.1 * (matrix mpersp0).toInt + p.2 * (matrix mpersp1).toInt +
      (matrix mpersp2).toInt) = sourceZ matrix p := s64_of_held (sum _ _ _)
  -- The quotient is no farther from zero than its numerator.
  have quotient : s64 ((sourceY matrix p * 65536).tdiv (sourceZ matrix p)) =
      (sourceY matrix p * 65536).tdiv (sourceZ matrix p) := by
    apply s64_of_held
    have shorter := Int.natAbs_tdiv_le_natAbs (sourceY matrix p * 65536) (sourceZ matrix p)
    unfold Held at held
    rw [Int.abs_eq_natAbs] at held ⊢
    omega
  unfold perspectivePoint perspectiveDst2src
  rw [if_pos ⟨column.2, row.2⟩]
  simp only [numerator, denominator, if_pos nonzero, Option.getD_some]
  rw [s64_of_held held, quotient, s16_fixWhole_clip]

/-- A pixel whose denominator is zero maps outside the source box. -/
theorem StrictlyInside.nonzero (column : 0 ≤ p.1 ∧ p.1 < 65536) (row : 0 ≤ p.2 ∧ p.2 < 65536)
    (top : -2 ≤ src.sboxY) (inside : (perspectivePoint matrix p).StrictlyInside src) :
    sourceZ matrix p ≠ 0 := by
  intro zero
  have none : s64 (p.1 * (matrix mpersp0).toInt + p.2 * (matrix mpersp1).toInt +
      (matrix mpersp2).toInt) = 0 := by
    unfold sourceZ at zero
    rw [zero]
    rfl
  have above := inside.2.1
  unfold perspectivePoint perspectiveDst2src at above
  rw [if_pos ⟨column.2, row.2⟩] at above
  simp only [none, ne_eq, not_true_eq_false, if_false, Option.getD_some] at above
  omega

/-- Two rows of a column are in order where slope, step and denominators have the signs for it. -/
theorem rises_of_signs (column : 0 ≤ dx ∧ dx < 65536) (row : 0 ≤ y ∧ y < 65536)
    (row' : 0 ≤ y' ∧ y' < 65536) (top : -2 ≤ src.sboxY) (held : Held matrix (dx, y))
    (held' : Held matrix (dx, y'))
    (signs : 0 ≤ columnSlope matrix dx * (y' - y) *
      (sourceZ matrix (dx, y) * sourceZ matrix (dx, y'))) :
    Rises matrix src (dx, y) (dx, y') := by
  intro inside inside'
  have nonzero := StrictlyInside.nonzero column row top inside
  have nonzero' := StrictlyInside.nonzero column row' top inside'
  rw [perspectivePoint_row column row nonzero held, perspectivePoint_row column row' nonzero' held']
  apply fixWhole_clip_mono
  apply Rounding.tdiv_le_tdiv nonzero nonzero'
  have shifted : (sourceY matrix (dx, y') * 65536 * sourceZ matrix (dx, y) -
      sourceY matrix (dx, y) * 65536 * sourceZ matrix (dx, y')) *
        (sourceZ matrix (dx, y) * sourceZ matrix (dx, y')) =
      65536 * (columnSlope matrix dx * (y' - y) *
        (sourceZ matrix (dx, y) * sourceZ matrix (dx, y'))) := by
    rw [← cross_rows]
    ring
  rw [shifted]
  omega

/-- A column of a box stays in the rows of the box. -/
theorem columnPixel_within (positive : 0 < dst.sboxH) (i steps : Nat) :
    dst.sboxY ≤ (columnPixel guides dst i steps).2 ∧
      (columnPixel guides dst i steps).2 < dst.sboxY + dst.sboxH := by
  have within := Walk.pixel_within (perspectiveWalk guides dst positive) i steps
  have height : ((dst.sboxH.toNat : Nat) : Int) = dst.sboxH := Int.toNat_of_nonneg positive.le
  simp only [perspectiveWalk_height, height] at within
  exact within

/-- Two rows that a column goes through one after the other, and where its limit is to them. -/
structure Passage (guides : Guides) (dst : BsBox) (i : Nat) (y y' : Int) : Prop where
  next : y' = y + 1 ∧ yIncreases (guides.mono dst i) = true ∨
    y' = y - 1 ∧ yIncreases (guides.mono dst i) = false ∨
    (y = dst.sboxY + dst.sboxH - 1 ∧ y' = dst.sboxY ∧ yIncreases (guides.mono dst i) = true ∨
      y = dst.sboxY ∧ y' = dst.sboxY + dst.sboxH - 1 ∧ yIncreases (guides.mono dst i) = false) ∧
      guides.inside dst i
  apart : guides.inside dst i → guides.limit dst i ≠ y ∧ guides.limit dst i ≠ y'

/-- Every step of a column but the first one from its limit is a passage. -/
theorem columnPixel_passage (positive : 0 < dst.sboxH) (more : steps + 1 < dst.sboxH.toNat)
    (later : ¬ (steps = 0 ∧ guides.inside dst i)) :
    Passage guides dst i (columnPixel guides dst i steps).2
      (columnPixel guides dst i (steps + 1)).2 := by
  have height : ((dst.sboxH.toNat : Nat) : Int) = dst.sboxH := Int.toNat_of_nonneg positive.le
  by_cases inside : guides.inside dst i
  · -- The walk comes round at the border, and is not back at the limit before it ends.
    have started : steps ≠ 0 := fun first => later ⟨first, inside⟩
    have within : dst.sboxY ≤ guides.limit dst i ∧
        guides.limit dst i < dst.sboxY + dst.sboxH.toNat := by
      rw [height]
      exact inside
    have away : ∀ direction : Int, direction = 1 ∨ direction = -1 → ∀ n : Nat, 0 < n →
        n < dst.sboxH.toNat →
        guides.limit dst i ≠ turn dst.sboxY dst.sboxH.toNat (guides.limit dst i) direction n := by
      intro direction unit n some' before same
      exact before.ne ((Raster.turn_back unit within some' before.le).mp same.symm)
    unfold columnPixel
    simp only [if_pos inside]
    cases up : yIncreases (guides.mono dst i)
    · simp only [Bool.false_eq_true, if_false]
      refine ⟨?_, fun _ => ⟨away _ (Or.inr rfl) _ (by omega) (by omega),
        away _ (Or.inr rfl) _ (by omega) more⟩⟩
      rw [Raster.turn_succ_down (by omega), height]
      split_ifs with border
      · exact Or.inr (Or.inr ⟨Or.inr ⟨by omega, rfl, up⟩, inside⟩)
      · exact Or.inr (Or.inl ⟨rfl, up⟩)
    · simp only [if_true]
      refine ⟨?_, fun _ => ⟨away _ (Or.inl rfl) _ (by omega) (by omega),
        away _ (Or.inl rfl) _ (by omega) more⟩⟩
      rw [Raster.turn_succ_up (by omega), height]
      split_ifs with border
      · exact Or.inr (Or.inr ⟨Or.inl ⟨by omega, rfl, up⟩, inside⟩)
      · exact Or.inl ⟨rfl, up⟩
  · -- The walk goes from one border to the other.
    unfold columnPixel
    simp only [if_neg inside]
    cases up : yIncreases (guides.mono dst i)
    · simp only [Bool.false_eq_true, if_false]
      rw [Raster.turn_down (by omega), Raster.turn_down more]
      exact ⟨Or.inr (Or.inl ⟨by push_cast; omega, up⟩), fun wrong => absurd wrong inside⟩
    · simp only [if_true]
      rw [Raster.turn_up (by omega), Raster.turn_up more]
      exact ⟨Or.inl ⟨by push_cast; omega, up⟩, fun wrong => absurd wrong inside⟩

/-- On a passage the slope, the step and the denominators have signs that fit. -/
theorem Passage.signs (passage : Passage guides dst i y y') (sound : guides.Sound matrix dst)
    (within : (i : Int) < dst.sboxW) (row : dst.sboxY ≤ y ∧ y < dst.sboxY + dst.sboxH)
    (row' : dst.sboxY ≤ y' ∧ y' < dst.sboxY + dst.sboxH) :
    0 ≤ columnSlope matrix (i + dst.sboxX) * (y' - y) *
      (sourceZ matrix (i + dst.sboxX, y) * sourceZ matrix (i + dst.sboxX, y')) := by
  -- A column whose denominator changes its sign between two rows starts at one of the two.
  have uncrossed : ∀ z, dst.sboxY ≤ z → z + 1 < dst.sboxY + dst.sboxH →
      (z = y ∧ z + 1 = y' ∨ z = y' ∧ z + 1 = y) →
      0 ≤ sourceZ matrix (i + dst.sboxX, z) * sourceZ matrix (i + dst.sboxX, z + 1) := by
    intro z low high place
    by_contra opposite
    obtain ⟨inside, limit⟩ := sound.crossed i within z low high (not_le.mp opposite)
    have away := passage.apart inside
    omega
  rcases passage.next with ⟨rfl, up⟩ | ⟨step, down⟩ | ⟨round, inside⟩
  · have slope := sound.upward i within up
    have same := uncrossed y row.1 row'.2 (Or.inl ⟨rfl, rfl⟩)
    rw [add_sub_cancel_left, mul_one]
    exact mul_nonneg slope same
  · have slope := sound.downward i within down
    obtain rfl : y = y' + 1 := by omega
    have same := uncrossed y' row'.1 row.2 (Or.inr ⟨rfl, rfl⟩)
    rw [mul_comm (sourceZ matrix _)]
    exact mul_nonneg (mul_nonneg_of_nonpos_of_nonpos slope (by omega)) same
  · -- A column that comes round has its limit between the borders, and the sign change with it.
    have away := passage.apart inside
    have between : dst.sboxY < guides.limit dst i ∧
        guides.limit dst i < dst.sboxY + dst.sboxH - 1 := by
      obtain ⟨low, high⟩ := inside
      omega
    have opposite := sound.parted i within between.1 between.2
    rcases round with ⟨rfl, rfl, up⟩ | ⟨rfl, rfl, down⟩
    · have slope := sound.upward i within up
      rw [mul_comm (sourceZ matrix _)]
      exact mul_nonneg_of_nonpos_of_nonpos
        (mul_nonpos_of_nonneg_of_nonpos slope (by omega)) opposite.le
    · have slope := sound.downward i within down
      exact mul_nonneg_of_nonpos_of_nonpos
        (mul_nonpos_of_nonpos_of_nonneg slope (by omega)) opposite.le

/-- A step of a column goes back only where it is loose. -/
theorem columnPixel_rises (sound : guides.Sound matrix dst) (short : dst.Short)
    (top : -2 ≤ src.sboxY) (within : (i : Int) < dst.sboxW) (more : steps + 1 < dst.sboxH.toNat)
    (firm : ¬ Loose guides matrix dst i steps) :
    Rises matrix src (columnPixel guides dst i steps) (columnPixel guides dst i (steps + 1)) := by
  unfold Loose at firm
  rw [not_or, not_or, not_not, not_not] at firm
  obtain ⟨later, held, held'⟩ := firm
  have positive : 0 < dst.sboxH := by omega
  have row := @columnPixel_within guides dst positive i steps
  have row' := @columnPixel_within guides dst positive i (steps + 1)
  have bottom := short.bottom
  have right := short.right
  have corner := short.left
  have ceiling := short.top.1
  have column : 0 ≤ (i : Int) + dst.sboxX ∧ (i : Int) + dst.sboxX < 65536 := by omega
  have kept : ∀ n, 0 ≤ (columnPixel guides dst i n).2 ∧
      (columnPixel guides dst i n).2 < 65536 := by
    intro n
    have inside := @columnPixel_within guides dst positive i n
    omega
  exact rises_of_signs column (kept steps) (kept (steps + 1)) top held held'
    ((columnPixel_passage positive more later).signs sound within row row')

/-- What holds between neighbours in the columns of a phase holds at every step of such a column. -/
theorem lanes_chain_iff (phase : Phase) (positive : 0 < dst.sboxH) (R : Point → Point → Prop) :
    (∀ i, (phase.lanes guides dst (perspectiveWalk guides dst positive)
        (perspectiveWalk guides dst positive).fresh i).IsChain R) ↔
      ∀ i steps : Nat, (i : Int) < dst.sboxW → steps + 1 < dst.sboxH.toNat →
        phase.allowed (guides.mono dst i) = true →
          R (columnPixel guides dst i steps) (columnPixel guides dst i (steps + 1)) := by
  have column : ∀ i : Nat, (i : Int) < dst.sboxW →
      (perspectiveWalk guides dst positive).lane (perspectiveWalk guides dst positive).fresh i =
        (List.range dst.sboxH.toNat).map (columnPixel guides dst i) := by
    intro i within
    rw [Walk.lane_fresh (by rw [perspectiveWalk_width]; omega), perspectiveWalk_height]
    rfl
  have steps_chain : ∀ i : Nat, ((List.range dst.sboxH.toNat).map (columnPixel guides dst i)).IsChain
      R ↔ ∀ steps, steps + 1 < dst.sboxH.toNat →
        R (columnPixel guides dst i steps) (columnPixel guides dst i (steps + 1)) := by
    intro i
    simp only [List.isChain_iff_getElem, List.length_map, List.length_range, List.getElem_map,
      List.getElem_range]
  constructor
  · intro chains i steps within more allowed
    have chain := chains i
    rw [Phase.lanes, if_pos allowed, column i within, steps_chain] at chain
    exact chain steps more
  · intro rises i
    unfold Phase.lanes
    split
    case isTrue allowed =>
      by_cases within : (i : Int) < dst.sboxW
      · rw [column i within, steps_chain]
        exact fun steps more => rises i steps within more allowed
      · -- A column outside the box has nothing to visit.
        rw [Walk.lane_done]
        · exact List.IsChain.nil
        · rw [Walk.fresh, perspectiveWalk_width, if_neg (by omega)]
    case isFalse => exact List.IsChain.nil

/-- A phase visits pixels of its own columns only. -/
theorem Phase.lanes_allowed {phase : Phase} {positive : 0 < dst.sboxH}
    (member : p ∈ phase.lanes guides dst (perspectiveWalk guides dst positive)
      (perspectiveWalk guides dst positive).fresh i) :
    phase.allowed (guides.mono dst (p.1 - dst.sboxX).toNat) = true := by
  unfold Phase.lanes at member
  split at member
  case isTrue allowed =>
    obtain ⟨steps, _, rfl⟩ := List.mem_map.mp (List.mem_of_mem_drop member)
    have column : ((i : Int) + dst.sboxX - dst.sboxX).toNat = i := by omega
    rw [Walk.pixel]
    simp only [perspectiveWalk, column]
    exact allowed
  case isFalse => cases member

/-- Where a box is run the source rows ascend exactly where no loose step goes back. -/
theorem rowsAscend_steady {final : Traversal} (sound : guides.Sound matrix dst) (short : dst.Short)
    (top : -2 ≤ src.sboxY) (ran : bsPerspectiveBoxRgbComplex guides mem src dst matrix zeroPoint
      isAbgrOrder nv2bgrAlpha image = some final) (positive : 0 < dst.sboxH) :
    RowsAscend guides matrix src dst final.pixels ↔ Steady guides matrix src dst := by
  obtain ⟨half, last, first, second, phase, phase', whole, merges, merges', _⟩ :=
    perspective_phases guides mem image src matrix zeroPoint isAbgrOrder nv2bgrAlpha short positive
  have same : final = last := by
    unfold bsPerspectiveBoxRgbComplex at ran
    simp only [Option.bind_eq_bind, perspectiveStart_runs short, Option.bind_some, phase,
      phase'] at ran
    exact (Option.some.inj (Option.bind_eq_some_iff.mp ran).choose_spec.2).symm
  -- Neighbours in a phase come from one column, or in the order of their rows.
  have weaker : ∀ a b, SourceRows matrix a b → Rises matrix src a b := fun a b rows _ _ => rows
  have sharp : ∀ a b, ¬ Rises matrix src a b → ∀ c, SourceRows matrix a c → ¬ SourceRows matrix c b := by
    intro a b falls c before after
    exact falls fun _ _ => before.trans after
  have kinds : ∀ p ∈ first, firstPhase guides dst p = true := by
    intro p member
    obtain ⟨i, here⟩ := merges.from_lane member
    exact Phase.lanes_allowed here
  have kinds' : ∀ p ∈ second, firstPhase guides dst p = false := by
    intro p member
    obtain ⟨i, here⟩ := merges'.from_lane member
    have allowed := Phase.lanes_allowed here
    rw [ununified_allowed, Bool.not_eq_true'] at allowed
    exact allowed
  have parts : RowsAscend guides matrix src dst (first ++ second) ↔
      first.IsChain (Rises matrix src) ∧ second.IsChain (Rises matrix src) := by
    rw [RowsAscend, List.isChain_append,
      List.IsChain.iff_of_mem_imp (l := first) fun p q here there =>
        imp_iff_right ((kinds p here).trans (kinds q there).symm),
      List.IsChain.iff_of_mem_imp (l := second) fun p q here there =>
        imp_iff_right ((kinds' p here).trans (kinds' q there).symm)]
    refine and_congr_right fun _ => and_iff_left ?_
    -- Between the phases nothing is asked.
    intro p here q there alike
    rw [kinds p (List.mem_of_getLast? here), kinds' q (List.mem_of_head? there)] at alike
    cases alike
  rw [same, whole, parts, merges.isChain_iff weaker sharp, merges'.isChain_iff weaker sharp,
    lanes_chain_iff, lanes_chain_iff]
  constructor
  · rintro ⟨one, other⟩ i steps within more _
    cases kind : unified.allowed (guides.mono dst i)
    · exact other i steps within more (by rw [ununified_allowed, kind]; rfl)
    · exact one i steps within more kind
  · intro steady
    have rises : ∀ i steps : Nat, (i : Int) < dst.sboxW → steps + 1 < dst.sboxH.toNat →
        Rises matrix src (columnPixel guides dst i steps)
          (columnPixel guides dst i (steps + 1)) := by
      intro i steps within more
      by_cases loose : Loose guides matrix dst i steps
      · exact steady i steps within more loose
      · exact columnPixel_rises sound short top within more loose
    exact ⟨fun i steps within more _ => rises i steps within more,
      fun i steps within more _ => rises i steps within more⟩

/-- A box without columns or rows is run without a visit. -/
theorem rowsAscend_empty {final : Traversal} (flat : dst.sboxW ≤ 0 ∨ dst.sboxH ≤ 0)
    (ran : bsPerspectiveBoxRgbComplex guides mem src dst matrix zeroPoint isAbgrOrder nv2bgrAlpha
      image = some final) : RowsAscend guides matrix src dst final.pixels := by
  have none : ∀ phase : Phase, phase.size guides dst = 0 := by
    intro phase
    rcases flat with narrow | low
    · rw [Phase.size, Int.toNat_of_nonpos narrow]
      rfl
    · simp [Phase.size, Int.toNat_of_nonpos low]
  unfold bsPerspectiveBoxRgbComplex at ran
  simp only [none, Merge.loop, Option.bind_eq_bind, Option.bind_some,
    Option.bind_eq_some_iff] at ran
  obtain ⟨_, _, start, started, same⟩ := ran
  obtain rfl := Option.some.inj same
  unfold perspectiveStart at started
  simp only [Option.bind_eq_bind, Option.bind_eq_some_iff, Option.some.injEq] at started
  obtain ⟨_, _, rfl⟩ := started
  exact List.IsChain.nil

/-- A box that is run starts in rows with numbers of 16 bits. -/
theorem started_top {final : Traversal} (ran : bsPerspectiveBoxRgbComplex guides mem src dst matrix
    zeroPoint isAbgrOrder nv2bgrAlpha image = some final) (wide : 0 < dst.sboxW)
    (positive : 0 < dst.sboxH) : dst.sboxY < 65536 := by
  unfold bsPerspectiveBoxRgbComplex perspectiveStart at ran
  simp only [Option.bind_eq_bind, Option.bind_eq_some_iff, Option.guard_eq_some'] at ran
  obtain ⟨_, _, _, ⟨_, accepted, _⟩, _⟩ := ran
  rw [List.all_eq_true] at accepted
  -- The first column is converted, at a row of the box.
  have first := accepted 0 (List.mem_range.mpr (by decide))
  by_contra low
  have place : (dstColPointInit guides dst 0).y ≥ 65536 := by
    unfold dstColPointInit
    simp only [Nat.cast_zero, if_pos wide]
    split_ifs <;> omega
  simp [perspectiveDst2src, wide.not_ge, place.not_gt] at first

/-- A footprint that is not empty starts within the source box. -/
theorem footprintSide_start {s0 s1 s2 s3 size : Int} (some : (footprintSide s0 s1 s2 s3 size).2 ≠ 0) :
    0 ≤ (footprintSide s0 s1 s2 s3 size).1 := by
  obtain ⟨low, high, order, start, spans⟩ := footprintSide_range s0 s1 s2 s3 size
  obtain ⟨differ, _⟩ := spans some
  -- In a box without pixels the clipped ends are the same, unless the footprint starts at zero.
  have ends : 0 ≤ clip low 0 (size - 1) ∨ clip (high + 1) 0 (size - 1) = clip low 0 (size - 1) := by
    unfold clip
    split_ifs <;> omega
  omega

/-- A configuration that one of the two functions emits for a perspective box. -/
def Configured (matrix : Matrix) (leftover : Int) (nv2bgrAlpha : UInt8) (info : BoxAffineInfo)
    (src dst : DataInfo) (coef : Fin 9 → UInt32) (offset : Fin 2 → UInt32) (cfg : PerspectiveCfg) :
    Prop :=
  (∃ cfgs, bsPerspectiveCfgStuff matrix (wholeGuides matrix dst) leftover nv2bgrAlpha info src dst
      coef offset = some cfgs ∧ cfg ∈ cfgs) ∨
    ∃ cfgs, perspectiveBoxSplit matrix (boxGuides matrix) nv2bgrAlpha info src dst coef offset =
      some cfgs ∧ cfg ∈ cfgs

/--
In every run of a configuration the source rows ascend within each phase exactly where no column
goes back in its first step from an extreme point in the box.

Rows so far down that a numerator is too large for 64 bits are asked for as well.
-/
theorem rowsAscend_iff {matrix : Matrix} {leftover : Int} {nv2bgrAlpha : UInt8}
    {info : BoxAffineInfo} {src dst : DataInfo} {coef : Fin 9 → UInt32} {offset : Fin 2 → UInt32}
    {cfg : PerspectiveCfg} {mem image : Memory} {isAbgrOrder : Nat} {final : Traversal}
    (configured : Configured matrix leftover nv2bgrAlpha info src dst coef offset cfg)
    (ran : bsPerspectiveBoxRgbComplex cfg.guides mem cfg.src cfg.dst cfg.matrix cfg.zeroPoint
      isAbgrOrder cfg.nv2bgrAlpha image = some final) :
    RowsAscend cfg.guides cfg.matrix cfg.src cfg.dst final.pixels ↔
      Steady cfg.guides cfg.matrix cfg.src cfg.dst := by
  -- A box without pixels has no visit, and no step.
  by_cases flat : cfg.dst.sboxW ≤ 0 ∨ cfg.dst.sboxH ≤ 0
  · refine iff_of_true (rowsAscend_empty flat ran) fun i steps within more => ?_
    omega
  rw [not_or, not_le, not_le] at flat
  obtain ⟨wide, positive⟩ := flat
  have asserted : cfg.dst.sboxW ≤ 64 ∧ cfg.dst.sboxH ≤ 64 := by
    have run := ran
    unfold bsPerspectiveBoxRgbComplex at run
    simp only [Option.bind_eq_bind, Option.bind_eq_some_iff, Option.guard_eq_some'] at run
    obtain ⟨_, ⟨width, height, _⟩, _⟩ := run
    exact ⟨width, height⟩
  have low := started_top ran wide positive
  rcases configured with ⟨cfgs, made, member⟩ | ⟨cfgs, made, member⟩
  · unfold bsPerspectiveCfgStuff at made
    simp only [Option.ite_none_right_eq_some, Option.some.injEq] at made
    obtain ⟨_, rfl⟩ := made
    obtain rfl := List.mem_singleton.mp member
    refine rowsAscend_steady ?_ ?_ ?_ ran positive
    · exact (wholeGuides_computed ⟨rfl, rfl⟩ asserted.1 rfl).sound (le_refl 0) (le_refl 0) asserted.2
    · exact ⟨le_refl 0, ⟨le_refl 0, low⟩, ⟨wide.le, asserted.1⟩, ⟨positive.le, asserted.2⟩,
        by simp only [BscHwOnceCfg.dst, wholeCfg] at asserted ⊢; omega,
        by simp only [BscHwOnceCfg.dst, wholeCfg] at asserted ⊢; omega⟩
    · exact (by decide : (-2 : Int) ≤ 0)
  · obtain ⟨⟨_, narrow⟩, parts⟩ := perspectiveBoxSplit_mem made
    obtain ⟨box, listed, ⟨_, tall⟩, rfl⟩ := parts cfg member
    obtain ⟨left, top, width, height, right, _⟩ := sbox_within listed
    obtain ⟨i, _, j, _, place⟩ := mem_dstSboxes.mp listed
    have row : box.y = (j : Int) * 64 := by rw [place]; rfl
    refine rowsAscend_steady ?_ ?_ ?_ ran positive
    · exact (boxGuides_computed ⟨rfl, rfl⟩ ⟨rfl, width.2⟩ rfl).sound left top height.2
    · refine ⟨left, ⟨top, low⟩, ⟨wide.le, asserted.1⟩, ⟨positive.le, asserted.2⟩, ?_, ?_⟩
      · show box.x + box.w ≤ 65536
        unfold dstMaxWidth at narrow
        omega
      · show box.y + box.h ≤ 65536
        have under : box.y < 65536 := low
        omega
    · have start := footprintSide_start tall
      exact le_trans (by decide) start

/-- A destination of one column and two rows in the order of the source ascends. -/
theorem rowsAscend_iff_upright : ∃ cfg final,
    Configured ![65536, 0, 65536, 0, 65536, 65536, 0, 0, 65536] 0 9 ⟨⟨0, 0, 4, 4⟩, 0⟩
      ⟨64, 0, .bgra, 4, 4, 16⟩ ⟨64, 0, .bgra, 1, 2, 4⟩ (fun _ => 0) (fun _ => 0) cfg ∧
    bsPerspectiveBoxRgbComplex cfg.guides (fun address => UInt8.ofNat address.toNat) cfg.src cfg.dst
      cfg.matrix cfg.zeroPoint 0 cfg.nv2bgrAlpha (fun _ => 0) = some final ∧
    RowsAscend cfg.guides cfg.matrix cfg.src cfg.dst final.pixels := by
  let matrix : Matrix := ![65536, 0, 65536, 0, 65536, 65536, 0, 0, 65536]
  let cfg : PerspectiveCfg :=
    { wholeCfg matrix 0 9 ⟨⟨0, 0, 4, 4⟩, 0⟩ ⟨64, 0, .bgra, 4, 4, 16⟩ ⟨64, 0, .bgra, 1, 2, 4⟩
        (fun _ => 0) (fun _ => 0) with guides := wholeGuides matrix ⟨64, 0, .bgra, 1, 2, 4⟩ }
  have configured : Configured matrix 0 9 ⟨⟨0, 0, 4, 4⟩, 0⟩ ⟨64, 0, .bgra, 4, 4, 16⟩
      ⟨64, 0, .bgra, 1, 2, 4⟩ (fun _ => 0) (fun _ => 0) cfg :=
    Or.inl ⟨[cfg], if_pos (by decide), List.mem_singleton.mpr rfl⟩
  have runs : (bsPerspectiveBoxRgbComplex cfg.guides (fun address => UInt8.ofNat address.toNat)
      cfg.src cfg.dst cfg.matrix cfg.zeroPoint 0 cfg.nv2bgrAlpha (fun _ => 0)).isSome := by
    decide +kernel
  obtain ⟨final, ran⟩ := Option.isSome_iff_exists.mp runs
  refine ⟨cfg, final, configured, ran, (rowsAscend_iff configured ran).mpr ?_⟩
  -- The only step is the first one of the only column, from row 1 of the source to row 2.
  intro i steps within more _
  have column : (i : Int) < 1 := within
  have row : steps + 1 < 2 := more
  obtain rfl : i = 0 := by omega
  obtain rfl : steps = 0 := by omega
  decide +kernel

/--
A destination of one column and two rows that is turned upside down does not.

Its column comes down the source, but starts at the upper row, the last one of the source.
-/
theorem not_rowsAscend_flipped : ∃ cfg final,
    Configured ![65536, 0, 65536, 0, -65536, 131072, 0, 0, 65536] 0 9 ⟨⟨0, 0, 4, 4⟩, 0⟩
      ⟨64, 0, .bgra, 4, 4, 16⟩ ⟨64, 0, .bgra, 1, 2, 4⟩ (fun _ => 0) (fun _ => 0) cfg ∧
    bsPerspectiveBoxRgbComplex cfg.guides (fun address => UInt8.ofNat address.toNat) cfg.src cfg.dst
      cfg.matrix cfg.zeroPoint 0 cfg.nv2bgrAlpha (fun _ => 0) = some final ∧
    ¬ RowsAscend cfg.guides cfg.matrix cfg.src cfg.dst final.pixels := by
  let matrix : Matrix := ![65536, 0, 65536, 0, -65536, 131072, 0, 0, 65536]
  let cfg : PerspectiveCfg :=
    { wholeCfg matrix 0 9 ⟨⟨0, 0, 4, 4⟩, 0⟩ ⟨64, 0, .bgra, 4, 4, 16⟩ ⟨64, 0, .bgra, 1, 2, 4⟩
        (fun _ => 0) (fun _ => 0) with guides := wholeGuides matrix ⟨64, 0, .bgra, 1, 2, 4⟩ }
  have visits : (bsPerspectiveBoxRgbComplex cfg.guides (fun address => UInt8.ofNat address.toNat)
      cfg.src cfg.dst cfg.matrix cfg.zeroPoint 0 cfg.nv2bgrAlpha (fun _ => 0)).map
      Traversal.pixels = some [(0, 0), (0, 1)] := by
    decide +kernel
  obtain ⟨final, ran, pixels⟩ := Option.map_eq_some_iff.mp visits
  refine ⟨cfg, final, Or.inl ⟨[cfg], if_pos (by decide), List.mem_singleton.mpr rfl⟩, ran, ?_⟩
  rw [pixels, RowsAscend, List.isChain_pair]
  decide +kernel

end Aip.Bscaler
