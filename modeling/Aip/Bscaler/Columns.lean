import Aip.Bscaler.Common

/-! The columns of a destination box that are walked side by side, and the scan for the least one. -/

namespace Aip.Bscaler

/-- `s32_point_s`. -/
structure S32Point where
  x : Int
  y : Int
  deriving DecidableEq, Repr

/-- `point_min` between two columns: the first one where it is strictly ahead, else the second. -/
def pointMin (points : Nat → S32Point) (p0 p1 : Nat) (xMono yMono : Bool) : Nat :=
  let y0 := fixWhole (points p0).y
  let y1 := fixWhole (points p1).y
  let x0 := fixWhole (points p0).x
  let x1 := fixWhole (points p1).x
  let inverseX0 := if xMono ≠ yMono then -x0 else x0
  let inverseX1 := if xMono ≠ yMono then -x1 else x1
  if y0 > y1 then p1
  else if y0 < y1 then p0
  else if inverseX0 < inverseX1 then p0 else p1

/-- The variables of a scan over the columns: `idx`, with `-1` as `none`, and the pointer `min`. -/
structure Scan where
  idx : Option Nat
  min : Option Nat
  deriving DecidableEq, Repr

/-- The loop body that all scans share, at one column. -/
def scanColumn (points : Nat → S32Point) (mask : Nat → Bool) (xMono yMono : Bool) (scan : Scan)
    (i : Nat) : Scan :=
  let min :=
    if mask i then scan.min
    else match scan.min with
      | none => some i
      | some least => some (pointMin points i least xMono yMono)
  { idx := if min = some i then some i else scan.idx, min := min }

/-- `get_min_point`. -/
def getMinPoint (points : Nat → S32Point) (mask : Nat → Bool) (xMono yMono : Bool) : Option Nat :=
  ((List.range oboxSize).foldl (scanColumn points mask xMono yMono) ⟨some 0, none⟩).idx

/-- Whether bit 1 of a `mono` byte says `INCREASE`, for the direction of the columns. -/
def xIncreases (mono : Nat) : Bool := mono >>> 1 &&& 1 = 0

/-- Whether bit 0 of a `mono` byte says `INCREASE`, for the direction of the rows. -/
def yIncreases (mono : Nat) : Bool := mono &&& 1 = 0

/-- `get_min_point_unified`, over the columns that go the same way in both directions. -/
def getMinPointUnified (points : Nat → S32Point) (mask : Nat → Bool) (mono : Nat → Nat) :
    Option Nat :=
  ((List.range oboxSize).foldl (fun scan i =>
    if xIncreases (mono i) == yIncreases (mono i) then
      scanColumn points mask (xIncreases (mono i)) (yIncreases (mono i)) scan i
    else scan) ⟨none, none⟩).idx

/-- `get_min_point_ununified`, over the other columns. -/
def getMinPointUnunified (points : Nat → S32Point) (mask : Nat → Bool) (mono : Nat → Nat) :
    Option Nat :=
  ((List.range oboxSize).foldl (fun scan i =>
    if xIncreases (mono i) != yIncreases (mono i) then
      scanColumn points mask (xIncreases (mono i)) (yIncreases (mono i)) scan i
    else scan) ⟨none, none⟩).idx

/-- The arrays of a traversal: where each column stands, its source point, and whether it is done. -/
structure Columns where
  dstColPoint : Nat → S32Point
  srcColPoint : Nat → S32Point
  mask : Nat → Bool

/-- A round of a traversal: the column it picks and its mask, the destination pixel, the source. -/
structure Visit where
  idx : Nat
  masked : Bool
  dx : Int
  dy : Int
  sxp : Int
  syp : Int
  deriving DecidableEq, Repr

/-- The round that picks a column. -/
def Columns.visit (columns : Columns) (idx : Nat) : Visit :=
  { idx := idx
    masked := columns.mask idx
    dx := (columns.dstColPoint idx).x
    dy := (columns.dstColPoint idx).y
    sxp := s16 (fixWhole (columns.srcColPoint idx).x)
    syp := s16 (fixWhole (columns.srcColPoint idx).y) }

/-- The destination pixel of a round. -/
def Visit.pixel (visit : Visit) : Raster.Point := (visit.dx, visit.dy)

/-- A traversal in progress: its columns, the destination so far, and the rounds made. -/
structure Traversal extends Columns where
  image : Memory
  visits : List Visit

/-- The destination pixels of a traversal in the order of its rounds. -/
def Traversal.pixels (traversal : Traversal) : List Raster.Point := traversal.visits.map Visit.pixel

/-- How often `hit` counts a pixel, by its place in the destination box. -/
def Traversal.hit (traversal : Traversal) (dst : BsBox) (x y : Int) : Nat :=
  traversal.visits.countP fun visit => visit.dx - dst.sboxX = x ∧ visit.dy - dst.sboxY = y

/-- Source points in the order of the scan: by row, then by column in one of the two directions. -/
def InOrder (inverse : Bool) (first second : S32Point) : Prop :=
  fixWhole first.y < fixWhole second.y ∨ fixWhole first.y = fixWhole second.y ∧
    if inverse then fixWhole second.x ≤ fixWhole first.x else fixWhole first.x ≤ fixWhole second.x

variable {inverse : Bool} {a b c : S32Point} {points : Nat → S32Point} {mask : Nat → Bool}
  {counts xMono yMono : Nat → Bool}

theorem InOrder.refl : InOrder inverse a a := by
  cases inverse <;> simp [InOrder]

theorem InOrder.trans (first : InOrder inverse a b) (second : InOrder inverse b c) :
    InOrder inverse a c := by
  cases inverse <;> simp only [InOrder, Bool.false_eq_true, if_true, if_false] at * <;> omega

/-- The smaller of two columns is one of them and in order with both. -/
theorem pointMin_spec (points : Nat → S32Point) (p0 p1 : Nat) (xm ym : Bool) :
    (pointMin points p0 p1 xm ym = p0 ∨ pointMin points p0 p1 xm ym = p1) ∧
      InOrder (xm != ym) (points (pointMin points p0 p1 xm ym)) (points p0) ∧
      InOrder (xm != ym) (points (pointMin points p0 p1 xm ym)) (points p1) := by
  -- The rows decide first, and the columns in the direction of the two signs where they are equal.
  have column : ∀ v : Int, (if xm ≠ ym then -v else v) = if (xm != ym) then -v else v := by
    intro v
    cases xm <;> cases ym <;> rfl
  unfold pointMin InOrder
  simp only [column]
  cases (xm != ym) <;> simp only [Bool.false_eq_true, if_true, if_false] <;> split_ifs <;> omega

/-- What a scan has found among the first columns that count. -/
def Scanned (counts mask : Nat → Bool) (points : Nat → S32Point) (inverse : Bool)
    (start : Option Nat) (n : Nat) (scan : Scan) : Prop :=
  (scan = ⟨start, none⟩ ∧ ∀ i < n, counts i → mask i) ∨
    ∃ least < n, scan = ⟨some least, some least⟩ ∧ counts least ∧ mask least = false ∧
      ∀ i < n, counts i → mask i = false → InOrder inverse (points least) (points i)

variable {start : Option Nat} {scan : Scan} {n : Nat}

/-- A column that does not count or is done changes nothing. -/
theorem Scanned.skip (before : Scanned counts mask points inverse start n scan)
    (passed : counts n → mask n) : Scanned counts mask points inverse start (n + 1) scan := by
  rcases before with ⟨shape, none⟩ | ⟨least, below, shape, counted, free, best⟩
  · refine Or.inl ⟨shape, fun i within counting => ?_⟩
    rcases Nat.lt_succ_iff_lt_or_eq.mp within with earlier | rfl
    · exact none i earlier counting
    · exact passed counting
  · refine Or.inr ⟨least, by omega, shape, counted, free, fun i within counting opened => ?_⟩
    rcases Nat.lt_succ_iff_lt_or_eq.mp within with earlier | rfl
    · exact best i earlier counting opened
    · rw [passed counting] at opened
      cases opened

/-- An open column becomes the first candidate, or is compared with the best one. -/
theorem Scanned.take (before : Scanned counts mask points inverse start n scan)
    (counted : counts n) (free : mask n = false) {xm ym : Bool} (same : (xm != ym) = inverse) :
    Scanned counts mask points inverse start (n + 1) (scanColumn points mask xm ym scan n) := by
  rcases before with ⟨rfl, none⟩ | ⟨least, below, rfl, counting, opened, best⟩
  · refine Or.inr ⟨n, by omega, by simp [scanColumn, free], counted, free, ?_⟩
    intro i within counting opened
    rcases Nat.lt_succ_iff_lt_or_eq.mp within with earlier | rfl
    · rw [none i earlier counting] at opened
      cases opened
    · exact InOrder.refl
  · obtain ⟨one, first, second⟩ := pointMin_spec points n least xm ym
    rw [same] at first second
    have ahead : ∀ i < n + 1, counts i → mask i = false →
        InOrder inverse (points (pointMin points n least xm ym)) (points i) := by
      intro i within counting opened
      rcases Nat.lt_succ_iff_lt_or_eq.mp within with earlier | rfl
      · exact second.trans (best i earlier counting opened)
      · exact first
    -- The index follows the candidate only when the candidate changes.
    rcases one with here | there
    · rw [here] at ahead
      exact Or.inr ⟨n, by omega, by simp [scanColumn, free, here], counted, free, ahead⟩
    · rw [there] at ahead
      have other : least ≠ n := by omega
      exact Or.inr ⟨least, by omega, by simp [scanColumn, free, there, other], counting, opened,
        ahead⟩

/-- A column that is done leaves the scan alone. -/
theorem scanColumn_done (before : Scanned counts mask points inverse start n scan)
    (done : mask n = true) {xm ym : Bool} : scanColumn points mask xm ym scan n = scan := by
  rcases before with ⟨rfl, _⟩ | ⟨least, below, rfl, _⟩
  · simp [scanColumn, done]
  · have other : least ≠ n := by omega
    simp [scanColumn, done, other]

/-- The scan knows the least of the columns it has passed. -/
theorem scanned (points : Nat → S32Point) (mask : Nat → Bool)
    (uniform : ∀ i, counts i → (xMono i != yMono i) = inverse) (start : Option Nat) (n : Nat) :
    Scanned counts mask points inverse start n ((List.range n).foldl (fun scan i =>
      if counts i then scanColumn points mask (xMono i) (yMono i) scan i else scan)
      ⟨start, none⟩) := by
  -- The induction is on the columns passed; a new one counts and is open, or changes nothing.
  induction n with
  | zero => exact Or.inl ⟨rfl, by simp⟩
  | succ n ih =>
    rw [List.range_succ, List.foldl_append, List.foldl_cons, List.foldl_nil]
    by_cases counted : counts n
    · rw [if_pos counted]
      by_cases done : mask n
      · rw [scanColumn_done ih done]
        exact ih.skip fun _ => done
      · exact ih.take counted (by simpa using done) (uniform n counted)
    · rw [if_neg counted]
      exact ih.skip fun counting => absurd counting counted

/-- A scan that has an open column to find returns the least of them. -/
theorem scan_finds (points : Nat → S32Point) (counts xMono yMono : Nat → Bool) {inverse : Bool}
    (uniform : ∀ i, counts i → (xMono i != yMono i) = inverse) (start : Option Nat) {some' : Nat}
    (within : some' < oboxSize) (counted : counts some') (free : mask some' = false) :
    ∃ least < oboxSize, ((List.range oboxSize).foldl (fun scan i =>
        if counts i then scanColumn points mask (xMono i) (yMono i) scan i else scan)
        ⟨start, none⟩).idx = some least ∧ counts least ∧ mask least = false ∧
      ∀ i < oboxSize, counts i → mask i = false → InOrder inverse (points least) (points i) := by
  -- The column given is open, so the scan cannot have found none.
  rcases scanned points mask uniform start oboxSize with
    ⟨_, none⟩ | ⟨least, below, found, counting, open', best⟩
  · rw [none some' within counted] at free
    cases free
  · exact ⟨least, below, by rw [found], counting, open', best⟩

/-- `get_min_point` picks the least open column. -/
theorem getMinPoint_spec (points : Nat → S32Point) (xm ym : Bool) {column : Nat}
    (within : column < oboxSize) (free : mask column = false) :
    ∃ least < oboxSize, getMinPoint points mask xm ym = some least ∧ mask least = false ∧
      ∀ i < oboxSize, mask i = false → InOrder (xm != ym) (points least) (points i) := by
  obtain ⟨least, below, found, _, open', best⟩ := scan_finds points (fun _ => true) (fun _ => xm)
    (fun _ => ym) (fun _ _ => rfl) (some 0) within rfl free
  exact ⟨least, below, found, open', fun i within empty => best i within rfl empty⟩

end Aip.Bscaler
