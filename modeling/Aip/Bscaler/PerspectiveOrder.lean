import Mathlib.Data.List.Flatten
import Aip.Bscaler.AffineOrder
import Aip.Bscaler.Perspective

/-! The source-ordered perspective box fails no assertion, meets every pixel once, and stores alike. -/

namespace Aip.Bscaler

open Raster (Point turn)

variable {mem image canvas : Memory} {src dst : BsBox} {matrix : Matrix}
  {zeroPoint nv2bgrAlpha : UInt8} {isAbgrOrder : Nat} {guides : Guides} {phase : Phase}
  {traversal : Traversal} {p : Point} {i : Nat}

/-- The source point of a pixel, where the conversion accepts it. -/
def perspectivePoint (matrix : Matrix) (p : Point) : SrcPoint :=
  (perspectiveDst2src matrix p.1 p.2).getD { xp := 0, yp := 0, xw := 0, yw := 0 }

/-- The conversion accepts coordinates of 16 bits. -/
theorem perspectiveDst2src_accepts (column : p.1 < 65536) (row : p.2 < 65536) :
    perspectiveDst2src matrix p.1 p.2 = some (perspectivePoint matrix p) := by
  unfold perspectivePoint perspectiveDst2src
  rw [if_pos ⟨column, row⟩]
  simp only
  split <;> rfl

/-- A source point has whole coordinates and weights of 16 bits. -/
structure SrcPoint.Short (point : SrcPoint) : Prop where
  column : -32768 ≤ point.xp ∧ point.xp < 32768
  row : -32768 ≤ point.yp ∧ point.yp < 32768
  columnWeight : 0 ≤ point.xw ∧ point.xw < 65536
  rowWeight : 0 ≤ point.yw ∧ point.yw < 65536

/-- What the conversion returns is kept in 16 bits. -/
theorem perspectivePoint_short (matrix : Matrix) (p : Point) : (perspectivePoint matrix p).Short := by
  have signed : ∀ value : Int, -32768 ≤ s16 value ∧ s16 value < 32768 := fun value =>
    ⟨Int.le_bmod (by decide), Int.bmod_lt (by decide)⟩
  have unsigned : ∀ value : Int, 0 ≤ u16 value ∧ u16 value < 65536 := fun value =>
    ⟨Int.emod_nonneg _ (by decide), Int.emod_lt_of_pos _ (by decide)⟩
  unfold perspectivePoint perspectiveDst2src
  split
  · simp only
    split
    · exact ⟨signed _, signed _, unsigned _, unsigned _⟩
    · exact ⟨by decide, by decide, by decide, by decide⟩
  · exact ⟨by decide, by decide, by decide, by decide⟩

/-- A phase leaves 16-bit coordinates as they are and picks an open column of its kind. -/
structure Phase.Sound (phase : Phase) : Prop where
  settle : ∀ value, -32768 ≤ value → value < 32768 → phase.settle value = value
  picks : ∀ (points : Nat → S32Point) (mask : Nat → Bool) (mono : Nat → Nat), (∀ i, mono i < 4) →
    ∀ column < oboxSize, phase.allowed (mono column) → mask column = false →
      ∃ least < oboxSize, phase.pick points mask mono = some least ∧
        phase.allowed (mono least) ∧ mask least = false

/-- The columns that a phase counts. -/
def Phase.Counts (phase : Phase) (kind : Nat → Bool) (inverse : Bool) : Prop :=
  (∀ m < 4, phase.allowed m = kind m) ∧
    (∀ m, kind m → (xIncreases m != yIncreases m) = inverse) ∧
    ∀ points mask mono, phase.pick points mask mono = ((List.range oboxSize).foldl (fun scan i =>
      if kind (mono i) then scanColumn points mask (xIncreases (mono i)) (yIncreases (mono i)) scan i
      else scan) ⟨none, none⟩).idx

/-- The unified columns go the same way in both directions. -/
theorem unified_counts : unified.Counts (fun m => xIncreases m == yIncreases m) false :=
  ⟨by decide, fun _ same => by rw [beq_iff_eq.mp same]; exact bne_self_eq_false _,
    fun _ _ _ => rfl⟩

/-- The other columns go different ways in the two directions. -/
theorem ununified_counts : ununified.Counts (fun m => xIncreases m != yIncreases m) true :=
  ⟨by decide, fun _ differ => differ, fun _ _ _ => rfl⟩

/-- Columns in order have their rows in order. -/
theorem InOrder.rows {inverse : Bool} {a b : S32Point} (ordered : InOrder inverse a b) :
    fixWhole a.y ≤ fixWhole b.y := by
  rcases ordered with below | ⟨same, _⟩
  · exact below.le
  · exact same.le

/-- A phase picks the open column of its kind that has the least source row. -/
theorem Phase.Counts.picks {phase : Phase} {kind : Nat → Bool} {inverse : Bool}
    (counts : phase.Counts kind inverse) (points : Nat → S32Point) (mask : Nat → Bool)
    {mono : Nat → Nat} (bounded : ∀ i, mono i < 4) {column : Nat} (within : column < oboxSize)
    (counted : phase.allowed (mono column)) (free : mask column = false) :
    ∃ least < oboxSize, phase.pick points mask mono = some least ∧ phase.allowed (mono least) ∧
      mask least = false ∧ fixWhole (points least).y ≤ fixWhole (points column).y := by
  obtain ⟨allowed, uniform, scans⟩ := counts
  rw [allowed _ (bounded column)] at counted
  obtain ⟨least, below, found, counting, opened, best⟩ := scan_finds points (fun i => kind (mono i))
    (fun i => xIncreases (mono i)) (fun i => yIncreases (mono i)) (fun i => uniform (mono i)) none
    within counted free
  refine ⟨least, below, (scans points mask mono).trans found, ?_, opened, ?_⟩
  · rw [allowed _ (bounded least)]
    exact counting
  · exact (best column within counted free).rows

/-- The first phase keeps what it scans, and finds an open column. -/
theorem unified_sound : unified.Sound where
  settle value lower upper := by
    simp only [unified, clip, s16Min, s16Max]
    split_ifs <;> omega
  picks points mask mono bounded column within counted free := by
    obtain ⟨least, below, picked, allowed, opened, _⟩ :=
      unified_counts.picks points mask bounded within counted free
    exact ⟨least, below, picked, allowed, opened⟩

/-- So does the second phase. -/
theorem ununified_sound : ununified.Sound where
  settle value _ _ := rfl
  picks points mask mono bounded column within counted free := by
    obtain ⟨least, below, picked, allowed, opened, _⟩ :=
      ununified_counts.picks points mask bounded within counted free
    exact ⟨least, below, picked, allowed, opened⟩

/-- A phase picks an open column whose source row is the least. -/
structure Phase.Leads (phase : Phase) : Prop where
  leads : ∀ (points : Nat → S32Point) (mask : Nat → Bool) (mono : Nat → Nat), (∀ i, mono i < 4) →
    ∀ least, phase.pick points mask mono = some least → ∀ column < oboxSize,
      phase.allowed (mono column) → mask column = false →
        fixWhole (points least).y ≤ fixWhole (points column).y

/-- A phase that counts columns goes by their rows. -/
theorem Phase.Counts.leads {phase : Phase} {kind : Nat → Bool} {inverse : Bool}
    (counts : phase.Counts kind inverse) : phase.Leads where
  leads points mask mono bounded least picked column within counted free := by
    obtain ⟨other, _, found, _, _, first⟩ := counts.picks points mask bounded within counted free
    obtain rfl : other = least := Option.some.inj (found.symm.trans picked)
    exact first

/-- The row of a packed source point. -/
theorem SrcPoint.Short.packed_row {point : SrcPoint} (short : point.Short) :
    fixWhole (packPoint point).y = point.yp := by
  have weight := short.rowWeight
  unfold fixWhole packPoint u16
  simp only
  omega

/-- A picked column gives back the source point that was packed into it. -/
theorem Phase.Sound.point (faithful : phase.Sound) {point : SrcPoint} (short : point.Short) :
    phase.point (packPoint point) = point := by
  -- The whole part and the fraction of the packed number are the two it was packed from.
  have whole : ∀ value weight : Int, -32768 ≤ value → value < 32768 → 0 ≤ weight → weight < 65536 →
      phase.settle (s16 (fixWhole (value * 65536 + u16 weight))) = value := by
    intro value weight lower upper least greatest
    have kept : s16 (fixWhole (value * 65536 + u16 weight)) = value := by
      have part : fixWhole (value * 65536 + u16 weight) = value := by
        unfold fixWhole u16
        omega
      rw [part]
      exact Int.bmod_eq_of_le (by omega) (by omega)
    rw [kept]
    exact faithful.settle value lower upper
  have fraction : ∀ value weight : Int, 0 ≤ weight → weight < 65536 →
      u16 (fixFraction (value * 65536 + u16 weight)) = weight := by
    intro value weight least greatest
    unfold u16 fixFraction
    omega
  unfold Phase.point packPoint
  simp only [whole _ _ short.column.1 short.column.2 short.columnWeight.1 short.columnWeight.2,
    whole _ _ short.row.1 short.row.2 short.rowWeight.1 short.rowWeight.2,
    fraction _ _ short.columnWeight.1 short.columnWeight.2,
    fraction _ _ short.rowWeight.1 short.rowWeight.2]

/-- The stores of one pixel in plain order. -/
def perspectiveStores (mem : Memory) (src dst : BsBox) (matrix : Matrix) (zeroPoint : UInt8)
    (isAbgrOrder : Nat) (nv2bgrAlpha : UInt8) (p : Point) : List (Int × UInt8) :=
  rgbStores dst isAbgrOrder nv2bgrAlpha p.1 p.2
    (rgbByte mem src zeroPoint (perspectivePoint matrix p))

/-- The plain perspective box makes the stores of its pixels, row after row. -/
theorem bsPerspectiveBoxRgbSimple_paints (mem image : Memory) (src : BsBox) (matrix : Matrix)
    (zeroPoint : UInt8) (isAbgrOrder : Nat) (nv2bgrAlpha : UInt8) (left : 0 ≤ dst.sboxX)
    (top : 0 ≤ dst.sboxY) (width : 0 ≤ dst.sboxW) (height : 0 ≤ dst.sboxH)
    (right : dst.sboxX + dst.sboxW ≤ 65535) (bottom : dst.sboxY + dst.sboxH ≤ 65535) :
    bsPerspectiveBoxRgbSimple mem src dst matrix zeroPoint isAbgrOrder nv2bgrAlpha image =
      some (Paint.paint image ((Raster.rows dst.sboxX dst.sboxW.toNat dst.sboxY
        dst.sboxH.toNat).flatMap
          (perspectiveStores mem src dst matrix zeroPoint isAbgrOrder nv2bgrAlpha))) := by
  unfold bsPerspectiveBoxRgbSimple
  simp only [intCounter_side top height bottom, intCounter_side left width right,
    Option.bind_eq_bind, Option.bind_some]
  rw [Raster.rows, List.flatMap_assoc]
  simp only [List.flatMap_map]
  refine Paint.foldlM_paint fun dy here image => Paint.foldlM_paint fun dx there image => ?_
  rw [Raster.mem_span] at here there
  rw [perspectiveDst2src_accepts (p := (dx, dy)) (by simp only; omega) (by simp only; omega)]
  rfl

/-- A box of at most 64 rows and columns, with numbers of 16 bits. -/
structure BsBox.Short (dst : BsBox) : Prop where
  left : 0 ≤ dst.sboxX
  top : 0 ≤ dst.sboxY ∧ dst.sboxY < 65536
  width : 0 ≤ dst.sboxW ∧ dst.sboxW ≤ 64
  height : 0 ≤ dst.sboxH ∧ dst.sboxH ≤ 64
  right : dst.sboxX + dst.sboxW ≤ 65536
  bottom : dst.sboxY + dst.sboxH ≤ 65536

theorem BsBox.Fits.short (fits : dst.Fits) : dst.Short := by
  have right := fits.right
  have bottom := fits.bottom
  have height := fits.height
  exact ⟨fits.left, ⟨fits.top, by omega⟩, fits.width, height, by omega, by omega⟩

/-- Whether the limit of a column lies in the box. -/
def Guides.inside (guides : Guides) (dst : BsBox) (i : Nat) : Prop :=
  dst.sboxY ≤ guides.limit dst i ∧ guides.limit dst i < dst.sboxY + dst.sboxH

instance (guides : Guides) (dst : BsBox) (i : Nat) : Decidable (guides.inside dst i) := by
  unfold Guides.inside
  infer_instance

/-- A column starts at its limit or at an end of the box. -/
theorem start_within (guides : Guides) (positive : 0 < dst.sboxH) (i : Nat) (up : Bool) :
    dst.sboxY ≤ (if guides.inside dst i then guides.limit dst i
        else if up then dst.sboxY else dst.sboxY + dst.sboxH.toNat - 1) ∧
      (if guides.inside dst i then guides.limit dst i
        else if up then dst.sboxY else dst.sboxY + dst.sboxH.toNat - 1) <
        dst.sboxY + dst.sboxH.toNat := by
  by_cases inside : guides.inside dst i
  · rw [if_pos inside]
    obtain ⟨lower, upper⟩ := inside
    omega
  · rw [if_neg inside]
    exact end_within up positive

/-- The columns and rows of a box in the order of `dst_col_point_init`. -/
def perspectiveWalk (guides : Guides) (dst : BsBox) (positive : 0 < dst.sboxH) : Walk where
  low := dst.sboxY
  height := dst.sboxH.toNat
  width := dst.sboxW.toNat
  left i := i + dst.sboxX
  start i :=
    if guides.inside dst i then guides.limit dst i
    else if yIncreases (guides.mono dst i) then dst.sboxY else dst.sboxY + dst.sboxH.toNat - 1
  direction i := if yIncreases (guides.mono dst i) then 1 else -1
  unit _ := direction_unit _
  within i := start_within guides positive i _

variable {positive : 0 < dst.sboxH}

theorem perspectiveWalk_height : (perspectiveWalk guides dst positive).height = dst.sboxH.toNat :=
  rfl

theorem perspectiveWalk_width : (perspectiveWalk guides dst positive).width = dst.sboxW.toNat := rfl

/-- Where an open column goes in a round. -/
def movedPerspective (guides : Guides) (dst : BsBox) (idx : Nat) (point : S32Point) : S32Point :=
  { point with
    y :=
      if yIncreases (guides.mono dst idx) then
        if guides.inside dst idx ∧ point.y + 1 = dst.sboxY + dst.sboxH then dst.sboxY
        else point.y + 1
      else
        if guides.inside dst idx ∧ point.y - 1 = dst.sboxY - 1 then dst.sboxY + dst.sboxH - 1
        else point.y - 1 }

/-- Whether a column has come back to its limit or, where it has none, has left the box. -/
def leftPerspective (guides : Guides) (dst : BsBox) (idx : Nat) (point : S32Point) : Bool :=
  if guides.inside dst idx then point.y = guides.limit dst idx
  else if yIncreases (guides.mono dst idx) then point.y = dst.sboxY + dst.sboxH
  else point.y = dst.sboxY - 1

/-- The update of an open column. -/
theorem colPointUpdate_open {columns : Columns} {idx : Nat} (opened : columns.mask idx = false) :
    colPointUpdate guides dst matrix idx columns =
      (if leftPerspective guides dst idx
          (movedPerspective guides dst idx (columns.dstColPoint idx)) then
        some (columns.srcColPoint idx)
      else (perspectiveDst2src matrix (columns.dstColPoint idx).x
        (movedPerspective guides dst idx (columns.dstColPoint idx)).y).map packPoint).map
      fun source =>
        { dstColPoint := Function.update columns.dstColPoint idx
            (movedPerspective guides dst idx (columns.dstColPoint idx))
          srcColPoint := Function.update columns.srcColPoint idx source
          mask := Function.update columns.mask idx (leftPerspective guides dst idx
            (movedPerspective guides dst idx (columns.dstColPoint idx))) } := by
  -- The source asks whether the limit is outside the box; the guides, whether it is inside.
  have overflow : (decide (guides.limit dst idx > dst.sboxY + dst.sboxH - 1) ||
      decide (guides.limit dst idx < dst.sboxY)) = !decide (guides.inside dst idx) := by
    rw [← Bool.decide_or, ← decide_not, decide_eq_decide]
    unfold Guides.inside
    omega
  unfold colPointUpdate movedPerspective leftPerspective
  simp only [opened, overflow, Bool.not_not, Bool.false_or, Bool.false_eq_true, if_false,
    decide_eq_true_eq]
  by_cases inside : guides.inside dst idx <;>
    cases yIncreases (guides.mono dst idx) <;>
    simp only [inside, true_and, false_and, if_true, if_false, Bool.false_eq_true,
      decide_eq_true_eq]

/-- A column is done after a full turn, and stands at its next pixel before that. -/
theorem movedPerspective_pixel {done : Nat} (more : done < (perspectiveWalk guides dst positive).height)
    {point : S32Point}
    (stood : point = ⟨((perspectiveWalk guides dst positive).pixel i done).1,
      ((perspectiveWalk guides dst positive).pixel i done).2⟩) :
    leftPerspective guides dst i (movedPerspective guides dst i point) =
        decide (done + 1 = (perspectiveWalk guides dst positive).height) ∧
      (done + 1 < (perspectiveWalk guides dst positive).height →
        movedPerspective guides dst i point =
          ⟨((perspectiveWalk guides dst positive).pixel i (done + 1)).1,
            ((perspectiveWalk guides dst positive).pixel i (done + 1)).2⟩) := by
  rw [perspectiveWalk_height] at more ⊢
  have height : ((dst.sboxH.toNat : Nat) : Int) = dst.sboxH := Int.toNat_of_nonneg positive.le
  subst stood
  by_cases inside : guides.inside dst i
  · -- The walk comes round, and is back at the limit after as many steps as there are rows.
    have within : dst.sboxY ≤ guides.limit dst i ∧
        guides.limit dst i < dst.sboxY + dst.sboxH.toNat := by
      rw [height]
      exact inside
    have unit := (perspectiveWalk guides dst positive).unit i
    have next : (movedPerspective guides dst i
        ⟨((perspectiveWalk guides dst positive).pixel i done).1,
          ((perspectiveWalk guides dst positive).pixel i done).2⟩) =
        ⟨((perspectiveWalk guides dst positive).pixel i (done + 1)).1,
          ((perspectiveWalk guides dst positive).pixel i (done + 1)).2⟩ := by
      unfold movedPerspective Walk.pixel perspectiveWalk
      simp only [inside, true_and, if_true, S32Point.mk.injEq]
      cases yIncreases (guides.mono dst i)
      · simp only [Bool.false_eq_true, if_false]
        rw [Raster.turn_succ_down (by omega), height]
      · simp only [if_true]
        rw [Raster.turn_succ_up (by omega), height]
    refine ⟨?_, fun _ => next⟩
    rw [next, leftPerspective, if_pos inside, decide_eq_decide]
    have back := Raster.turn_back unit within (Nat.succ_pos done) (by omega)
    simp only [Walk.pixel, perspectiveWalk, inside, if_true] at back ⊢
    exact back
  · unfold leftPerspective movedPerspective Walk.pixel perspectiveWalk
    simp only [inside, false_and, if_false]
    cases yIncreases (guides.mono dst i)
    · simp only [Bool.false_eq_true, if_false, decide_eq_decide]
      rw [Raster.turn_down more]
      refine ⟨by omega, fun next => ?_⟩
      rw [Raster.turn_down next]
      simp only [S32Point.mk.injEq, true_and]
      omega
    · simp only [if_true, decide_eq_decide]
      rw [Raster.turn_up more]
      refine ⟨by omega, fun next => ?_⟩
      rw [Raster.turn_up next]
      simp only [S32Point.mk.injEq, true_and]
      omega

/-- A `mono` byte has two bits. -/
theorem Guides.mono_lt (guides : Guides) (dst : BsBox) (i : Nat) : guides.mono dst i < 4 := by
  have bits : ∀ x y : Bool, x.toNat <<< 1 ||| y.toNat < 4 := by decide
  unfold Guides.mono
  split
  · exact bits _ _
  · decide

/-- The packed source point of a pixel. -/
def perspectiveSource (matrix : Matrix) (point : S32Point) : S32Point :=
  packPoint (perspectivePoint matrix (point.x, point.y))

/-- What a phase of the perspective traversal shows of its columns. -/
abbrev PerspectiveShows (phase : Phase) (guides : Guides) (mem : Memory) (src dst : BsBox)
    (matrix : Matrix) (zeroPoint : UInt8) (isAbgrOrder : Nat) (nv2bgrAlpha : UInt8)
    (before : Nat → Nat) (canvas : Memory) (positive : 0 < dst.sboxH) :=
  Walk.Shows (perspectiveWalk guides dst positive) (perspectiveSource matrix)
    (fun i => phase.allowed (guides.mono dst i)) before canvas
    (perspectiveStores mem src dst matrix zeroPoint isAbgrOrder nv2bgrAlpha) (fun _ => True)

/-- The conversion accepts every pixel that a column of the box walks through. -/
theorem perspectiveWalk_accepts (short : dst.Short) {steps : Nat} (inside : i < dst.sboxW.toNat) :
    perspectiveDst2src matrix ((perspectiveWalk guides dst positive).pixel i steps).1
        ((perspectiveWalk guides dst positive).pixel i steps).2 =
      some (perspectivePoint matrix ((perspectiveWalk guides dst positive).pixel i steps)) := by
  have right := short.right
  have bottom := short.bottom
  have row : dst.sboxY ≤ ((perspectiveWalk guides dst positive).pixel i steps).2 ∧
      ((perspectiveWalk guides dst positive).pixel i steps).2 < dst.sboxY + dst.sboxH.toNat :=
    Walk.pixel_within _ i steps
  refine perspectiveDst2src_accepts ?_ (by omega)
  simp only [Walk.pixel, perspectiveWalk]
  omega

/-- The source row of a pixel is not below that of another one. -/
abbrev SourceRows (matrix : Matrix) (p q : Point) : Prop :=
  (perspectivePoint matrix p).yp ≤ (perspectivePoint matrix q).yp

/-- A round of a phase takes the first pixel of an open column of its kind. -/
theorem perspectiveRound_takes (sound : phase.Sound) (leads : phase.Leads) (short : dst.Short)
    {before done : Nat → Nat} {lanes : Nat → List Point}
    (shows : PerspectiveShows phase guides mem src dst matrix zeroPoint isAbgrOrder nv2bgrAlpha
      before canvas positive done traversal lanes) (left : ∃ lane, lanes lane ≠ []) :
    ∃ next lane item rest, perspectiveRound phase guides mem src dst matrix zeroPoint isAbgrOrder
        nv2bgrAlpha traversal = some next ∧ lanes lane = item :: rest ∧
      (∀ other front, (lanes other).head? = some front → SourceRows matrix item front) ∧
      next.pixels = traversal.pixels ++ [item] ∧
      ∃ done', PerspectiveShows phase guides mem src dst matrix zeroPoint isAbgrOrder nv2bgrAlpha
        before canvas positive done' next (Function.update lanes lane rest) := by
  -- A lane with pixels is an open column of the phase, so the scan finds one.
  obtain ⟨lane, filled⟩ := left
  obtain ⟨first, tail, shape⟩ := List.exists_cons_of_ne_nil filled
  obtain ⟨counted, within, free, _⟩ := shows.front shape
  have narrow : ∀ i, i < dst.sboxW.toNat → i < oboxSize := by
    intro i below
    have := short.width
    unfold oboxSize
    omega
  obtain ⟨idx, _, picked, allowed, opened⟩ := sound.picks traversal.srcColPoint traversal.mask
    (guides.mono dst) (guides.mono_lt dst) lane (narrow lane within) counted free
  obtain ⟨more, inside⟩ := shows.stands.opened opened
  have stood := shows.stands.place idx more
  have source := shows.stands.source idx more
  obtain ⟨closes, moves⟩ := movedPerspective_pixel more stood
  have pixel : (traversal.visit idx).pixel =
      (perspectiveWalk guides dst positive).pixel idx (done idx) := by
    rw [Visit.pixel, Columns.visit, stood]
  -- The source of the next pixel is converted unless the column is done.
  obtain ⟨origin, converted, follows⟩ : ∃ origin,
      (if leftPerspective guides dst idx
          (movedPerspective guides dst idx (traversal.dstColPoint idx)) then
        some (traversal.srcColPoint idx)
      else (perspectiveDst2src matrix (traversal.dstColPoint idx).x
        (movedPerspective guides dst idx (traversal.dstColPoint idx)).y).map packPoint) =
        some origin ∧
      (done idx + 1 < (perspectiveWalk guides dst positive).height → origin = perspectiveSource
        matrix (movedPerspective guides dst idx (traversal.dstColPoint idx))) := by
    rw [closes]
    by_cases last : done idx + 1 = (perspectiveWalk guides dst positive).height
    · exact ⟨_, if_pos (by simpa using last), fun next => absurd last (Nat.ne_of_lt next)⟩
    · have next : done idx + 1 < (perspectiveWalk guides dst positive).height := by omega
      have place := moves next
      refine ⟨perspectiveSource matrix
        (movedPerspective guides dst idx (traversal.dstColPoint idx)), ?_, fun _ => rfl⟩
      have column : (traversal.dstColPoint idx).x =
          (movedPerspective guides dst idx (traversal.dstColPoint idx)).x := rfl
      rw [if_neg (by simpa using last), column, place, perspectiveWalk_accepts short inside]
      rfl
  have point : phase.point (traversal.srcColPoint idx) =
      perspectivePoint matrix (traversal.visit idx).pixel := by
    rw [source]
    exact sound.point (perspectivePoint_short matrix _)
  obtain ⟨next, ran, columns, painted, logged⟩ : ∃ next : Traversal,
      perspectiveRound phase guides mem src dst matrix zeroPoint isAbgrOrder nv2bgrAlpha traversal =
        some next ∧
      next.toColumns =
        { dstColPoint := Function.update traversal.dstColPoint idx
            (movedPerspective guides dst idx (traversal.dstColPoint idx))
          srcColPoint := Function.update traversal.srcColPoint idx origin
          mask := Function.update traversal.mask idx (leftPerspective guides dst idx
            (movedPerspective guides dst idx (traversal.dstColPoint idx))) } ∧
      next.image = Paint.paint traversal.image (perspectiveStores mem src dst matrix zeroPoint
        isAbgrOrder nv2bgrAlpha (traversal.visit idx).pixel) ∧
      next.visits = traversal.visits ++ [traversal.visit idx] := by
    refine ⟨⟨_, _, _⟩, ?_, rfl, rfl, rfl⟩
    unfold perspectiveRound
    rw [picked]
    simp only [Option.bind_eq_bind, Option.bind_some, allowed, guard, if_true]
    rw [colPointUpdate_open opened, converted, point]
    rfl
  obtain ⟨rest, front, trace, after⟩ := shows.round allowed opened closes
    (fun next => ⟨moves next, follows next⟩) painted columns logged pixel trivial
  refine ⟨next, idx, _, rest, ran, front, fun other ahead stands => ?_, trace, _, after⟩
  -- What stands in front of another column was open to the scan too.
  obtain ⟨behind, shape⟩ : ∃ behind, lanes other = ahead :: behind :=
    List.head?_eq_some_iff.mp stands
  obtain ⟨counted', within', free', source'⟩ := shows.front shape
  have rows := leads.leads traversal.srcColPoint traversal.mask (guides.mono dst)
    (guides.mono_lt dst) idx picked other (narrow other within') counted' free'
  rw [source, source', perspectiveSource, perspectiveSource,
    (perspectivePoint_short matrix _).packed_row, (perspectivePoint_short matrix _).packed_row,
    stood] at rows
  rw [SourceRows, pixel]
  exact rows

/-- The columns before the first round, with the source points of those in the box. -/
def perspectiveColumns (guides : Guides) (dst : BsBox) (matrix : Matrix) : Columns where
  dstColPoint := dstColPointInit guides dst
  srcColPoint i :=
    if dst.sboxW ≤ i then { x := 0, y := 0 }
    else perspectiveSource matrix (dstColPointInit guides dst i)
  mask i := dst.sboxW ≤ i

/-- In a box that fits every conversion before the first round is accepted. -/
theorem perspectiveStart_runs (short : dst.Short) : perspectiveStart guides dst matrix image =
    some ⟨perspectiveColumns guides dst matrix, image, []⟩ := by
  have top := short.top
  have right := short.right
  have bottom := short.bottom
  have source : ∀ i : Nat, (if decide (dst.sboxW ≤ i) then some (⟨0, 0⟩ : S32Point)
      else (perspectiveDst2src matrix (dstColPointInit guides dst i).x
        (dstColPointInit guides dst i).y).map packPoint) =
      some ((perspectiveColumns guides dst matrix).srcColPoint i) := by
    intro i
    unfold perspectiveColumns
    by_cases outside : dst.sboxW ≤ i
    · simp only [outside, decide_true, if_true]
    · -- A column of the box starts in it, or one row above it where it has no rows.
      have low : (dstColPointInit guides dst i).x < 65536 ∧
          (dstColPointInit guides dst i).y < 65536 := by
        unfold dstColPointInit
        simp only [if_pos (not_le.mp outside)]
        refine ⟨by omega, ?_⟩
        split_ifs with inside
        · omega
        · have := short.height
          omega
        · omega
      simp only [outside, decide_false, Bool.false_eq_true, if_false]
      rw [perspectiveDst2src_accepts
        (p := ((dstColPointInit guides dst i).x, (dstColPointInit guides dst i).y)) low.1 low.2]
      rfl
  unfold perspectiveStart
  simp only [source, Option.isSome_some, List.all_eq_true, implies_true, guard, if_true,
    Option.getD_some]
  rfl

/-- Before the first round every column of the box has all its pixels before it. -/
theorem perspectiveColumns_stand (positive : 0 < dst.sboxH) :
    (perspectiveWalk guides dst positive).Stands (perspectiveSource matrix)
      (perspectiveColumns guides dst matrix) (perspectiveWalk guides dst positive).fresh := by
  have height : ((dst.sboxH.toNat : Nat) : Int) = dst.sboxH := Int.toNat_of_nonneg positive.le
  -- An unfinished column is within the width.
  have fresh : ∀ i, (perspectiveWalk guides dst positive).fresh i <
      (perspectiveWalk guides dst positive).height → i < dst.sboxW.toNat := by
    intro i unfinished
    by_contra outside
    rw [Walk.fresh, perspectiveWalk_width, if_neg outside] at unfinished
    omega
  constructor
  · intro i
    unfold Walk.fresh
    split <;> omega
  · intro i outside
    rw [Walk.fresh, if_neg (by omega)]
  · intro i
    rw [Walk.fresh, perspectiveWalk_width, perspectiveWalk_height]
    simp only [perspectiveColumns, decide_eq_decide]
    split <;> omega
  · intro i unfinished
    have within : (i : Int) < dst.sboxW := by
      have := fresh i unfinished
      omega
    have inside : (guides.limit dst i ≥ dst.sboxY ∧ guides.limit dst i < dst.sboxY + dst.sboxH) =
        guides.inside dst i := rfl
    rw [Walk.fresh, perspectiveWalk_width, if_pos (fresh i unfinished)]
    unfold perspectiveColumns dstColPointInit Walk.pixel
    rw [Raster.turn_zero ((perspectiveWalk guides dst positive).within i)]
    simp only [if_pos within, inside, perspectiveWalk, height, S32Point.mk.injEq, true_and]
    split_ifs <;> omega
  · intro i unfinished
    have inside := fresh i unfinished
    exact if_neg (by omega)

/-- The columns of the perspective walk make up the destination box. -/
theorem perspectiveWalk_covers (positive : 0 < dst.sboxH) :
    ((List.range dst.sboxW.toNat).flatMap
      ((perspectiveWalk guides dst positive).lane (perspectiveWalk guides dst positive).fresh)).Perm
      dst.pixels := by
  -- The columns stand from left to right.
  refine Walk.covers (fun x => (x - dst.sboxX).toNat) ?_ ?_
  · intro i within
    simp only [perspectiveWalk] at within ⊢
    omega
  · intro x lower upper
    simp only [perspectiveWalk] at upper ⊢
    omega

/-- The columns of one kind, with the pixels that are left in them. -/
def Phase.lanes (phase : Phase) (guides : Guides) (dst : BsBox) (walk : Walk) (done : Nat → Nat)
    (i : Nat) : List Point :=
  if phase.allowed (guides.mono dst i) then walk.lane done i else []

/-- The size of a phase counts the pixels of its columns. -/
theorem Phase.size_eq (phase : Phase) (guides : Guides) (positive : 0 < dst.sboxH) :
    phase.size guides dst = ((List.range dst.sboxW.toNat).flatMap (phase.lanes guides dst
      (perspectiveWalk guides dst positive) (perspectiveWalk guides dst positive).fresh)).length := by
  rw [List.length_flatMap, Phase.size]
  refine congrArg List.sum (List.map_congr_left fun i member => ?_)
  unfold Phase.lanes
  split
  · rw [Walk.lane_fresh (List.mem_range.mp member), List.length_map, List.length_range,
      perspectiveWalk_height]
  · rfl

/-- A phase merges its columns by their source rows. -/
theorem Phase.Sound.runs (sound : phase.Sound) (leads : phase.Leads) (short : dst.Short)
    {before done : Nat → Nat}
    (shows : PerspectiveShows phase guides mem src dst matrix zeroPoint isAbgrOrder nv2bgrAlpha
      before canvas positive done traversal
      (phase.lanes guides dst (perspectiveWalk guides dst positive)
        (perspectiveWalk guides dst positive).fresh)) :
    ∃ final taken, Merge.loop (perspectiveRound phase guides mem src dst matrix zeroPoint
        isAbgrOrder nv2bgrAlpha) (phase.size guides dst) traversal = some final ∧
      final.pixels = traversal.pixels ++ taken ∧
      Merge.Merges (SourceRows matrix) (phase.lanes guides dst
        (perspectiveWalk guides dst positive) (perspectiveWalk guides dst positive).fresh) taken
        (fun _ => []) ∧
      ∃ done', PerspectiveShows phase guides mem src dst matrix zeroPoint isAbgrOrder nv2bgrAlpha
        before canvas positive done' final fun _ => [] := by
  obtain ⟨final, taken, ran, trace, merges, after⟩ :=
    Merge.drain (SourceRows matrix)
      (perspectiveRound phase guides mem src dst matrix zeroPoint isAbgrOrder nv2bgrAlpha)
      Traversal.pixels
      (fun traversal lanes => ∃ done, PerspectiveShows phase guides mem src dst matrix zeroPoint
        isAbgrOrder nv2bgrAlpha before canvas positive done traversal lanes)
      (List.nodup_range (n := dst.sboxW.toNat))
      (fun _ _ ⟨_, shows⟩ _ absent => shows.outside absent)
      (fun _ _ ⟨_, shows⟩ left => perspectiveRound_takes sound leads short shows left)
      traversal _ ⟨_, shows⟩
  exact ⟨final, taken, by rw [phase.size_eq guides positive, ran], trace, merges, after⟩

/-- What is asked of a finished perspective traversal: every pixel once, and the plain bytes. -/
structure PerspectiveTraversed (mem : Memory) (src dst : BsBox) (matrix : Matrix)
    (zeroPoint : UInt8) (isAbgrOrder : Nat) (nv2bgrAlpha : UInt8) (image : Memory)
    (final : Traversal) : Prop where
  inside : ∀ visit ∈ final.visits, visit.pixel ∈ dst.pixels
  once : ∀ x y, 0 ≤ x → x < dst.sboxW → 0 ≤ y → y < dst.sboxH → final.hit dst x y = 1
  bytes : bsPerspectiveBoxRgbSimple mem src dst matrix zeroPoint isAbgrOrder nv2bgrAlpha image =
    some final.image

/-- A column is of the one kind or of the other. -/
theorem ununified_allowed (guides : Guides) (dst : BsBox) (i : Nat) :
    ununified.allowed (guides.mono dst i) = !unified.allowed (guides.mono dst i) := by
  have other : ∀ m < 4, ununified.allowed m = !unified.allowed m := by decide
  exact other _ (guides.mono_lt dst i)

/-- The two phases of a box with rows merge the columns of the two kinds, and paint every pixel. -/
theorem perspective_phases (guides : Guides) (mem image : Memory) (src : BsBox) (matrix : Matrix)
    (zeroPoint : UInt8) (isAbgrOrder : Nat) (nv2bgrAlpha : UInt8) (short : dst.Short)
    (positive : 0 < dst.sboxH) :
    ∃ half final first second, Merge.loop (perspectiveRound unified guides mem src dst matrix
        zeroPoint isAbgrOrder nv2bgrAlpha) (unified.size guides dst)
        ⟨perspectiveColumns guides dst matrix, image, []⟩ = some half ∧
      Merge.loop (perspectiveRound ununified guides mem src dst matrix zeroPoint isAbgrOrder
        nv2bgrAlpha) (ununified.size guides dst) half = some final ∧
      final.pixels = first ++ second ∧
      Merge.Merges (SourceRows matrix) (unified.lanes guides dst
        (perspectiveWalk guides dst positive) (perspectiveWalk guides dst positive).fresh) first
        (fun _ => []) ∧
      Merge.Merges (SourceRows matrix) (ununified.lanes guides dst
        (perspectiveWalk guides dst positive) (perspectiveWalk guides dst positive).fresh) second
        (fun _ => []) ∧
      final.image = Paint.paint image (final.pixels.flatMap
        (perspectiveStores mem src dst matrix zeroPoint isAbgrOrder nv2bgrAlpha)) := by
  have start : PerspectiveShows unified guides mem src dst matrix zeroPoint isAbgrOrder nv2bgrAlpha
      (perspectiveWalk guides dst positive).fresh image positive
      (perspectiveWalk guides dst positive).fresh
      ⟨perspectiveColumns guides dst matrix, image, []⟩ (unified.lanes guides dst
        (perspectiveWalk guides dst positive) (perspectiveWalk guides dst positive).fresh) :=
    ⟨perspectiveColumns_stand positive, fun _ => rfl, fun _ _ => rfl, rfl,
      fun _ member => by cases member⟩
  obtain ⟨half, first, ran, trace, merges, done, shows⟩ :=
    unified_sound.runs unified_counts.leads short start
  -- The second phase finds its columns as they were, and the others done.
  have rest : PerspectiveShows ununified guides mem src dst matrix zeroPoint isAbgrOrder nv2bgrAlpha
      done image positive done half (ununified.lanes guides dst
        (perspectiveWalk guides dst positive) (perspectiveWalk guides dst positive).fresh) := by
    refine ⟨shows.stands, fun i => ?_, fun _ _ => rfl, shows.image, fun _ _ => trivial⟩
    unfold Phase.lanes
    by_cases counted : ununified.allowed (guides.mono dst i)
    · have skipped : unified.allowed (guides.mono dst i) = false := by
        rw [ununified_allowed] at counted
        simpa using counted
      rw [if_pos counted, if_pos counted, Walk.lane, Walk.lane, shows.others i skipped]
    · rw [if_neg counted, if_neg counted]
  obtain ⟨final, second, ran', trace', merges', _, shows'⟩ :=
    ununified_sound.runs ununified_counts.leads short rest
  refine ⟨half, final, first, second, ran, ran', ?_, merges, merges', shows'.image⟩
  rw [trace', trace]
  rfl

/-- What the two phases take together are the pixels of the box. -/
theorem perspective_covers {first second : List Point}
    (merges : Merge.Merges (SourceRows matrix) (unified.lanes guides dst
      (perspectiveWalk guides dst positive) (perspectiveWalk guides dst positive).fresh) first
      (fun _ => []))
    (merges' : Merge.Merges (SourceRows matrix) (ununified.lanes guides dst
      (perspectiveWalk guides dst positive) (perspectiveWalk guides dst positive).fresh) second
      (fun _ => [])) :
    (first ++ second).Perm dst.pixels := by
  have outside : ∀ (phase : Phase) (i : Nat), i ∉ List.range dst.sboxW.toNat →
      phase.lanes guides dst (perspectiveWalk guides dst positive)
        (perspectiveWalk guides dst positive).fresh i = [] := by
    intro phase i absent
    unfold Phase.lanes
    rw [Walk.lane_done, ite_self]
    rw [Walk.fresh, perspectiveWalk_width, if_neg (by simpa using absent)]
  -- The lanes end empty, so what was taken is all that they held.
  have parts := merges.perm (List.nodup_range (n := dst.sboxW.toNat)) (outside unified)
  have parts' := merges'.perm (List.nodup_range (n := dst.sboxW.toNat)) (outside ununified)
  rw [List.flatMap_eq_nil_iff.mpr fun _ _ => rfl, List.append_nil] at parts parts'
  have lanes : ∀ i, unified.lanes guides dst (perspectiveWalk guides dst positive)
        (perspectiveWalk guides dst positive).fresh i ++
      ununified.lanes guides dst (perspectiveWalk guides dst positive)
        (perspectiveWalk guides dst positive).fresh i =
      (perspectiveWalk guides dst positive).lane (perspectiveWalk guides dst positive).fresh i := by
    intro i
    unfold Phase.lanes
    rw [ununified_allowed]
    cases unified.allowed (guides.mono dst i)
    · rfl
    · exact List.append_nil _
  apply ((parts.append parts').symm.trans (List.flatMap_append_perm _ _ _)).trans
  rw [funext lanes]
  exact perspectiveWalk_covers positive

/-- The source-ordered perspective box does what the plain loops do in every box that fits. -/
theorem bsPerspectiveBoxRgbComplex_traverses (guides : Guides) (mem image : Memory)
    (src dst : BsBox) (matrix : Matrix) (zeroPoint : UInt8) (isAbgrOrder : Nat)
    (nv2bgrAlpha : UInt8) (fits : dst.Fits) (source : src.base0 ≠ 0)
    (destination : dst.base0 ≠ 0) :
    ∃ final, bsPerspectiveBoxRgbComplex guides mem src dst matrix zeroPoint isAbgrOrder nv2bgrAlpha
        image = some final ∧
      PerspectiveTraversed mem src dst matrix zeroPoint isAbgrOrder nv2bgrAlpha image final := by
  have plain := bsPerspectiveBoxRgbSimple_paints mem image src matrix zeroPoint isAbgrOrder
    nv2bgrAlpha fits.left fits.top fits.width.1 fits.height.1 fits.right fits.bottom
  have asserted : dst.sboxW ≤ 64 ∧ dst.sboxH ≤ 64 ∧ dst.base0 ≠ 0 ∧ src.base0 ≠ 0 :=
    ⟨fits.width.2, fits.height.2, destination, source⟩
  unfold bsPerspectiveBoxRgbComplex
  simp only [guard, if_pos asserted, perspectiveStart_runs fits.short, Option.bind_eq_bind,
    Option.bind_some]
  rcases lt_or_eq_of_le fits.height.1 with positive | flat
  · obtain ⟨half, final, first, second, ran, ran', whole, merges, merges', painted⟩ :=
      perspective_phases guides mem image src matrix zeroPoint isAbgrOrder nv2bgrAlpha fits.short
        positive
    have same : final.pixels.Perm dst.pixels := by
      rw [whole]
      exact perspective_covers merges merges'
    refine ⟨final, ?_, ?_, ?_, ?_⟩
    · rw [ran]
      exact ran'
    · exact fun visit member => same.subset (List.mem_map_of_mem member)
    · exact fun x y => Traversal.hit_once same
    · rw [plain, painted]
      have rows : (Raster.rows dst.sboxX dst.sboxW.toNat dst.sboxY dst.sboxH.toNat).Perm dst.pixels :=
        Raster.rows_perm_columns
      have apart : dst.pixels.Pairwise fun p q => ¬ Paint.Clash (perspectiveStores mem src dst matrix
        zeroPoint isAbgrOrder nv2bgrAlpha) p q := rgbStores_apart fits.stride
      exact congrArg some
        ((Paint.paint_perm rows.symm apart).symm.trans (Paint.paint_perm same.symm apart))
  · -- A box without rows has no round and no pixel.
    have none : ∀ phase : Phase, phase.size guides dst = 0 := by
      intro phase
      simp [Phase.size, ← flat]
    refine ⟨⟨perspectiveColumns guides dst matrix, image, []⟩, ?_, ?_, ?_, ?_⟩
    · rw [none, none]
      rfl
    · exact fun visit member => by cases member
    · intro x y left right top bottom
      omega
    · rw [plain, ← flat]
      simp [Raster.rows, Raster.span]

/-- The traversal of a box under a matrix that turns it, with columns of both kinds. -/
theorem bsPerspectiveBoxRgbComplex_traverses_turned :
    ∃ final, bsPerspectiveBoxRgbComplex ⟨1, 128, fun i => if i = 0 then 1 else -128⟩
        (fun address => UInt8.ofNat address.toNat) ⟨64, 0, 16, 0, 0, 0, 4, 4, 1⟩
        ⟨64, 0, 8, 0, 2, 0, 2, 2, 1⟩ ![0, -65536, 131072, 65536, 0, -65536, 0, 0, 65536] 0 0 9
        (fun _ => 0) = some final ∧
      PerspectiveTraversed (fun address => UInt8.ofNat address.toNat) ⟨64, 0, 16, 0, 0, 0, 4, 4, 1⟩
        ⟨64, 0, 8, 0, 2, 0, 2, 2, 1⟩ ![0, -65536, 131072, 65536, 0, -65536, 0, 0, 65536] 0 0 9
        (fun _ => 0) final :=
  bsPerspectiveBoxRgbComplex_traverses _ _ _ _ _ _ _ _ _
    ⟨by decide, by decide, by decide, by decide, by decide, by decide, by decide⟩
    (by decide) (by decide)

/--
The two orders part at the last column of 16 bits, and the ordered one asks for buffers.

A box that ends at column 65536 keeps the plain loop going for ever, and one that ends behind it
meets the assertion of the conversion.
-/
theorem bsPerspectiveBoxRgbComplex_parts :
    (¬ ∃ final, bsPerspectiveBoxRgbComplex ⟨0, 0, fun _ => 0⟩ (fun _ => 255)
        ⟨64, 0, 4, 0, 0, 0, 1, 1, 1⟩ ⟨64, 0, 4, 0, 65535, 0, 1, 1, 1⟩
        ![0, 0, 0, 0, 0, 0, 0, 0, 65536] 0 0 9 (fun _ => 0) = some final ∧
      PerspectiveTraversed (fun _ => 255) ⟨64, 0, 4, 0, 0, 0, 1, 1, 1⟩
        ⟨64, 0, 4, 0, 65535, 0, 1, 1, 1⟩ ![0, 0, 0, 0, 0, 0, 0, 0, 65536] 0 0 9 (fun _ => 0)
        final) ∧
    (bsPerspectiveBoxRgbComplex ⟨0, 0, fun _ => 0⟩ (fun _ => 255) ⟨64, 0, 4, 0, 0, 0, 1, 1, 1⟩
      ⟨64, 0, 8, 0, 65535, 0, 2, 1, 1⟩ ![0, 0, 0, 0, 0, 0, 0, 0, 65536] 0 0 9
      (fun _ => 0)).isNone ∧
    (bsPerspectiveBoxRgbComplex ⟨0, 0, fun _ => 0⟩ (fun _ => 255) ⟨0, 0, 4, 0, 0, 0, 1, 1, 1⟩
      ⟨64, 0, 4, 0, 0, 0, 1, 1, 1⟩ ![0, 0, 0, 0, 0, 0, 0, 0, 65536] 0 0 9
      (fun _ => 0)).isNone := by
  refine ⟨?_, by decide +kernel, by decide +kernel⟩
  rintro ⟨final, _, traversed⟩
  have endless : (bsPerspectiveBoxRgbSimple (fun _ => 255) ⟨64, 0, 4, 0, 0, 0, 1, 1, 1⟩
      ⟨64, 0, 4, 0, 65535, 0, 1, 1, 1⟩ ![0, 0, 0, 0, 0, 0, 0, 0, 65536] 0 0 9
      (fun _ => 0)).isNone := by decide +kernel
  rw [traversed.bytes] at endless
  cases endless

end Aip.Bscaler
