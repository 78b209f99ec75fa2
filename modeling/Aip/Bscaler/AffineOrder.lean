import Aip.Bscaler.Affine
import Aip.Bscaler.Walk

/-! The source-ordered affine box meets every pixel once, in order, and stores the same bytes. -/

namespace Aip.Bscaler

open Raster (Point turn)

/-- A destination box of at most 64 by 64 whose rows fit its stride and 16-bit counters. -/
structure BsBox.Fits (dst : BsBox) : Prop where
  left : 0 ≤ dst.sboxX
  top : 0 ≤ dst.sboxY
  width : 0 ≤ dst.sboxW ∧ dst.sboxW ≤ 64
  height : 0 ≤ dst.sboxH ∧ dst.sboxH ≤ 64
  right : dst.sboxX + dst.sboxW ≤ 65535
  bottom : dst.sboxY + dst.sboxH ≤ 65535
  stride : 4 * dst.sboxW ≤ dst.stride0

variable {mem image : Memory} {src dst : BsBox} {matrix : Matrix} {zeroPoint nv2bgrAlpha : UInt8}
  {isAbgrOrder : Nat} {traversal next : Traversal} {canvas : Memory}

/-- The pixels of a destination box. -/
def BsBox.pixels (box : BsBox) : List Point :=
  Raster.columns box.sboxX box.sboxW.toNat box.sboxY box.sboxH.toNat

/-- Pixels of the same number of bytes have none in common, if the rows of their box fit its stride. -/
theorem stores_apart {bpp : Nat} {stores : Point → List (Int × UInt8)}
    (stride : dst.sboxW * bpp ≤ dst.stride0) (placed : ∀ p, ∀ address ∈ (stores p).map Prod.fst,
      ∃ k < bpp, address =
        dst.base0 + ((p.2 - dst.sboxY) * dst.stride0 + (p.1 - dst.sboxX) * bpp + (k : Nat))) :
    dst.pixels.Pairwise fun p q => ¬ Paint.Clash stores p q := by
  refine List.Pairwise.imp_of_mem ?_ Raster.nodup_columns
  rintro p q here there differ ⟨address, first, second⟩
  simp only [BsBox.pixels, Raster.mem_columns] at here there
  obtain ⟨k, small, rfl⟩ := placed p address first
  obtain ⟨k', small', same⟩ := placed q _ second
  -- The offset says the row, and the place in the row says the column and the byte.
  have offset : (p.2 - dst.sboxY) * dst.stride0 + ((p.1 - dst.sboxX) * bpp + k) =
      (q.2 - dst.sboxY) * dst.stride0 + ((q.1 - dst.sboxX) * bpp + k') := by
    omega
  have inRow : ∀ {x : Int} {b : Nat}, b < bpp → dst.sboxX ≤ x ∧ x < dst.sboxX + dst.sboxW.toNat →
      0 ≤ (x - dst.sboxX) * bpp + b ∧ (x - dst.sboxX) * bpp + b < dst.stride0 := by
    intro x b short within
    have bounds : 0 ≤ (x - dst.sboxX) * bpp + b ∧ (x - dst.sboxX) * bpp + b < bpp * dst.sboxW :=
      Raster.offset_within (by omega) (by omega)
    rw [mul_comm (bpp : Int)] at bounds
    omega
  obtain ⟨rows, columns⟩ := Raster.offset_unique (inRow small here.1) (inRow small' there.1) offset
  obtain ⟨column, _⟩ := Raster.offset_unique (by omega) (by omega) columns
  exact differ (Prod.ext (by omega) (by omega))

/-- Two pixels of a box that fits its stride have no byte in common. -/
theorem rgbStores_apart (stride : 4 * dst.sboxW ≤ dst.stride0)
    {byte : Point → Nat → UInt8} : dst.pixels.Pairwise fun p q =>
      ¬ Paint.Clash (fun p => rgbStores dst isAbgrOrder nv2bgrAlpha p.1 p.2 (byte p)) p q := by
  apply stores_apart (show dst.sboxW * (4 : Nat) ≤ dst.stride0 by omega)
  intro p address stored
  simp only [rgbStores, List.map_map, List.mem_map, List.mem_range, Function.comp] at stored
  obtain ⟨k, small, rfl⟩ := stored
  exact ⟨k, small, rfl⟩

/-- A counter whose end fits 16 bits goes through all of a side. -/
theorem counter_side {start size : Int} (lower : 0 ≤ start) (positive : 0 ≤ size)
    (upper : start + size ≤ 65535) :
    counter start (u16 (size + start)) = Raster.span start size.toNat := by
  unfold counter u16
  rw [Int.emod_eq_of_lt (a := start) lower (by omega), Int.emod_eq_of_lt (by omega) (by omega),
    show size + start - start = size by omega]

/-- A counter below an `int` end that fits 16 bits goes through all of a side as well. -/
theorem intCounter_side {start size : Int} (lower : 0 ≤ start) (positive : 0 ≤ size)
    (upper : start + size ≤ 65535) :
    intCounter start (size + start) = some (Raster.span start size.toNat) := by
  unfold intCounter u16
  rw [if_pos (by omega), Int.emod_eq_of_lt lower (by omega),
    show size + start - start = size by omega]

/-- The stores of one pixel in plain order. -/
def affineStores (mem : Memory) (src dst : BsBox) (matrix : Matrix) (zeroPoint : UInt8)
    (isAbgrOrder : Nat) (nv2bgrAlpha : UInt8) (p : Point) : List (Int × UInt8) :=
  rgbStores dst isAbgrOrder nv2bgrAlpha p.1 p.2
    (rgbByte mem src zeroPoint (affineDst2src matrix p.1 p.2))

/-- The plain affine box makes the stores of its pixels one after the other. -/
theorem bsAffineBoxRgb_paints (left : 0 ≤ dst.sboxX) (top : 0 ≤ dst.sboxY)
    (width : 0 ≤ dst.sboxW) (height : 0 ≤ dst.sboxH) (right : dst.sboxX + dst.sboxW ≤ 65535)
    (bottom : dst.sboxY + dst.sboxH ≤ 65535) :
    bsAffineBoxRgb mem src dst matrix zeroPoint isAbgrOrder nv2bgrAlpha image =
      Paint.paint image (dst.pixels.flatMap
        (affineStores mem src dst matrix zeroPoint isAbgrOrder nv2bgrAlpha)) := by
  unfold bsAffineBoxRgb BsBox.pixels Raster.columns
  simp only [counter_side left width right, counter_side top height bottom]
  rw [← Paint.foldl_paint, List.foldl_flatMap]
  simp only [List.foldl_map]
  rfl

/-- A source box whose origin fits the 16 bits that the bound check keeps of it. -/
structure BsBox.Origin (src : BsBox) : Prop where
  left : 0 ≤ src.sboxX ∧ src.sboxX < 65536
  top : 0 ≤ src.sboxY ∧ src.sboxY < 65536

/-- The pointers of the source-ordered box lead to the same taps as the offsets of the plain one. -/
theorem complexByte_eq (mem : Memory) (zeroPoint : UInt8) (matrix : Matrix) (origin : src.Origin)
    (p : Point) :
    complexByte mem src zeroPoint (affineDst2src64 matrix ⟨p.1, p.2⟩) =
      rgbByte mem src zeroPoint (affineDst2src matrix p.1 p.2) := by
  -- Both compare with the same origin and the same last row and column, kept in 16 bits.
  have left : u16 src.sboxX = src.sboxX := Int.emod_eq_of_lt origin.left.1 origin.left.2
  have top : u16 src.sboxY = src.sboxY := Int.emod_eq_of_lt origin.top.1 origin.top.2
  have last : ∀ size start : Int, u16 (u16 size + start - 1) = u16 (size + start - 1) := by
    intro size start
    unfold u16
    omega
  have again : ∀ value : Int, s16 (s16 value) = s16 value := fun value => Int.bmod_bmod
  funext k
  simp only [complexByte, rgbByte, bilinearBoundCheck, affineDst2src, affineDst2src64, left, top,
    last, again, Int.add_assoc, Int.one_mul, Matrix.cons_val]

/-- The rows are walked upwards where the second factor of the row is positive. -/
def increases (factor : Int32) : Bool := 0 < factor.toInt

/-- The columns and rows of a box in the order of `dst_col_point_init_affine`. -/
def affineWalk (matrix : Matrix) (dst : BsBox) (positive : 0 < dst.sboxH) : Walk where
  low := dst.sboxY
  height := dst.sboxH.toNat
  width := dst.sboxW.toNat
  left i := if increases (matrix mskewx) then i + dst.sboxX else dst.sboxW - 1 - i + dst.sboxX
  start _ := if increases (matrix mscaley) then dst.sboxY else dst.sboxY + dst.sboxH.toNat - 1
  direction _ := if increases (matrix mscaley) then 1 else -1
  unit _ := direction_unit _
  within _ := end_within _ positive

variable {positive : 0 < dst.sboxH} {i steps : Nat}

theorem affineWalk_height : (affineWalk matrix dst positive).height = dst.sboxH.toNat := rfl

theorem affineWalk_width : (affineWalk matrix dst positive).width = dst.sboxW.toNat := rfl

/-- A column of the affine walk does not come round. -/
theorem affineWalk_pixel (before : steps < dst.sboxH.toNat) :
    (affineWalk matrix dst positive).pixel i steps =
      ((affineWalk matrix dst positive).left i, if increases (matrix mscaley)
        then dst.sboxY + steps else dst.sboxY + dst.sboxH.toNat - 1 - steps) := by
  unfold Walk.pixel
  rw [Prod.mk.injEq]
  refine ⟨rfl, ?_⟩
  cases up : increases (matrix mscaley)
  · simp only [affineWalk, up, Bool.false_eq_true, if_false]
    exact Raster.turn_down before
  · simp only [affineWalk, up, if_true]
    exact Raster.turn_up before

/-- Clipping and dropping the fraction keep the order of two coordinates. -/
theorem fixWhole_clip_mono {a b : Int} (le : a ≤ b) :
    fixWhole (clip a s32Min s32Max) ≤ fixWhole (clip b s32Min s32Max) := by
  apply Int.ediv_le_ediv (by decide)
  unfold clip s32Min s32Max
  split_ifs <;> omega

/-- Whether the columns of a row come in falling order. -/
def inverseColumns (matrix : Matrix) : Bool :=
  increases (matrix mskewx) != increases (matrix mscaley)

/-- Pixels in the order of their source points. -/
def SourceOrder (matrix : Matrix) (p q : Point) : Prop :=
  InOrder (inverseColumns matrix) (affineDst2src64 matrix ⟨p.1, p.2⟩)
    (affineDst2src64 matrix ⟨q.1, q.2⟩)

/-- Further along a column, in the direction of its walk, the source does not come earlier. -/
theorem sourceOrder_column {x y z : Int} (along : if increases (matrix mscaley) then y ≤ z else z ≤ y) :
    SourceOrder matrix (x, y) (x, z) := by
  -- The sign of the row factor makes the rows increase, and the two signs decide for the columns.
  have factor : ∀ c : Int32, ∀ a b : Int, a ≤ b →
      if increases c then c.toInt * a ≤ c.toInt * b else c.toInt * b ≤ c.toInt * a := by
    intro c a b le
    unfold increases
    by_cases up : 0 < c.toInt
    · rw [if_pos (by simpa using up)]
      exact mul_le_mul_of_nonneg_left le up.le
    · rw [if_neg (by simpa using up)]
      exact mul_le_mul_of_nonpos_left le (not_lt.mp up)
  have rows : fixWhole (affineDst2src64 matrix ⟨x, y⟩).y ≤
      fixWhole (affineDst2src64 matrix ⟨x, z⟩).y := by
    apply fixWhole_clip_mono
    cases up : increases (matrix mscaley)
    · have := factor (matrix mscaley) z y (by simpa [up] using along)
      simp only [up, Bool.false_eq_true, if_false] at this
      simp only
      omega
    · have := factor (matrix mscaley) y z (by simpa [up] using along)
      simp only [up, if_true] at this
      simp only
      omega
  have columns : if inverseColumns matrix then fixWhole (affineDst2src64 matrix ⟨x, z⟩).x ≤
      fixWhole (affineDst2src64 matrix ⟨x, y⟩).x else fixWhole (affineDst2src64 matrix ⟨x, y⟩).x ≤
      fixWhole (affineDst2src64 matrix ⟨x, z⟩).x := by
    unfold inverseColumns
    cases up : increases (matrix mscaley) <;> cases right : increases (matrix mskewx) <;>
      simp only [up, bne_self_eq_false, Bool.false_eq_true, if_false, if_true, Bool.true_bne,
        Bool.not_false, Bool.false_bne] at along ⊢ <;>
      refine fixWhole_clip_mono ?_ <;>
      have skew := factor (matrix mskewx) _ _ along <;>
      simp only [right, Bool.false_eq_true, if_false, if_true] at skew <;>
      simp only <;> omega
  unfold SourceOrder InOrder
  rcases lt_or_eq_of_le rows with less | same
  · exact Or.inl less
  · exact Or.inr ⟨same, columns⟩

/-- The pixels that a column has before it are in source order. -/
theorem affineWalk_ordered (done : Nat → Nat) (i : Nat) :
    ((affineWalk matrix dst positive).lane done i).Pairwise (SourceOrder matrix) := by
  apply List.Pairwise.sublist (List.drop_sublist _ _)
  refine List.pairwise_map.mpr (List.Pairwise.imp_of_mem ?_ List.pairwise_lt_range)
  intro steps later here there less
  rw [affineWalk_pixel (List.mem_range.mp here), affineWalk_pixel (List.mem_range.mp there)]
  apply sourceOrder_column
  cases increases (matrix mscaley)
  · simp only [Bool.false_eq_true, if_false]
    omega
  · simp only [if_true]
    omega

/-- What a round of the affine traversal notes down: an open column and the source of its pixel. -/
def AffineVisit (matrix : Matrix) (visit : Visit) : Prop :=
  visit.masked = false ∧
    visit.sxp = fixWhole (affineDst2src64 matrix ⟨visit.dx, visit.dy⟩).x ∧
    visit.syp = fixWhole (affineDst2src64 matrix ⟨visit.dx, visit.dy⟩).y

/-- A clipped coordinate has a whole part of 16 bits. -/
theorem s16_fixWhole_clip (value : Int) :
    s16 (fixWhole (clip value s32Min s32Max)) = fixWhole (clip value s32Min s32Max) := by
  have range : s32Min ≤ clip value s32Min s32Max ∧ clip value s32Min s32Max ≤ s32Max := by
    unfold clip s32Min s32Max
    split_ifs <;> omega
  generalize clip value s32Min s32Max = clipped at range ⊢
  unfold s32Min s32Max at range
  unfold s16 fixWhole
  exact Int.bmod_eq_of_le (by omega) (by omega)

/-- What the affine traversal shows of its columns, all of which count. -/
abbrev AffineShows (mem : Memory) (src dst : BsBox) (matrix : Matrix) (zeroPoint : UInt8)
    (isAbgrOrder : Nat) (nv2bgrAlpha : UInt8) (canvas : Memory) (positive : 0 < dst.sboxH) :=
  Walk.Shows (affineWalk matrix dst positive) (affineDst2src64 matrix) (fun _ => true)
    (affineWalk matrix dst positive).fresh canvas
    (affineStores mem src dst matrix zeroPoint isAbgrOrder nv2bgrAlpha) (AffineVisit matrix)

/-- Where column `idx` goes in a round. -/
def movedAffine (matrix : Matrix) (point : S32Point) : S32Point :=
  { point with y := if increases (matrix mscaley) then point.y + 1 else point.y - 1 }

/-- Whether a column has left the box. -/
def leftAffine (dst : BsBox) (matrix : Matrix) (point : S32Point) : Bool :=
  if increases (matrix mscaley) then point.y = dst.sboxY + dst.sboxH else point.y = dst.sboxY - 1

/-- The update of an open column. -/
theorem colPointUpdateAffine_open {columns : Columns} {idx : Nat}
    (opened : columns.mask idx = false) : colPointUpdateAffine dst matrix idx columns =
      { dstColPoint :=
          Function.update columns.dstColPoint idx (movedAffine matrix (columns.dstColPoint idx))
        srcColPoint := Function.update columns.srcColPoint idx
          (if leftAffine dst matrix (movedAffine matrix (columns.dstColPoint idx))
            then columns.srcColPoint idx
            else affineDst2src64 matrix (movedAffine matrix (columns.dstColPoint idx)))
        mask := Function.update columns.mask idx
          (leftAffine dst matrix (movedAffine matrix (columns.dstColPoint idx))) } := by
  unfold colPointUpdateAffine movedAffine leftAffine increases
  simp only [opened, Bool.false_or, Bool.false_eq_true, if_false, decide_eq_true_eq]
  by_cases up : 0 < (matrix mscaley).toInt
  · simp only [if_pos up, decide_eq_true_eq]
  · simp only [if_neg up, decide_eq_true_eq]

/-- A column leaves the box after its last row, and stands at its next pixel before that. -/
theorem movedAffine_pixel {done : Nat} (more : done < (affineWalk matrix dst positive).height)
    {point : S32Point}
    (stood : point = ⟨((affineWalk matrix dst positive).pixel i done).1,
      ((affineWalk matrix dst positive).pixel i done).2⟩) :
    leftAffine dst matrix (movedAffine matrix point) =
        decide (done + 1 = (affineWalk matrix dst positive).height) ∧
      (done + 1 < (affineWalk matrix dst positive).height → movedAffine matrix point =
        ⟨((affineWalk matrix dst positive).pixel i (done + 1)).1,
          ((affineWalk matrix dst positive).pixel i (done + 1)).2⟩) := by
  rw [affineWalk_pixel more] at stood
  rw [affineWalk_height] at more ⊢
  subst stood
  constructor
  · -- The direction decides at which border of the box the column ends.
    unfold leftAffine movedAffine
    cases increases (matrix mscaley)
    · simp only [Bool.false_eq_true, if_false, decide_eq_decide]
      omega
    · simp only [if_true, decide_eq_decide]
      omega
  · intro next
    rw [affineWalk_pixel next]
    unfold movedAffine
    cases increases (matrix mscaley)
    · simp only [Bool.false_eq_true, if_false, S32Point.mk.injEq, true_and]
      omega
    · simp only [if_true, S32Point.mk.injEq, true_and]
      omega

/-- A round of the traversal takes the first pixel of the column that is first in source order. -/
theorem affineRound_takes (fits : dst.Fits) (origin : src.Origin) {done : Nat → Nat}
    {lanes : Nat → List Point}
    (shows : AffineShows mem src dst matrix zeroPoint isAbgrOrder nv2bgrAlpha canvas positive done
      traversal lanes) (left : ∃ lane, lanes lane ≠ []) :
    ∃ next lane item rest, affineRound mem src dst matrix zeroPoint isAbgrOrder nv2bgrAlpha
        traversal = some next ∧ lanes lane = item :: rest ∧
      (∀ other front, (lanes other).head? = some front → SourceOrder matrix item front) ∧
      next.pixels = traversal.pixels ++ [item] ∧
      ∃ done', AffineShows mem src dst matrix zeroPoint isAbgrOrder nv2bgrAlpha canvas positive
        done' next (Function.update lanes lane rest) := by
  -- A lane with pixels is an open column, so the scan finds the least one.
  obtain ⟨lane, filled⟩ := left
  obtain ⟨first, tail, shape⟩ := List.exists_cons_of_ne_nil filled
  obtain ⟨_, within, free, _⟩ := shows.front shape
  have narrow : ∀ i, i < dst.sboxW.toNat → i < oboxSize := by
    intro i below
    have := fits.width
    unfold oboxSize
    omega
  obtain ⟨idx, _, picked, opened, least⟩ := getMinPoint_spec traversal.srcColPoint
    (increases (matrix mskewx)) (increases (matrix mscaley)) (narrow lane within) free
  obtain ⟨more, inside⟩ := shows.stands.opened opened
  have stood := shows.stands.place idx more
  have source := shows.stands.source idx more
  have ran : affineRound mem src dst matrix zeroPoint isAbgrOrder nv2bgrAlpha traversal =
      some (affineStep mem src dst matrix zeroPoint isAbgrOrder nv2bgrAlpha traversal idx) := by
    rw [affineRound]
    exact congrArg (Option.map _) picked
  have pixel : (traversal.visit idx).pixel = (affineWalk matrix dst positive).pixel idx (done idx) := by
    rw [Visit.pixel, Columns.visit, stood]
  have origin' : traversal.srcColPoint idx =
      affineDst2src64 matrix ⟨(traversal.visit idx).pixel.1, (traversal.visit idx).pixel.2⟩ := source
  have told : AffineVisit matrix (traversal.visit idx) := by
    refine ⟨opened, ?_, ?_⟩
    · rw [Columns.visit, source]
      exact s16_fixWhole_clip _
    · rw [Columns.visit, source]
      exact s16_fixWhole_clip _
  have painted : (affineStep mem src dst matrix zeroPoint isAbgrOrder nv2bgrAlpha traversal
      idx).image = Paint.paint traversal.image (affineStores mem src dst matrix zeroPoint
        isAbgrOrder nv2bgrAlpha (traversal.visit idx).pixel) := by
    rw [affineStores, ← complexByte_eq mem zeroPoint matrix origin, ← origin']
    rfl
  -- The column moves to its next pixel, or is masked after the last one.
  obtain ⟨closes, moves⟩ := movedAffine_pixel more stood
  obtain ⟨rest, front, trace, after⟩ := shows.round rfl opened closes
    (fun next => ⟨moves next, by
      rw [closes, decide_eq_false (Nat.ne_of_lt next)]
      rfl⟩)
    painted (colPointUpdateAffine_open opened) rfl pixel told
  refine ⟨_, idx, _, rest, ran, front, ?_, trace, _, after⟩
  intro other head headed
  obtain ⟨tail', shape'⟩ := List.head?_eq_some_iff.mp headed
  obtain ⟨_, within', free', there⟩ := shows.front shape'
  have ordered := least other (narrow other within') free'
  rw [there, origin'] at ordered
  exact ordered

/-- The state that the traversal starts in. -/
def affineStart (dst : BsBox) (matrix : Matrix) (image : Memory) : Traversal :=
  { dstColPoint := dstColPointInitAffine matrix dst
    srcColPoint := fun i => affineDst2src64 matrix (dstColPointInitAffine matrix dst i)
    mask := fun i => decide (dst.sboxW ≤ i)
    image := image
    visits := [] }

/-- Before the first round every column of the box has all its pixels before it. -/
theorem affineStart_shows (positive : 0 < dst.sboxH) :
    AffineShows mem src dst matrix zeroPoint isAbgrOrder nv2bgrAlpha image positive
      (affineWalk matrix dst positive).fresh (affineStart dst matrix image)
      ((affineWalk matrix dst positive).lane (affineWalk matrix dst positive).fresh) where
  stands :=
    { bound := fun i => by
        unfold Walk.fresh
        split <;> omega
      idle := fun i outside => by rw [Walk.fresh, if_neg (by omega)]
      mask := fun i => by
        rw [Walk.fresh, affineWalk_width, affineWalk_height]
        simp only [affineStart, decide_eq_decide]
        split <;> omega
      -- An unfinished column is within the width, and stands at the border it starts from.
      place := fun i unfinished => by
        have inside : i < dst.sboxW.toNat := by
          by_contra outside
          rw [Walk.fresh, affineWalk_width, if_neg outside] at unfinished
          omega
        rw [Walk.fresh, affineWalk_width, if_pos inside, affineWalk_pixel (by omega)]
        simp only [affineStart, dstColPointInitAffine, affineWalk, increases, decide_eq_true_eq]
        rw [if_pos (by omega)]
        congr 1
        split <;> omega
      source := fun i _ => rfl }
  lanes _ := rfl
  others _ absurd := by cases absurd
  image := rfl
  visits visit member := by cases member

/-- The columns of the affine walk make up the destination box. -/
theorem affineWalk_covers (matrix : Matrix) (positive : 0 < dst.sboxH) :
    ((List.range dst.sboxW.toNat).flatMap
      ((affineWalk matrix dst positive).lane (affineWalk matrix dst positive).fresh)).Perm
      dst.pixels := by
  -- The columns stand from left to right or the other way round.
  refine Walk.covers (fun x =>
    if increases (matrix mskewx) then (x - dst.sboxX).toNat
    else (dst.sboxX + dst.sboxW - 1 - x).toNat) ?_ ?_
  · intro i within
    rw [affineWalk_width] at within ⊢
    simp only [affineWalk]
    split <;> omega
  · intro x lower upper
    rw [affineWalk_width] at upper ⊢
    simp only [affineWalk]
    split <;> omega

/-- A traversal whose pixels are those of the box hits each of them once. -/
theorem Traversal.hit_once (same : traversal.pixels.Perm dst.pixels) {x y : Int} (left : 0 ≤ x)
    (right : x < dst.sboxW) (top : 0 ≤ y) (bottom : y < dst.sboxH) :
    traversal.hit dst x y = 1 := by
  have count : traversal.pixels.count (dst.sboxX + x, dst.sboxY + y) = 1 := by
    rw [same.count_eq]
    refine List.count_eq_one_of_mem Raster.nodup_columns ?_
    rw [BsBox.pixels, Raster.mem_columns]
    simp only
    omega
  rw [← count, Traversal.hit, Traversal.pixels, List.count, List.countP_map]
  apply List.countP_congr
  intro visit _
  simp only [Function.comp, Visit.pixel, decide_eq_true_eq, beq_iff_eq, Prod.mk.injEq]
  omega

/-- The rounds of a box that fits merge its columns, and paint the pixel of each round. -/
theorem bsAffineBoxRgbComplex_merges (mem image : Memory) (matrix : Matrix) (zeroPoint : UInt8)
    (isAbgrOrder : Nat) (nv2bgrAlpha : UInt8) (fits : dst.Fits) (origin : src.Origin) :
    ∃ final, bsAffineBoxRgbComplex mem src dst matrix zeroPoint isAbgrOrder nv2bgrAlpha image =
        some final ∧
      (∀ visit ∈ final.visits, AffineVisit matrix visit) ∧ final.pixels.Perm dst.pixels ∧
      final.pixels.Pairwise (SourceOrder matrix) ∧
      final.image = Paint.paint image (final.pixels.flatMap
        (affineStores mem src dst matrix zeroPoint isAbgrOrder nv2bgrAlpha)) := by
  have run : bsAffineBoxRgbComplex mem src dst matrix zeroPoint isAbgrOrder nv2bgrAlpha image =
      Merge.loop (affineRound mem src dst matrix zeroPoint isAbgrOrder nv2bgrAlpha)
        (dst.sboxW * dst.sboxH).toNat (affineStart dst matrix image) := by
    rw [bsAffineBoxRgbComplex, if_pos ⟨fits.width.2, fits.height.2⟩]
    rfl
  rcases lt_or_eq_of_le fits.height.1 with positive | flat
  · -- The columns are merged: every round takes the least pixel that stands in front.
    have covers := affineWalk_covers matrix positive
    have rounds : ((List.range dst.sboxW.toNat).flatMap ((affineWalk matrix dst positive).lane
        (affineWalk matrix dst positive).fresh)).length = (dst.sboxW * dst.sboxH).toNat := by
      rw [covers.length_eq, BsBox.pixels, Raster.length_columns,
        Int.toNat_mul fits.width.1 fits.height.1]
    have start : AffineShows mem src dst matrix zeroPoint isAbgrOrder nv2bgrAlpha image positive
        (affineWalk matrix dst positive).fresh (affineStart dst matrix image)
        ((affineWalk matrix dst positive).lane (affineWalk matrix dst positive).fresh) :=
      affineStart_shows positive
    obtain ⟨final, taken, ran, trace, merges, done, shows⟩ :=
      Merge.drain (SourceOrder matrix)
        (affineRound mem src dst matrix zeroPoint isAbgrOrder nv2bgrAlpha) Traversal.pixels
        (fun traversal lanes => ∃ done, AffineShows mem src dst matrix zeroPoint isAbgrOrder
          nv2bgrAlpha image positive done traversal lanes) (List.nodup_range (n := dst.sboxW.toNat))
        (fun _ _ held _ absent => by
          obtain ⟨_, shows⟩ := held
          exact shows.outside absent)
        (fun _ _ held left => by
          obtain ⟨_, shows⟩ := held
          exact affineRound_takes fits origin shows left)
        (affineStart dst matrix image) _ ⟨_, start⟩
    have pixels : final.pixels = taken := trace
    have parts := merges.perm (List.nodup_range (n := dst.sboxW.toNat)) fun lane absent =>
      start.outside absent
    rw [List.flatMap_eq_nil_iff.mpr fun _ _ => rfl, List.append_nil] at parts
    have transitive : ∀ p q r, SourceOrder matrix p q → SourceOrder matrix q r →
        SourceOrder matrix p r := fun _ _ _ first second => InOrder.trans first second
    have sorted := merges.sorted transitive fun lane => affineWalk_ordered _ lane
    rw [← pixels] at parts sorted
    exact ⟨final, by rw [run, ← rounds, ran], shows.visits, parts.symm.trans covers, sorted,
      shows.image⟩
  · -- A box without rows has no round and no pixel.
    have rounds : (dst.sboxW * dst.sboxH).toNat = 0 := by
      rw [← flat, Int.mul_zero]
      rfl
    have empty : dst.pixels = [] := by
      rw [BsBox.pixels, ← flat]
      simp [Raster.columns, Raster.span]
    refine ⟨affineStart dst matrix image, by rw [run, rounds, Merge.loop], ?_, ?_, ?_, ?_⟩
    · exact fun visit member => by cases member
    · rw [empty]
      exact List.Perm.nil
    · exact List.Pairwise.nil
    · rfl

/-- Whatever order it takes the pixels in, the traversal leaves the image of the plain loops. -/
theorem bsAffineBoxRgb_merged (fits : dst.Fits) (same : traversal.pixels.Perm dst.pixels) :
    Paint.paint image (traversal.pixels.flatMap
        (affineStores mem src dst matrix zeroPoint isAbgrOrder nv2bgrAlpha)) =
      bsAffineBoxRgb mem src dst matrix zeroPoint isAbgrOrder nv2bgrAlpha image := by
  rw [bsAffineBoxRgb_paints fits.left fits.top fits.width.1 fits.height.1 fits.right fits.bottom]
  exact (Paint.paint_perm same.symm (rgbStores_apart fits.stride)).symm

/-- What is asked of a finished traversal: the columns it picks, its pixels, their order and bytes. -/
structure AffineTraversed (mem : Memory) (src dst : BsBox) (matrix : Matrix) (zeroPoint : UInt8)
    (isAbgrOrder : Nat) (nv2bgrAlpha : UInt8) (image : Memory) (final : Traversal) : Prop where
  unmasked : ∀ visit ∈ final.visits, visit.masked = false
  inside : ∀ visit ∈ final.visits, visit.pixel ∈ dst.pixels
  once : ∀ x y, 0 ≤ x → x < dst.sboxW → 0 ≤ y → y < dst.sboxH → final.hit dst x y = 1
  ordered : final.visits.Pairwise fun visit later => visit.syp ≤ later.syp ∧
    (visit.syp = later.syp →
      if (0 < (matrix mskewx).toInt ↔ 0 < (matrix mscaley).toInt) then visit.sxp ≤ later.sxp
      else later.sxp ≤ visit.sxp)
  bytes : final.image =
    bsAffineBoxRgb mem src dst matrix zeroPoint isAbgrOrder nv2bgrAlpha image

/-- The source-ordered traversal of a box that fits does what the plain loops do, in source order. -/
theorem bsAffineBoxRgbComplex_traverses (mem image : Memory) (src dst : BsBox) (matrix : Matrix)
    (zeroPoint : UInt8) (isAbgrOrder : Nat) (nv2bgrAlpha : UInt8) (fits : dst.Fits)
    (origin : src.Origin) :
    ∃ final, bsAffineBoxRgbComplex mem src dst matrix zeroPoint isAbgrOrder nv2bgrAlpha image =
        some final ∧
      AffineTraversed mem src dst matrix zeroPoint isAbgrOrder nv2bgrAlpha image final := by
  obtain ⟨final, ran, visits, same, sorted, painted⟩ :=
    bsAffineBoxRgbComplex_merges mem image matrix zeroPoint isAbgrOrder nv2bgrAlpha fits origin
  refine ⟨final, ran, ?_, ?_, ?_, ?_, ?_⟩
  · exact fun visit member => (visits visit member).1
  · exact fun visit member => same.subset (List.mem_map_of_mem member)
  · exact fun x y => Traversal.hit_once same
  · -- The order of the pixels is the order of the source points that the rounds note down.
    rw [Traversal.pixels, List.pairwise_map] at sorted
    refine List.Pairwise.imp_of_mem ?_ sorted
    intro visit later here there order
    obtain ⟨_, column, row⟩ := visits visit here
    obtain ⟨_, column', row'⟩ := visits later there
    unfold SourceOrder InOrder inverseColumns increases at order
    rw [column, row, column', row']
    simp only [Visit.pixel] at order
    by_cases right : 0 < (matrix mskewx).toInt <;> by_cases up : 0 < (matrix mscaley).toInt <;>
      simp [right, up] at order ⊢ <;> omega
  · rw [painted]
    exact bsAffineBoxRgb_merged fits same

/-- The traversal of a box of two by two pixels under a matrix that turns it. -/
theorem bsAffineBoxRgbComplex_traverses_turned :
    ∃ final, bsAffineBoxRgbComplex (fun address => UInt8.ofNat address.toNat)
        ⟨64, 0, 16, 0, 0, 0, 4, 4, 1⟩ ⟨0, 0, 8, 0, 2, 0, 2, 2, 1⟩
        ![0, -65536, 131072, 65536, 0, -65536, 0, 0, 65536] 0 0 9 (fun _ => 0) = some final ∧
      AffineTraversed (fun address => UInt8.ofNat address.toNat) ⟨64, 0, 16, 0, 0, 0, 4, 4, 1⟩
        ⟨0, 0, 8, 0, 2, 0, 2, 2, 1⟩ ![0, -65536, 131072, 65536, 0, -65536, 0, 0, 65536] 0 0 9
        (fun _ => 0) final :=
  bsAffineBoxRgbComplex_traverses _ _ _ _ _ _ _ _
    ⟨by decide, by decide, by decide, by decide, by decide, by decide, by decide⟩
    ⟨by decide, by decide⟩

/--
The two orders part where 16 bits do not hold the box.

A destination box that ends at column 65536 gives the plain loop no column, and a source box at
column 65536 is at column 0 for the bound check alone.
-/
theorem bsAffineBoxRgbComplex_parts :
    (¬ ∃ final, bsAffineBoxRgbComplex (fun _ => 255) ⟨0, 0, 4, 0, 0, 0, 1, 1, 1⟩
        ⟨0, 0, 4, 0, 65535, 0, 1, 1, 1⟩ ![0, 0, 0, 0, 0, 0, 0, 0, 65536] 0 0 9 (fun _ => 0) =
          some final ∧
      AffineTraversed (fun _ => 255) ⟨0, 0, 4, 0, 0, 0, 1, 1, 1⟩ ⟨0, 0, 4, 0, 65535, 0, 1, 1, 1⟩
        ![0, 0, 0, 0, 0, 0, 0, 0, 65536] 0 0 9 (fun _ => 0) final) ∧
    ¬ ∃ final, bsAffineBoxRgbComplex (fun _ => 255) ⟨0, 0, 4, 0, 65536, 0, 1, 1, 1⟩
        ⟨0, 0, 4, 0, 0, 0, 1, 1, 1⟩ ![0, 0, 0, 0, 0, 0, 0, 0, 65536] 0 0 9 (fun _ => 0) =
          some final ∧
      AffineTraversed (fun _ => 255) ⟨0, 0, 4, 0, 65536, 0, 1, 1, 1⟩ ⟨0, 0, 4, 0, 0, 0, 1, 1, 1⟩
        ![0, 0, 0, 0, 0, 0, 0, 0, 65536] 0 0 9 (fun _ => 0) final := by
  constructor
  · -- The two loops differ in one byte, which is computed on either side.
    rintro ⟨final, ran, traversed⟩
    have complex : (some final).map (fun done => done.image 3) = some 9 := by
      rw [← ran]
      decide +kernel
    have plain := congrFun traversed.bytes 3
    rw [Option.map_some, Option.some.injEq] at complex
    rw [complex] at plain
    revert plain
    decide +kernel
  · rintro ⟨final, ran, traversed⟩
    have complex : (some final).map (fun done => done.image 0) = some 0 := by
      rw [← ran]
      decide +kernel
    have plain := congrFun traversed.bytes 0
    rw [Option.map_some, Option.some.injEq] at complex
    rw [complex] at plain
    revert plain
    decide +kernel

end Aip.Bscaler
