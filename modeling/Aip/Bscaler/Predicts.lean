import Aip.Bscaler.Resize
import Aip.Lib.Groups

/-! When the software model is given the sequence of configurations that the hardware is given. -/

namespace Aip.Bscaler

/-- The piece that a small box consists of is configured as the box itself is. -/
structure OnePiece (src : ImageInfo) (box : ResizeBox) : Prop where
  -- The last row of the matrix is set in both ways of building the configuration.
  image : affineMode src = true
  -- So is the second plane of the destination, and the assertion on the box holds.
  planes : box.2.format = .nv12
  even : EvenBox box.1.box
  whole : resizeCacSubBox { x := 0, y := 0, w := box.2.width, h := box.2.height }
      { x := 0, y := 0, w := box.1.box.w, h := box.1.box.h } (resampling box.1.box box.2) =
    { x := 0, y := 0, w := box.1.box.w, h := box.1.box.h }

/--
The model decides as the hardware does: where the first destination is small for the model, all of
them are for the hardware, and where it is large, the boxes that the hardware does not cut come last
and consist of one piece.
-/
def Agrees (src : ImageInfo) (boxes : List ResizeBox) : Prop :=
  if mdlSplits boxes = true then
    Groups.LargeAhead (startSplits src) boxes ∧
      ∀ box ∈ boxes, startSplits src box = false → OnePiece src box
  else ∀ box ∈ boxes, startSplits src box = false

variable {src : ImageInfo} {boxes : List ResizeBox} {box : ResizeBox} {coef : Fin 9 → UInt32}
  {offset : Fin 2 → UInt32}

/-- The pieces of a box, as `resize_box_split` adds them. -/
def cutBox (src : ImageInfo) (coef : Fin 9 → UInt32) (offset : Fin 2 → UInt32) (box : ResizeBox) :
    Option (List ResizeCfg) :=
  resizeBoxSplit [] box.1 src box.2 coef offset

/-- The configuration that `bs_resize_cfg_stuff` adds. -/
def stuffBox (src : ImageInfo) (coef : Fin 9 → UInt32) (offset : Fin 2 → UInt32)
    (box : ResizeBox) : Option (List ResizeCfg) :=
  bsResizeCfgStuff [] box.1 src box.2 coef offset

/-- The pieces of a box, where its assertions hold. -/
def parts (src : ImageInfo) (coef : Fin 9 → UInt32) (offset : Fin 2 → UInt32) (box : ResizeBox) :
    List ResizeCfg :=
  (cutBox src coef offset box).getD []

/-- The configuration of a box in one piece, where its assertions hold. -/
def wholeBox (src : ImageInfo) (coef : Fin 9 → UInt32) (offset : Fin 2 → UInt32)
    (box : ResizeBox) : ResizeCfg :=
  resizeCfg box.1 src box.2 coef offset ((yGain src (resampling box.1.box box.2).scaleY).getD 0)

/-- Pieces are added behind what is there. -/
theorem resizeBoxSplit_appends (bsCfgs : List ResizeCfg) (box : ResizeBox) :
    resizeBoxSplit bsCfgs box.1 src box.2 coef offset =
      (cutBox src coef offset box).map (bsCfgs ++ ·) := by
  simp only [cutBox, resizeBoxSplit]
  split
  · cases yGain src (resampling box.1.box box.2).scaleY with
    | none => rfl
    | some gain => simp
  · rfl

/-- A configuration is added behind what is there. -/
theorem bsResizeCfgStuff_appends (bsCfgs : List ResizeCfg) (box : ResizeBox) :
    bsResizeCfgStuff bsCfgs box.1 src box.2 coef offset =
      (stuffBox src coef offset box).map (bsCfgs ++ ·) := by
  simp only [stuffBox, bsResizeCfgStuff]
  split
  · cases yGain src (resampling box.1.box box.2).scaleY <;> rfl
  · rfl

/-- The two loops of a front end, for either way to decide. -/
theorem resize_loops (splits : ResizeBox → Bool) :
    ((pickResize splits src coef offset boxes).bind fun (bsCfgs, resResizeBoxes) =>
        bsResizeLineCfgStuff bsCfgs resResizeBoxes src coef offset) =
      ((boxes.filter splits).mapM (cutBox src coef offset)).bind fun pieces =>
        ((boxes.filter (!splits ·)).mapM (stuffBox src coef offset)).map
          (pieces.flatten ++ ·.flatten) := by
  have pick := Groups.foldlM_picks (f := fun bsCfgs (box : ResizeBox) =>
      resizeBoxSplit bsCfgs box.1 src box.2 coef offset)
    resizeBoxSplit_appends splits boxes [] []
  have line := fun bsCfgs => Groups.foldlM_appends (f := fun bsCfgs (box : ResizeBox) =>
      bsResizeCfgStuff bsCfgs box.1 src box.2 coef offset)
    bsResizeCfgStuff_appends (boxes.filter (!splits ·)) bsCfgs
  simp only [pickResize, pick, bsResizeLineCfgStuff, List.nil_append, Option.bind_map,
    Function.comp_def, line]

/-- Both ways of building need the assertions on the source and a gain. -/
theorem stuffBox_isSome : (stuffBox src coef offset box).isSome ↔
    SourceAsserts box.1 src ∧ (yGain src (resampling box.1.box box.2).scaleY).isSome := by
  simp only [stuffBox, bsResizeCfgStuff]
  split
  case isTrue asserts => simp [asserts]
  case isFalse fails => simp [fails]

/-- Where it is built, the configuration is the one of the box in one piece. -/
theorem stuffBox_eq (some : (stuffBox src coef offset box).isSome) :
    stuffBox src coef offset box = .some [wholeBox src coef offset box] := by
  obtain ⟨asserts, gain⟩ := stuffBox_isSome.mp some
  obtain ⟨exp, is⟩ := Option.isSome_iff_exists.mp gain
  simp [stuffBox, bsResizeCfgStuff, asserts, is, wholeBox]

/-- A box that can be cut can also be taken in one piece. -/
theorem stuffBox_of_cutBox (some : (cutBox src coef offset box).isSome) :
    (stuffBox src coef offset box).isSome := by
  rw [stuffBox_isSome]
  simp only [cutBox, resizeBoxSplit] at some
  split at some
  case isTrue asserts =>
    refine ⟨asserts, ?_⟩
    cases gain : yGain src (resampling box.1.box box.2).scaleY with
    | none => simp [gain] at some
    | some exp => rfl
  case isFalse => cases some

/-- The pieces of a box that can be taken in one, if the check of an NV12 destination passes. -/
theorem cutBox_eq (some : (stuffBox src coef offset box).isSome)
    (even : box.2.format = .nv12 → EvenBox box.1.box) :
    cutBox src coef offset box = .some ((resizeSboxes src box.2).map (resizeSboxCfg box.1 src box.2
      coef offset ((yGain src (resampling box.1.box box.2).scaleY).getD 0))) := by
  obtain ⟨asserts, gain⟩ := stuffBox_isSome.mp some
  obtain ⟨exp, is⟩ := Option.isSome_iff_exists.mp gain
  have all : ∀ sboxes : List BoxInfo, (sboxes.mapM fun dstSbox =>
      if box.2.format = .nv12 → EvenBox box.1.box then
        Option.some (resizeSboxCfg box.1 src box.2 coef offset exp dstSbox)
      else none) = .some (sboxes.map (resizeSboxCfg box.1 src box.2 coef offset exp)) := by
    intro sboxes
    simp only [if_pos even]
    induction sboxes with
    | nil => rfl
    | cons sbox sboxes ih => simp [ih]
  simp [cutBox, resizeBoxSplit, asserts, is, all]

/-- The first check of a piece fails for an odd box and an NV12 destination. -/
theorem cutBox_none (pieces : resizeSboxes src box.2 ≠ []) (planes : box.2.format = .nv12)
    (odd : ¬ EvenBox box.1.box) : cutBox src coef offset box = none := by
  simp only [cutBox, resizeBoxSplit]
  split
  · cases yGain src (resampling box.1.box box.2).scaleY with
    | none => rfl
    | some gain =>
      cases sboxes : resizeSboxes src box.2 with
      | nil => exact absurd sboxes pieces
      | cons first rest => simp [planes, odd]
  · rfl

/-- A side that is not longer than a piece is one piece. -/
theorem pieces_one {size limit : Int} (positive : 0 < size) (within : size ≤ limit) :
    pieces size limit = 1 ∧ pieceSide size limit 0 = size := by
  have one : (size + limit - 1) / limit = 1 := by
    rw [Int.ediv_eq_iff_of_pos (by omega)]
    omega
  have count : pieces size limit = 1 := by
    simp [pieces, one]
  refine ⟨count, ?_⟩
  simp only [pieceSide, count, Nat.sub_self, if_true]
  rw [Int.emod_eq_of_lt (by omega) (by omega)]
  omega

/-- A side that is longer than a piece is at least two. -/
theorem pieces_two {size limit : Int} (positive : 0 < limit) (beyond : limit < size) :
    2 ≤ pieces size limit := by
  have two : 2 ≤ (size + limit - 1) / limit := by
    rw [Int.le_ediv_iff_mul_le positive]
    omega
  simp only [pieces]
  omega

/-- The limit of the rows is positive for every format. -/
theorem sboxHMax_pos (src : ImageInfo) : 0 < sboxHMax src := by
  simp only [sboxHMax]
  split <;> decide

/-- A box that the hardware does not cut is one piece. -/
theorem resizeSboxes_small (width : 0 < box.2.width) (height : 0 < box.2.height)
    (small : startSplits src box = false) :
    resizeSboxes src box.2 = [{ x := 0, y := 0, w := box.2.width, h := box.2.height }] := by
  simp only [startSplits, decide_eq_false_iff_not, not_or, Int.not_lt] at small
  obtain ⟨columns, sideX⟩ := pieces_one width small.1
  obtain ⟨rows, sideY⟩ := pieces_one height small.2
  simp [resizeSboxes, columns, rows, sideX, sideY]

/-- A box that the hardware cuts starts with the piece in the corner, and has another one. -/
theorem resizeSboxes_large (width : 0 < box.2.width) (height : 0 < box.2.height)
    (large : startSplits src box = true) : ∃ first second rest,
      resizeSboxes src box.2 = first :: second :: rest ∧
      (first.x = 0 ∧ first.y = 0) ∧ ¬ (second.x = 0 ∧ second.y = 0) := by
  have limit := sboxHMax_pos src
  have some : ∀ size limit : Int, 0 < limit → 0 < size → 1 ≤ pieces size limit := by
    intro size limit positive positive'
    rcases Int.lt_or_le limit size with beyond | within
    · exact Nat.le_of_succ_le (pieces_two positive beyond)
    · exact Nat.le_of_eq (pieces_one positive' within).1.symm
  have columns := some _ bsResizeW (by decide) width
  have rows := some _ _ limit height
  obtain ⟨m, rowsEq⟩ := Nat.exists_eq_add_of_le' rows
  by_cases wide : bsResizeW < box.2.width
  · -- The second piece is to the right of the first.
    obtain ⟨n, columnsEq⟩ := Nat.exists_eq_add_of_le' (pieces_two (by decide) wide)
    simp only [resizeSboxes, rowsEq, columnsEq, List.range_succ_eq_map, List.map_cons,
      List.flatMap_cons, List.cons_append]
    exact ⟨_, _, _, rfl, by simp, by simp [bsResizeW]⟩
  · -- There is one column, and the second piece is below the first.
    have tall : sboxHMax src < box.2.height := by
      simp only [startSplits, decide_eq_true_eq] at large
      omega
    obtain ⟨n, rowsEq⟩ := Nat.exists_eq_add_of_le' (pieces_two limit tall)
    have columnsEq := (pieces_one width (Int.not_lt.mp wide)).1
    simp only [resizeSboxes, rowsEq, columnsEq, List.range_succ_eq_map, List.map_cons,
      List.flatMap_cons, List.range_zero, List.map_nil, List.cons_append, List.nil_append]
    exact ⟨_, _, _, rfl, by simp, by simp; omega⟩

/-- The configuration of the first piece of a box, and of no second one. -/
def Corner (cfg : ResizeCfg) : Prop := cfg.dstBox.x = 0 ∧ cfg.dstBox.y = 0

/-- The pieces of the boxes are marked by their corners. -/
theorem marked_parts (boxes : List ResizeBox)
    (sized : ∀ box ∈ boxes, 0 < box.2.width ∧ 0 < box.2.height)
    (cuts : ∀ box ∈ boxes, (cutBox src coef offset box).isSome) :
    Groups.Marked (startSplits src) (parts src coef offset) Corner boxes := by
  have sboxes : ∀ box ∈ boxes, parts src coef offset box = (resizeSboxes src box.2).map
      (resizeSboxCfg box.1 src box.2 coef offset
        ((yGain src (resampling box.1.box box.2).scaleY).getD 0)) := by
    intro box mem
    have given := cuts box mem
    obtain ⟨width, height⟩ := sized box mem
    -- A box that could be cut has passed the test on its parity.
    have even : box.2.format = .nv12 → EvenBox box.1.box := by
      intro planes
      by_contra odd
      have pieces : resizeSboxes src box.2 ≠ [] := by
        cases large : startSplits src box with
        | true =>
          obtain ⟨first, second, rest, is, _⟩ := resizeSboxes_large width height large
          simp [is]
        | false => simp [resizeSboxes_small width height large]
      rw [cutBox_none pieces planes odd] at given
      cases given
    rw [parts, cutBox_eq (stuffBox_of_cutBox given) even, Option.getD_some]
  constructor
  · intro box mem large
    obtain ⟨width, height⟩ := sized box mem
    obtain ⟨first, second, rest, is, corner, other⟩ := resizeSboxes_large width height large
    rw [sboxes box mem, is]
    exact ⟨_, _, _, rfl, corner, other⟩
  · intro box mem small
    obtain ⟨width, height⟩ := sized box mem
    rw [sboxes box mem, resizeSboxes_small width height small]
    exact ⟨_, rfl, rfl, rfl⟩

/-- A small box is one piece with its own configuration exactly when the two ways agree on it. -/
theorem parts_iff (some : (stuffBox src coef offset box).isSome) (width : 0 < box.2.width)
    (height : 0 < box.2.height) (small : startSplits src box = false) :
    (cutBox src coef offset box = .some [wholeBox src coef offset box]) ↔ OnePiece src box := by
  have sboxes := resizeSboxes_small width height small
  constructor
  · intro same
    have even : box.2.format = .nv12 → EvenBox box.1.box := by
      intro planes
      by_contra odd
      rw [cutBox_none (by simp [sboxes]) planes odd] at same
      cases same
    rw [cutBox_eq some even, sboxes, Option.some.injEq, List.map_singleton, List.cons.injEq] at same
    have equal := same.1
    have source := congrArg ResizeCfg.srcBox equal
    have last := congrFun (congrArg ResizeCfg.matrix equal) mpersp0
    have plane := congrArg ResizeCfg.dstBase1 equal
    have image : affineMode src = true := by
      cases image : affineMode src with
      | true => rfl
      | false => simp [resizeSboxCfg, wholeBox, resizeCfg, resizeMatrix, mpersp0, image] at last
    have planes : box.2.format = .nv12 := by
      by_contra other
      simp [resizeSboxCfg, wholeBox, resizeCfg, other] at plane
    exact ⟨image, planes, even planes, source⟩
  · intro one
    rw [cutBox_eq some fun _ => one.even, sboxes, List.map_singleton]
    have whole := one.whole
    simp only [resizeSboxCfg, wholeBox, resizeCfg, whole, one.image, one.planes, columnBytes]
    -- What is left is the second plane of the source, which other formats do not have.
    simp only [Int.zero_mul, Int.add_zero, Int.zero_ediv, if_true, reduceCtorEq, if_false,
      Option.some.injEq, List.cons.injEq, and_true, ResizeCfg.mk.injEq, true_and]
    split
    · rfl
    case isFalse other => simp [resizeWboxBase, other]

/-- Where the front end builds its chain, every box passes its assertions there. -/
theorem built_boxes (built : (bsResizeStart src boxes coef offset).isSome) :
    (∀ box ∈ boxes.filter (startSplits src), (cutBox src coef offset box).isSome) ∧
      ∀ box ∈ boxes.filter (!startSplits src ·), (stuffBox src coef offset box).isSome := by
  rw [bsResizeStart, resize_loops] at built
  rw [← Groups.mapM_isSome, ← Groups.mapM_isSome]
  cases pieces : (boxes.filter (startSplits src)).mapM (cutBox src coef offset) with
  | none => simp [pieces] at built
  | some lists => simpa [pieces] using built

/-- So it passes what a box in one piece needs. -/
theorem built_stuff (built : (bsResizeStart src boxes coef offset).isSome) :
    ∀ box ∈ boxes, (stuffBox src coef offset box).isSome := by
  obtain ⟨cuts, stuffs⟩ := built_boxes built
  intro box mem
  cases large : startSplits src box with
  | true => exact stuffBox_of_cutBox (cuts box (List.mem_filter.mpr ⟨mem, large⟩))
  | false => exact stuffs box (List.mem_filter.mpr ⟨mem, by simp [large]⟩)

/-- Boxes in one piece give one configuration each. -/
theorem mapM_stuffBox (some : ∀ box ∈ boxes, (stuffBox src coef offset box).isSome) :
    (boxes.mapM (stuffBox src coef offset)).map List.flatten =
      .some (boxes.map (wholeBox src coef offset)) := by
  have each : boxes.map (fun box => (stuffBox src coef offset box).getD []) =
      boxes.map fun box => [wholeBox src coef offset box] :=
    List.map_congr_left fun box mem => by rw [stuffBox_eq (some box mem), Option.getD_some]
  rw [Groups.mapM_some some, each, Option.map_some, ← List.flatMap_def, List.map_eq_flatMap]

/-- The sequence that `bs_resize_start` builds. -/
theorem bsResizeStart_eq (built : (bsResizeStart src boxes coef offset).isSome) :
    bsResizeStart src boxes coef offset = some (Groups.largeFirst (startSplits src)
      (parts src coef offset) (wholeBox src coef offset) boxes) := by
  obtain ⟨cuts, stuffs⟩ := built_boxes built
  have line := mapM_stuffBox stuffs
  obtain ⟨lists, lines, flat⟩ := Option.map_eq_some_iff.mp line
  rw [bsResizeStart, resize_loops, Groups.mapM_some cuts, Option.bind_some, lines, Option.map_some,
    flat, ← List.flatMap_def]
  rfl

/-- The sequence that `bs_resize_mdl` builds when it cuts no box. -/
theorem bsResizeMdl_whole (built : (bsResizeStart src boxes coef offset).isSome)
    (none : mdlSplits boxes = false) :
    bsResizeMdl src boxes coef offset = some (boxes.map (wholeBox src coef offset)) := by
  rw [bsResizeMdl, resize_loops, ← mapM_stuffBox (built_stuff built)]
  simp [none]

/-- The sequence that `bs_resize_mdl` builds when it cuts every box. -/
theorem bsResizeMdl_parts (every : mdlSplits boxes = true) :
    bsResizeMdl src boxes coef offset =
      (boxes.mapM (cutBox src coef offset)).map List.flatten := by
  rw [bsResizeMdl, resize_loops]
  cases pieces : boxes.mapM (cutBox src coef offset) <;> simp [every, pieces]

/-- The model builds the sequence of the hardware exactly when it decides as the hardware does. -/
theorem bsResizeMdl_iff (sized : ∀ box ∈ boxes, 0 < box.2.width ∧ 0 < box.2.height)
    (built : (bsResizeStart src boxes coef offset).isSome) :
    bsResizeMdl src boxes coef offset = bsResizeStart src boxes coef offset ↔
      Agrees src boxes := by
  have cuts := (built_boxes built).1
  have stuffs := built_stuff built
  rw [bsResizeStart_eq built, Agrees]
  split
  case isFalse none =>
    -- A box that is cut would give more configurations than the model has.
    rw [bsResizeMdl_whole built (by simpa using none), Option.some.injEq]
    apply Groups.map_eq_largeFirst_iff _
    intro box mem large
    have given := cuts box (List.mem_filter.mpr ⟨mem, large⟩)
    have marked : Groups.Marked (startSplits src) (parts src coef offset) Corner [box] :=
      marked_parts [box] (by simpa using sized box mem) (by simpa using given)
    obtain ⟨first, second, rest, is, _⟩ := marked.several box List.mem_cons_self large
    simp [is]
  case isTrue every =>
    rw [bsResizeMdl_parts every]
    by_cases all : ∀ box ∈ boxes, (cutBox src coef offset box).isSome
    · rw [Groups.mapM_some all, Option.map_some, ← List.flatMap_def, Option.some.injEq]
      apply (Groups.flatMap_eq_largeFirst_iff _ (marked_parts boxes sized all)).trans
      refine and_congr_right fun _ => forall_congr' fun box => forall_congr' fun mem =>
        forall_congr' fun small => ?_
      obtain ⟨width, height⟩ := sized box mem
      rw [← parts_iff (stuffs box mem) width height small]
      obtain ⟨pieces, is⟩ := Option.isSome_iff_exists.mp (all box mem)
      simp [parts, is]
    · -- A small box fails the check of an NV12 destination only where it is cut.
      have failed : boxes.mapM (cutBox src coef offset) = none := by
        rw [← Option.not_isSome_iff_eq_none, Groups.mapM_isSome]
        exact all
      rw [failed]
      simp only [Option.map_none, reduceCtorEq, false_iff, not_and]
      intro _ one
      apply all
      intro box mem
      cases large : startSplits src box with
      | true => exact cuts box (List.mem_filter.mpr ⟨mem, large⟩)
      | false =>
        obtain ⟨width, height⟩ := sized box mem
        have whole := (parts_iff (stuffs box mem) width height large).mpr (one box mem large)
        rw [whole]
        rfl

section FrontEnds

variable {Box Cfg Coefs : Type*} (s : Stuffing Box Cfg Coefs) (affineBoxes : List (Box × ImageInfo))
  (coefs : Coefs)

/--
The affine and the perspective model always build the sequence of the hardware, and the resize model
does so exactly when it decides as the hardware does.
-/
theorem mdl_predicts_iff (src : ImageInfo) (boxes : List ResizeBox) (coef : Fin 9 → UInt32)
    (offset : Fin 2 → UInt32) (sized : ∀ box ∈ boxes, 0 < box.2.width ∧ 0 < box.2.height)
    (built : (bsResizeStart src boxes coef offset).isSome) :
    bsAffineMdl s src affineBoxes coefs = bsAffineStart s src affineBoxes coefs ∧
    bsPerspectiveMdl s src affineBoxes coefs = bsPerspectiveStart s src affineBoxes coefs ∧
    (bsResizeMdl src boxes coef offset = bsResizeStart src boxes coef offset ↔
      Agrees src boxes) :=
  ⟨rfl, rfl, bsResizeMdl_iff sized built⟩

end FrontEnds

/-- An image of four bytes for each pixel. -/
def image (width height : Int) : ImageInfo :=
  { base := 4096, base1 := 0, format := .bgra, width := width, height := height
    lineStride := 4 * width, locate := .nmem }

/-- A box of an image, resized to an image. -/
def resized (w h width height : Int) : ResizeBox :=
  ({ box := { x := 0, y := 0, w := w, h := h }, zeroPoint := 0 }, image width height)

/-- Boxes of different sizes that neither front end cuts, with nothing for the other units to do. -/
theorem mdl_predicts_small :
    bsResizeMdl (image 640 480) [resized 100 80 64 64, resized 30 50 16 32] (fun _ => 0)
        (fun _ => 0) =
      bsResizeStart (image 640 480) [resized 100 80 64 64, resized 30 50 16 32] (fun _ => 0)
        (fun _ => 0) :=
  (@mdl_predicts_iff Unit Unit Unit ⟨fun out _ _ _ _ => some out,
    fun out _ _ _ _ => some out, fun out _ _ _ _ => some out, fun out _ _ _ _ => some out,
    fun out _ _ _ _ => some out, fun out _ _ _ _ => some out⟩ [] () _ _ _ _ (by decide) rfl).2.2.mpr
    (by rw [Agrees, if_neg (by decide)]; decide)

/-- A destination of 100 rows is cut for the hardware, and not for the model. -/
theorem mdl_misses_rows :
    bsResizeMdl (image 640 480) [resized 64 100 64 100] (fun _ => 0) (fun _ => 0) ≠
      bsResizeStart (image 640 480) [resized 64 100 64 100] (fun _ => 0) (fun _ => 0) := by
  rw [Ne, bsResizeMdl_iff (by decide) rfl, Agrees, if_neg (by decide)]
  decide

end Aip.Bscaler
