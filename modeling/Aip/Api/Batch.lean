import Aip.Api.Ingenic

/-! A list of boxes processed in one call and in calls of their own. -/

namespace Aip.Ingenic

/--
Each box gets the node and the configuration that it gets when it is the only one.

The locals that have no initialiser may hold anything in either call.
-/
def IsMap {Box Node : Type} (process : Stack → DataInfo → List (Box × DataInfo) → Built Node)
    (src : DataInfo) (items : List (Box × DataInfo)) : Prop :=
  ∀ (i : Nat) (item : Box × DataInfo), items[i]? = some item → ∀ stack alone : Stack,
    (process stack src items).nodes[i]? = (process alone src [item]).nodes[0]? ∧
      (process stack src items).cfg = (process alone src [item]).cfg

/-- The destinations are all behind one bus. -/
def SameBus {Box : Type} (items : List (Box × DataInfo)) : Prop :=
  ∀ a ∈ items, ∀ b ∈ items, a.2.locate.bus = b.2.locate.bus

/-- The destination has a format for the word of the node, or the other half fills its bits. -/
def Determined (offset : UInt32 × UInt32) (dst : DataInfo) : Prop :=
  (rgbFormat dst.format).isSome ∨
    ∀ unset : UInt32, unset <<< 24 ||| (offset.2 <<< 8 ||| offset.1) = offset.2 <<< 8 ||| offset.1

variable {src : DataInfo}

/-- Caching the chroma plane twice is caching it once. -/
theorem cacheBase1_idem : src.cacheBase1.cacheBase1 = src.cacheBase1 := by
  unfold DataInfo.cacheBase1
  split
  · split <;> rfl
  · simp [*]

/-- A frame whose chroma plane may have been cached is the same frame. -/
theorem frame_of_cached {now : DataInfo}
    (frame : now = src ∨ (src.format = .nv12 ∧ now = src.cacheBase1)) :
    now.format = src.format ∧ now.lineStride = src.lineStride ∧ now.locate = src.locate ∧
      now.base = src.base ∧ now.cacheBase1 = src.cacheBase1 := by
  rcases frame with same | ⟨_, same⟩
  · rw [same]
    exact ⟨rfl, rfl, rfl, rfl, rfl⟩
  · rw [same, cacheBase1_idem]
    unfold DataInfo.cacheBase1
    split
    · exact ⟨rfl, rfl, rfl, rfl, rfl⟩
    · exact ⟨rfl, rfl, rfl, rfl, rfl⟩

/-- What the loop's locals hold between two boxes of a call. -/
structure PLocals.Carried (src : DataInfo) (l : PLocals) : Prop where
  frame : l.src = src ∨ (src.format = .nv12 ∧ l.src = src.cacheBase1)
  chroma : src.format ≠ .nv12 → l.srcBaseUv = 0 ∧ l.offsetUv = 0
  other : src.format.isRgb = false → src.format ≠ .nv12 → src.format ≠ .uv → src.format ≠ .y →
    l.mode = 0 ∧ l.offsetY = 0

/-- The locals before the first box are such. -/
theorem PLocals.Carried.start (stack : Stack) : Carried src (.start stack src) :=
  ⟨.inl rfl, fun _ => ⟨rfl, rfl⟩, fun _ _ _ _ => ⟨rfl, rfl⟩⟩

/-- The addresses of a box are those that it gets as the first one. -/
theorem PLocals.Carried.place {l : PLocals} (carried : Carried src l) (stack : Stack)
    (box : BoxInfo) : l.place box =
      { (PLocals.start stack src).place box with
        dstFormat := l.dstFormat, srcLocate := l.srcLocate, dstLocate := l.dstLocate } := by
  by_cases nv12 : src.format = .nv12
  · -- The chroma plane is the same, cached before or not.
    obtain ⟨format, stride, _, _, cached⟩ := frame_of_cached carried.frame
    have planes : BsDataFormat.nv12.isRgb = false := by decide
    simp [PLocals.place, PLocals.start, format, nv12, cached, stride, planes]
  · have same : l.src = src := carried.frame.resolve_right fun both => nv12 both.1
    obtain ⟨base, uv⟩ := carried.chroma nv12
    have other := carried.other
    obtain ⟨frame, mode, plane, offsetY, offsetUv, _, _, _⟩ := l
    subst same
    simp only [PLocals.place, PLocals.start, nv12, if_false] at base uv other ⊢
    subst base uv
    by_cases rgb : frame.format.isRgb = true
    · simp [rgb]
    by_cases isUv : frame.format = .uv
    · have planes : BsDataFormat.uv.isRgb = false := by decide
      simp [isUv, planes]
    by_cases isY : frame.format = .y
    · have planes : BsDataFormat.y.isRgb = false := by decide
      simp [isY, planes]
    -- The format has no address of its own, and the locals still hold their zeros.
    obtain ⟨mode, offset⟩ := other (by simpa using rgb) nv12 isUv isY
    simp [rgb, isUv, isY, mode, offset]

/-- A turn of the loop leaves the locals as they should be. -/
theorem PLocals.Carried.turn {l : PLocals} (carried : Carried src l) (box : BoxInfo)
    (dst : DataInfo) : Carried src ((l.place box).select dst) := by
  rw [carried.place ⟨0, 0, 0⟩]
  simp only [PLocals.select, PLocals.place, PLocals.start]
  by_cases rgb : src.format.isRgb = true
  · exact ⟨.inl (by simp [rgb]), fun _ => by simp [rgb], fun planes => by simp [rgb] at planes⟩
  by_cases nv12 : src.format = .nv12
  · have planes : BsDataFormat.nv12.isRgb = false := by decide
    exact ⟨.inr ⟨nv12, by simp [nv12, planes]⟩, fun other => (other nv12).elim,
      fun _ other => (other nv12).elim⟩
  by_cases isUv : src.format = .uv
  · have planes : BsDataFormat.uv.isRgb = false := by decide
    exact ⟨.inl (by simp [isUv, planes]), fun _ => by simp [isUv, planes],
      fun _ _ other => (other isUv).elim⟩
  by_cases isY : src.format = .y
  · have planes : BsDataFormat.y.isRgb = false := by decide
    exact ⟨.inl (by simp [isY, planes]), fun _ => by simp [isY, planes],
      fun _ _ _ other => (other isY).elim⟩
  · exact ⟨.inl (by simp [rgb, nv12, isUv, isY]), fun _ => by simp [rgb, nv12, isUv, isY],
      fun _ _ _ _ => by simp [rgb, nv12, isUv, isY]⟩

/-- The word of a node. -/
def offsetWord (offset : UInt32 × UInt32) (dst : DataInfo) (unset : UInt32) : UInt32 :=
  (rgbFormat dst.format).getD unset <<< 24 ||| (offset.2 <<< 8 ||| offset.1)

/-- The word does not depend on a variable that is not set exactly when it is determined. -/
theorem determined_iff {offset : UInt32 × UInt32} {dst : DataInfo} : Determined offset dst ↔
    ∀ a b, offsetWord offset dst a = offsetWord offset dst b := by
  unfold Determined offsetWord
  cases known : rgbFormat dst.format with
  | some format => simp
  | none =>
    constructor
    · intro given a b
      have full := given.resolve_left (by simp)
      exact (full a).trans (full b).symm
    · intro same
      -- Against a variable that happens to be 0.
      refine .inr fun unset => (same unset 0).trans ?_
      simp

section Planes

variable {parms : Vector Float32 9 → CoefParms} {stride : DataInfo → Int32}
  {offset : UInt32 × UInt32} {item : PBox} {items : List PBox}

/-- The word of a node is set by the format of its destination, or by that of an earlier one. -/
theorem pStep_offset (l : PLocals) :
    (pStep parms stride offset l item).1.offset = offsetWord offset item.2 l.dstFormat := by
  -- Finding the addresses leaves the format alone.
  have kept : (l.place item.1.box).dstFormat = l.dstFormat := by
    unfold PLocals.place
    dsimp only
    split_ifs <;> rfl
  simp only [pStep, PLocals.select, offsetWord, kept]

/-- A determined node is the one that its box gets as the first one. -/
theorem pStep_eq {l : PLocals} (carried : l.Carried src) (stack : Stack)
    (determined : Determined offset item.2) :
    (pStep parms stride offset l item).1 =
        (pStep parms stride offset (.start stack src) item).1 ∧
      (pStep parms stride offset l item).2.Carried src := by
  refine ⟨?_, carried.turn item.1.box item.2⟩
  have word := determined_iff.mp determined l.dstFormat
    ((PLocals.start stack src).place item.1.box).dstFormat
  unfold offsetWord at word
  simp only [pStep, carried.place stack, PLocals.select, word]

/-- The configuration of a list of boxes is that of the last one. -/
theorem pProcess_cfg (stack : Stack) (first : PBox) :
    (pProcess parms stride offset stack src (first :: items)).cfg =
      ((first :: items).getLast (by simp)).2.locate.bus <<< 1 ||| src.locate.bus := by
  have start : (PLocals.start stack src).Carried src := .start stack
  have turn : ∀ l (item : PBox), l.Carried src →
      (pStep parms stride offset l item).2.Carried src :=
    fun l item carried => carried.turn item.1.box item.2
  have dst := Loop.run_last PLocals.dstLocate (fun item => item.2.locate.bus)
    (fun l item carried => ⟨rfl, turn l item carried⟩) start first items
  have own := Loop.run_last PLocals.srcLocate (fun _ => src.locate.bus) (fun l item carried =>
    ⟨congrArg BsDataLocate.bus (frame_of_cached (turn l item carried).frame).2.2.1,
      turn l item carried⟩) start first items
  simp only [pProcess, dst, own]

/-- The words of the bus configuration tell the buses apart. -/
theorem bus_inj {a b c : BsDataLocate} : a.bus <<< 1 ||| c.bus = b.bus <<< 1 ||| c.bus ↔
    a.bus = b.bus := by
  cases a <;> cases b <;> cases c <;> decide

/-- The configuration of the last box is that of every box exactly when all are behind one bus. -/
theorem sameBus_iff {Box : Type} {first : Box × DataInfo} {rest : List (Box × DataInfo)}
    {chosen : Box × DataInfo} (member : chosen ∈ first :: rest) (locate : BsDataLocate) :
    SameBus (first :: rest) ↔ ∀ item ∈ first :: rest,
      chosen.2.locate.bus <<< 1 ||| locate.bus = item.2.locate.bus <<< 1 ||| locate.bus := by
  constructor
  · intro same item listed
    exact bus_inj.mpr (same chosen member item listed)
  · intro each a inA b inB
    exact (bus_inj.mp (each a inA)).symm.trans (bus_inj.mp (each b inB))

/-- What a box gets in a call of its own. -/
theorem pProcess_alone (stack : Stack) (item : PBox) :
    (pProcess parms stride offset stack src [item]).nodes =
      [(pStep parms stride offset (.start stack src) item).1] := rfl

/-- With determined words, the nodes of a list are those of its boxes one by one. -/
theorem pProcess_nodes (stack : Stack) (determined : ∀ item ∈ items, Determined offset item.2) :
    (pProcess parms stride offset stack src items).nodes =
      items.map fun item => (pStep parms stride offset (.start stack src) item).1 := by
  have each : ∀ item ∈ items, ∀ l : PLocals, l.Carried src →
      (pStep parms stride offset l item).1 =
          (pStep parms stride offset (.start stack src) item).1 ∧
        (pStep parms stride offset l item).2.Carried src :=
    fun item member l carried => pStep_eq carried stack (determined item member)
  exact Loop.run_eq_map (I := PLocals.Carried src) each (.start stack)

/-- The two readings of a machine word tell the same words apart. -/
theorem toUInt32_inj {a b : Int32} : a.toUInt32 = b.toUInt32 ↔ a = b := by
  cases a
  cases b
  simp

/-- The nodes of a box with two strides are the same exactly when the strides are. -/
theorem pStep_stride_iff {other : DataInfo → Int32} (l : PLocals) :
    (pStep parms stride offset l item).1 = (pStep parms other offset l item).1 ↔
      stride item.2 = other item.2 := by
  simp [pStep, toUInt32_inj]

/--
The loop is a map exactly when the words are determined, each box is given its own line stride, and
all destinations are behind one bus.
-/
theorem pProcess_isMap_iff (strides : List PBox → DataInfo → Int32)
    (own : ∀ item, strides [item] item.2 = item.2.lineStride) (first : PBox) (rest : List PBox) :
    IsMap (fun stack src items => pProcess parms (strides items) offset stack src items) src
        (first :: rest) ↔
      (∀ item ∈ first :: rest, Determined offset item.2 ∧
        strides (first :: rest) item.2 = item.2.lineStride) ∧ SameBus (first :: rest) := by
  have last := List.getLast_mem (l := first :: rest) (by simp)
  constructor
  · intro map
    have determined : ∀ item ∈ first :: rest, Determined offset item.2 := by
      intro item member
      obtain ⟨i, found⟩ := List.mem_iff_getElem?.mp member
      rw [determined_iff]
      intro a b
      -- The same node of the list is compared with two calls for the box alone.
      have one := (map i item found ⟨0, 0, 0⟩ ⟨a, 0, 0⟩).1
      have two := (map i item found ⟨0, 0, 0⟩ ⟨b, 0, 0⟩).1
      have same := one.symm.trans two
      simp only [pProcess_alone, List.getElem?_cons_zero, Option.some.injEq] at same
      have word := congrArg AipPChainnode.offset same
      simpa only [pStep_offset, PLocals.start] using word
    refine ⟨fun item member => ⟨determined item member, ?_⟩, ?_⟩
    · obtain ⟨i, found⟩ := List.mem_iff_getElem?.mp member
      have nodes := (map i item found ⟨0, 0, 0⟩ ⟨0, 0, 0⟩).1
      simp only [pProcess_nodes _ determined, pProcess_alone, List.getElem?_map, found,
        Option.map_some, List.getElem?_cons_zero, Option.some.injEq] at nodes
      exact (pStep_stride_iff _).mp nodes |>.trans (own item)
    · rw [sameBus_iff last src.locate]
      intro item member
      obtain ⟨i, found⟩ := List.mem_iff_getElem?.mp member
      have cfg := (map i item found ⟨0, 0, 0⟩ ⟨0, 0, 0⟩).2
      simpa only [pProcess_cfg, List.getLast_singleton] using cfg
  · intro given i item found stack alone
    obtain ⟨each, bus⟩ := given
    have member := List.mem_of_getElem? found
    constructor
    · have determined := fun item member => (each item member).1
      have fresh : (pStep parms (strides [item]) offset (.start stack src) item).1 =
          (pStep parms (strides [item]) offset (.start alone src) item).1 :=
        (pStep_eq (.start stack) alone (each item member).1).1
      simp only [pProcess_nodes _ determined, pProcess_alone, List.getElem?_map, found,
        Option.map_some, List.getElem?_cons_zero, Option.some.injEq]
      rw [← fresh, pStep_stride_iff, own item]
      exact (each item member).2
    · have cfg := (sameBus_iff last src.locate).mp bus item member
      simpa only [pProcess_cfg, List.getLast_singleton] using cfg

/-- The affine function is a map exactly for determined words and destinations behind one bus. -/
theorem affineProcess_isMap_iff (first : PBox) (rest : List PBox) :
    IsMap (affineProcess offset) src (first :: rest) ↔
      (∀ item ∈ first :: rest, Determined offset item.2) ∧ SameBus (first :: rest) := by
  refine (pProcess_isMap_iff (fun _ => DataInfo.lineStride) (fun _ => rfl) first rest).trans ?_
  simp

/-- The perspective function is so when moreover all destinations have lines as long as the first. -/
theorem perspectiveProcess_isMap_iff (first : PBox) (rest : List PBox) :
    IsMap (perspectiveProcess offset) src (first :: rest) ↔
      (∀ item ∈ first :: rest, Determined offset item.2 ∧
        item.2.lineStride = first.2.lineStride) ∧ SameBus (first :: rest) := by
  refine (pProcess_isMap_iff (fun items dst =>
    items.head?.elim dst.lineStride fun first => first.2.lineStride) (fun _ => rfl) first rest).trans ?_
  simp only [List.head?_cons, Option.elim_some, eq_comm]

end Planes

section Resize

variable {item : FBox} {items : List FBox}

/-- What the loop's locals hold between two boxes of a resize. -/
structure FLocals.Carried (src : DataInfo) (l : FLocals) : Prop where
  frame : l.src = src ∨ (src.format = .nv12 ∧ l.src = src.cacheBase1)
  chroma : src.format ≠ .nv12 → l.srcBaseUv = 0 ∧ l.dstBaseUv = 0 ∧ l.offsetUv = 0
  other : fDataFormat src.format = none → l.offsetY = 0

/-- The locals before the first box are such. -/
theorem FLocals.Carried.start : (FLocals.start src).Carried src :=
  ⟨.inl rfl, fun _ => ⟨rfl, rfl, rfl⟩, fun _ => rfl⟩

/-- Two formats have no word of their own. -/
theorem unknown_iff {format : BsDataFormat} :
    fDataFormat format = none ↔ format = .vbgr ∨ format = .vrgb := by
  cases format <;> simp [fDataFormat]

/-- A format with a word of its own has addresses of its own. -/
theorem FLocals.place_offsetY {l : FLocals} (known : fDataFormat l.src.format ≠ none)
    (box : BoxInfo) (dst : DataInfo) (offsetY : UInt32) :
    ({ l with offsetY := offsetY }).place box dst = l.place box dst := by
  unfold FLocals.place
  dsimp only
  split_ifs
  all_goals first
    | rfl
    | skip
  -- The two formats that no branch is for have no word either.
  exfalso
  apply known
  rw [unknown_iff]
  cases format : l.src.format <;> simp_all [BsDataFormat.isRgb, BsDataFormat.value]

/-- A turn of the loop is the same whatever boxes went before. -/
theorem fStep_eq {l : FLocals} (carried : l.Carried src) :
    fStep l item = fStep (.start src) item := by
  obtain ⟨frame, chroma, other⟩ := carried
  by_cases nv12 : src.format = .nv12
  · obtain ⟨format, stride, _, base, cached⟩ := frame_of_cached frame
    have planes : BsDataFormat.nv12.isRgb = false := by decide
    simp [fStep, FLocals.place, FLocals.start, format, nv12, planes, stride, cached]
  · have same : l.src = src := frame.resolve_right fun both => nv12 both.1
    obtain ⟨srcBase, dstBase, offsetUv⟩ := chroma nv12
    obtain ⟨now, _, _, _, _, offsetY, _, _⟩ := l
    subst same
    simp only at srcBase dstBase offsetUv other
    subst srcBase dstBase offsetUv
    by_cases unknown : fDataFormat now.format = none
    · rw [other unknown]
      rfl
    · -- The address of the box replaces what the local held.
      have place := FLocals.place_offsetY (l := {
        src := now
        scaleX := item.1.box.w.toFloat32 / item.2.width.toFloat32
        scaleY := item.1.box.h.toFloat32 / item.2.height.toFloat32
        srcBaseUv := 0
        dstBaseUv := 0
        offsetY := offsetY
        offsetUv := 0
        lineStride := item.2.lineStride }) unknown item.1.box item.2 0
      simp only [fStep, FLocals.start, place]

/-- A box of a source without a chroma plane sets the address, at most. -/
theorem FLocals.place_other {l : FLocals} (nv12 : l.src.format ≠ .nv12) (box : BoxInfo)
    (dst : DataInfo) : ∃ offsetY, l.place box dst = { l with offsetY := offsetY } ∧
      (fDataFormat l.src.format = none → offsetY = l.offsetY) := by
  unfold FLocals.place
  dsimp only
  split_ifs
  all_goals first
    | exact ⟨_, rfl, fun _ => rfl⟩
    | skip
  all_goals
    refine ⟨_, rfl, fun unknown => ?_⟩
    rcases unknown_iff.mp unknown with same | same <;> simp_all [BsDataFormat.isRgb, BsDataFormat.value]

/-- A turn of the loop leaves the locals as they should be. -/
theorem FLocals.Carried.turn {l : FLocals} (carried : l.Carried src) :
    (fStep l item).2.Carried src := by
  rw [fStep_eq carried]
  by_cases nv12 : src.format = .nv12
  · have planes : BsDataFormat.nv12.isRgb = false := by decide
    refine ⟨.inr ⟨nv12, ?_⟩, fun other => (other nv12).elim, fun unknown => ?_⟩
    · simp [fStep, FLocals.place, FLocals.start, nv12, planes]
    · simp [nv12, fDataFormat] at unknown
  · obtain ⟨offsetY, place, unset⟩ := FLocals.place_other (l := { FLocals.start src with
      scaleX := item.1.box.w.toFloat32 / item.2.width.toFloat32
      scaleY := item.1.box.h.toFloat32 / item.2.height.toFloat32
      lineStride := item.2.lineStride }) nv12 item.1.box item.2
    have locals : (fStep (.start src) item).2 = _ := place
    rw [locals]
    exact ⟨.inl rfl, fun _ => ⟨rfl, rfl, rfl⟩, unset⟩

/-- The nodes of a list are those of its boxes one by one. -/
theorem fRun_nodes (items : List FBox) : (Loop.run fStep (.start src) items).1 =
    items.map fun item => (fStep (.start src) item).1 := by
  have each : ∀ item ∈ items, ∀ l : FLocals, l.Carried src →
      (fStep l item).1 = (fStep (.start src) item).1 ∧ (fStep l item).2.Carried src :=
    fun item _ l carried => ⟨congrArg Prod.fst (fStep_eq carried), carried.turn⟩
  exact Loop.run_eq_map (I := FLocals.Carried src) each .start

/-- The words of the configuration of a resize tell the buses apart. -/
theorem resizeBus_inj {format : BsDataFormat} {word : UInt32} (known : fDataFormat format = some word)
    {a b c : BsDataLocate} : word <<< 7 ||| (a.bus <<< 1 ||| c.bus) =
      word <<< 7 ||| (b.bus <<< 1 ||| c.bus) ↔ a.bus = b.bus := by
  cases format <;> cases known <;> cases a <;> cases b <;> cases c <;> decide

/-- A resize is given its configuration by the first destination. -/
theorem fCfg_iff (first : FBox) (rest : List FBox) :
    (∀ item ∈ first :: rest, ∀ stack alone,
        fCfg stack src (first :: rest) = fCfg alone src [item]) ↔
      fDataFormat src.format ≠ none ∧ SameBus (first :: rest) := by
  simp only [fCfg, List.head?_cons, Option.map_some, Option.getD_some]
  cases known : fDataFormat src.format with
  | none =>
    -- Against two values of the variable that is not set.
    refine ⟨fun same => ?_, fun given => (given.1 rfl).elim⟩
    have clash := same first List.mem_cons_self ⟨0, 0, 0⟩ ⟨1, 0, 0⟩
    simp only [Option.getD_none] at clash
    exfalso
    revert clash
    cases first.2.locate <;> cases src.locate <;> decide
  | some word =>
    simp only [Option.getD_some, resizeBus_inj known]
    constructor
    · intro same
      refine ⟨by simp, fun a inA b inB => ?_⟩
      exact (same a inA ⟨0, 0, 0⟩ ⟨0, 0, 0⟩).symm.trans (same b inB ⟨0, 0, 0⟩ ⟨0, 0, 0⟩)
    · intro given item member _ _
      exact given.2 first List.mem_cons_self item member

/-- A resize is a map exactly when its source has a format and all destinations are behind one bus. -/
theorem resize_isMap_iff (extra : FLocals → List AipFChainnode) (first : FBox) (rest : List FBox) :
    IsMap (fun stack src items =>
        let loop := Loop.run fStep (.start src) items
        { nodes := loop.1 ++ extra loop.2, cfg := fCfg stack src items, src := loop.2.src })
        src (first :: rest) ↔
      fDataFormat src.format ≠ none ∧ SameBus (first :: rest) := by
  rw [← fCfg_iff]
  constructor
  · intro map item member stack alone
    obtain ⟨i, found⟩ := List.mem_iff_getElem?.mp member
    exact (map i item found stack alone).2
  · intro same i item found stack alone
    refine ⟨?_, same item (List.mem_of_getElem? found) stack alone⟩
    have inside : i < (first :: rest).length := (List.getElem?_eq_some_iff.mp found).1
    simp only [fRun_nodes]
    rw [List.getElem?_append_left (by simpa using inside), List.getElem?_map, found]
    rfl

end Resize

/--
A list is processed box by box by an affine or a perspective call exactly when its words are
determined and its destinations are behind one bus, for a perspective call moreover with lines of one
length, and by a resize exactly when the source has a format and the destinations are behind one bus.
-/
theorem batch_iff (offset : UInt32 × UInt32) (src : DataInfo) (useless : UInt32) (first : PBox)
    (rest : List PBox) (one : FBox) (more : List FBox) :
    (IsMap (affineProcess offset) src (first :: rest) ↔
      (∀ item ∈ first :: rest, Determined offset item.2) ∧ SameBus (first :: rest)) ∧
    (IsMap (perspectiveProcess offset) src (first :: rest) ↔
      (∀ item ∈ first :: rest, Determined offset item.2 ∧
        item.2.lineStride = first.2.lineStride) ∧ SameBus (first :: rest)) ∧
    (IsMap resizeProcess src (one :: more) ↔
      fDataFormat src.format ≠ none ∧ SameBus (one :: more)) ∧
    (IsMap (resizeProcessA1 useless) src (one :: more) ↔
      fDataFormat src.format ≠ none ∧ SameBus (one :: more)) := by
  refine ⟨affineProcess_isMap_iff first rest, perspectiveProcess_isMap_iff first rest, ?_, ?_⟩
  · have plain := @resize_isMap_iff src (fun _ => []) one more
    simp only [List.append_nil] at plain
    exact plain
  · exact resize_isMap_iff (fun l => [l.extra useless]) one more

/-- A picture that the calls below write to. -/
def picture (lineStride : Int32) (locate : BsDataLocate) : DataInfo :=
  { base := 0x100000, base1 := 0, format := .bgra, width := 16, height := 16,
    lineStride := lineStride, locate := locate }

/-- The box that they cut out of it. -/
def corner : BoxAffineInfo :=
  { box := ⟨0, 0, 16, 16⟩, matrix := #v[1, 0, 0, 0, 1, 0, 0, 0, 1], zeroPoint := 0 }

/--
Of two destinations with lines of 64 and of 128 bytes the second is written with lines of 64, and of
two behind different buses both are written behind one.
-/
theorem batch_differs :
    ¬IsMap (perspectiveProcess (0, 0)) (picture 64 .nmem)
        [(corner, picture 64 .nmem), (corner, picture 128 .nmem)] ∧
      ¬IsMap (affineProcess (0, 0)) (picture 64 .nmem)
        [(corner, picture 64 .nmem), (corner, picture 64 .oram)] ∧
      ¬IsMap resizeProcess (picture 64 .nmem)
        [(⟨corner.box⟩, picture 64 .nmem), (⟨corner.box⟩, picture 64 .oram)] := by
  refine ⟨fun map => ?_, fun map => ?_, fun map => ?_⟩
  · have nodes := (map 1 _ rfl ⟨0, 0, 0⟩ ⟨0, 0, 0⟩).1
    have stride := congrArg (Option.map AipPChainnode.dstStride) nodes
    revert stride
    decide
  · have cfg := (map 0 _ rfl ⟨0, 0, 0⟩ ⟨0, 0, 0⟩).2
    revert cfg
    decide
  · have cfg := (map 1 _ rfl ⟨0, 0, 0⟩ ⟨0, 0, 0⟩).2
    revert cfg
    decide

end Aip.Ingenic
