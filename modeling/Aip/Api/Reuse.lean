import Aip.Api.Batch

/-! One descriptor of a frame handed to one call after the other. -/

namespace Aip.Ingenic

/-- A call that reads a frame, with everything it is given beside the descriptor of the frame. -/
inductive FrameCall where
  | affine (offset : UInt32 × UInt32) (stack : Stack) (items : List PBox)
  | perspective (offset : UInt32 × UInt32) (stack : Stack) (items : List PBox)
  | resize (stack : Stack) (items : List FBox)
  | covert (offset : UInt32 × UInt32) (stack : Stack) (dst : DataInfo)

/-- The nodes of a call. -/
inductive Nodes where
  | p (nodes : List AipPChainnode)
  | f (nodes : List AipFChainnode)
  | t (nodes : List AipTChainnode) (ofst : UInt32)
  deriving DecidableEq, Repr

/-- The addresses of the chroma planes in the nodes. -/
def Nodes.srcBaseUv : Nodes → List UInt32
  | .p nodes => nodes.map AipPChainnode.srcBaseUv
  | .f nodes => nodes.map AipFChainnode.srcBaseUv
  | .t nodes _ => nodes.map AipTChainnode.srcBaseUv

/-- The nodes and the bus configuration of a call, and the caller's descriptor behind it. -/
def FrameCall.run (src : DataInfo) : FrameCall → (Nodes × UInt32) × DataInfo
  | .affine offset stack items =>
    let built := affineProcess offset stack src items
    ((.p built.nodes, built.cfg), built.src)
  | .perspective offset stack items =>
    let built := perspectiveProcess offset stack src items
    ((.p built.nodes, built.cfg), built.src)
  | .resize stack items =>
    let built := resizeProcess stack src items
    ((.f built.nodes, built.cfg), built.src)
  | .covert offset stack dst =>
    let (built, ofst) := bsCovertCfg offset stack src dst
    ((.t built.nodes ofst, built.cfg), built.src)

/-- The place of a box in the chroma plane. -/
def chromaOffset (lineStride : Int32) (box : BoxInfo) : UInt32 :=
  (lineStride * box.y / 2 + box.x).toUInt32

/-- The places in the chroma plane that the nodes of a call start at. -/
def FrameCall.places (lineStride : Int32) : FrameCall → List UInt32
  | .affine _ _ items | .perspective _ _ items =>
    items.map fun item => chromaOffset lineStride item.1.box
  | .resize _ items => items.map fun item => chromaOffset lineStride item.1.box
  | .covert _ _ _ => [0]

/-- The frame of a call: the caller stores its address in the descriptor. -/
abbrev Frame := UInt32 × FrameCall

/-- The address of the chroma plane that a frame implies. -/
def DataInfo.plane (src : DataInfo) (base : UInt32) : UInt32 :=
  base + (src.width * src.height).toUInt32

/-- The caller stores the address of the next frame, and calls. -/
def useFrame (src : DataInfo) (frame : Frame) : (Nodes × UInt32) × DataInfo :=
  frame.2.run { src with base := frame.1 }

/-- Every node uses the chroma plane of its own frame. -/
def OwnPlane (src : DataInfo) (frames : List Frame) : Prop :=
  (Loop.run useFrame src frames).1.map (fun result => result.1.srcBaseUv) =
    frames.map fun frame => (frame.2.places src.lineStride).map (src.plane frame.1 + ·)

/-- Every call has the results that it has with a descriptor that no call was given before. -/
def Undisturbed (src : DataInfo) (frames : List Frame) : Prop :=
  (Loop.run useFrame src frames).1 = frames.map fun frame => (useFrame src frame).1

/-- A later call with nodes has the address of an earlier one whose chroma plane is cached. -/
def KeepsBase (src : DataInfo) (earlier later : Frame) : Prop :=
  earlier.2.places src.lineStride ≠ [] → src.plane earlier.1 ≠ 0 →
    later.2.places src.lineStride ≠ [] → later.1 = earlier.1

variable {src : DataInfo}

section Call

/-- The first box of an NV12 frame caches the chroma plane. -/
theorem pStep_cached (nv12 : src.format = .nv12) (parms : Vector Float32 9 → CoefParms)
    (stride : DataInfo → Int32) (offset : UInt32 × UInt32) (stack : Stack) (item : PBox) :
    pStep parms stride offset (.start stack src) item =
      pStep parms stride offset (.start stack src.cacheBase1) item := by
  obtain ⟨format, line, _, _, cached⟩ := frame_of_cached (.inr ⟨nv12, rfl⟩)
  have planes : BsDataFormat.nv12.isRgb = false := by decide
  simp [pStep, PLocals.place, PLocals.start, format, nv12, line, cached, planes]

/-- So does the first box of a resize. -/
theorem fStep_cached (nv12 : src.format = .nv12) (item : FBox) :
    fStep (.start src) item = fStep (.start src.cacheBase1) item := by
  obtain ⟨format, line, _, _, cached⟩ := frame_of_cached (.inr ⟨nv12, rfl⟩)
  have planes : BsDataFormat.nv12.isRgb = false := by decide
  simp [fStep, FLocals.place, FLocals.start, format, nv12, line, cached, planes]

/-- A call's results are those of the descriptor with its chroma plane already cached. -/
theorem run_cached (nv12 : src.format = .nv12) (call : FrameCall) :
    (call.run src).1 = (call.run src.cacheBase1).1 := by
  obtain ⟨format, _, locate, _, _⟩ := frame_of_cached (.inr ⟨nv12, rfl⟩)
  cases call with
  | affine offset stack items =>
    cases items with
    | nil => rfl
    | cons first rest =>
      simp only [FrameCall.run, affineProcess, pProcess, Loop.run, ← pStep_cached nv12]
  | perspective offset stack items =>
    cases items with
    | nil => rfl
    | cons first rest =>
      simp only [FrameCall.run, perspectiveProcess, pProcess, Loop.run, ← pStep_cached nv12]
  | resize stack items =>
    cases items with
    | nil => simp only [FrameCall.run, resizeProcess, Loop.run, fCfg, format, locate]
    | cons first rest =>
      simp only [FrameCall.run, resizeProcess, Loop.run, fCfg, format, locate, ← fStep_cached nv12]
  | covert offset stack dst => simp only [FrameCall.run, bsCovertCfg, cacheBase1_idem]

/-- The locals behind a box of an NV12 frame. -/
theorem place_nv12 (nv12 : src.format = .nv12) {l : PLocals} (carried : l.Carried src)
    (box : BoxInfo) : (l.place box).src = src.cacheBase1 ∧
      (l.place box).srcBaseUv + (l.place box).offsetUv =
        src.cacheBase1.base1 + chromaOffset src.lineStride box := by
  have planes : BsDataFormat.nv12.isRgb = false := by decide
  rw [carried.place ⟨0, 0, 0⟩]
  simp [PLocals.place, PLocals.start, nv12, planes, chromaOffset]

/-- The addresses of an affine or a perspective call, and what it leaves in the descriptor. -/
theorem pProcess_chroma (nv12 : src.format = .nv12) (parms : Vector Float32 9 → CoefParms)
    (stride : DataInfo → Int32) (offset : UInt32 × UInt32) (stack : Stack) (items : List PBox) :
    (pProcess parms stride offset stack src items).nodes.map AipPChainnode.srcBaseUv =
        items.map (fun item => src.cacheBase1.base1 + chromaOffset src.lineStride item.1.box) ∧
      (pProcess parms stride offset stack src items).src =
        if items = [] then src else src.cacheBase1 := by
  have turn : ∀ l (item : PBox), l.Carried src →
      (pStep parms stride offset l item).2.Carried src :=
    fun l item carried => carried.turn item.1.box item.2
  constructor
  · have each : ∀ item ∈ items, ∀ l, PLocals.Carried src l →
        (pStep parms stride offset l item).1.srcBaseUv =
            src.cacheBase1.base1 + chromaOffset src.lineStride item.1.box ∧
          (pStep parms stride offset l item).2.Carried src :=
      fun item _ l carried => ⟨(place_nv12 nv12 carried item.1.box).2, turn l item carried⟩
    exact (Loop.run_map each (.start stack)).1
  · cases items with
    | nil => rfl
    | cons first rest =>
      exact Loop.run_last PLocals.src (fun _ => src.cacheBase1)
        (fun l item carried => ⟨(place_nv12 nv12 carried item.1.box).1, turn l item carried⟩)
        (PLocals.Carried.start stack) first rest

/-- The addresses of a resize, and what it leaves in the descriptor. -/
theorem resizeProcess_chroma (nv12 : src.format = .nv12) (stack : Stack) (items : List FBox) :
    (resizeProcess stack src items).nodes.map AipFChainnode.srcBaseUv =
        items.map (fun item => src.cacheBase1.base1 + chromaOffset src.lineStride item.1.box) ∧
      (resizeProcess stack src items).src = if items = [] then src else src.cacheBase1 := by
  have planes : BsDataFormat.nv12.isRgb = false := by decide
  have first_box (item : FBox) : (fStep (.start src) item).1.srcBaseUv =
      src.cacheBase1.base1 + chromaOffset src.lineStride item.1.box := by
    simp [fStep, FLocals.place, FLocals.start, nv12, planes, chromaOffset]
  constructor
  · simp only [resizeProcess, fRun_nodes, List.map_map, Function.comp_def, first_box]
  · cases items with
    | nil => rfl
    | cons first rest =>
      refine Loop.run_last FLocals.src (fun _ => src.cacheBase1) ?_ FLocals.Carried.start first rest
      intro l item carried
      refine ⟨?_, carried.turn⟩
      rw [fStep_eq carried]
      simp [fStep, FLocals.place, FLocals.start, nv12, planes]

/-- Every node of a call starts at its place in the plane that the descriptor has, cached or not. -/
theorem run_chroma (nv12 : src.format = .nv12) (call : FrameCall) :
    (call.run src).1.1.srcBaseUv =
      (call.places src.lineStride).map (src.cacheBase1.base1 + ·) := by
  cases call with
  | affine offset stack items =>
    simp only [FrameCall.places, List.map_map, Function.comp_def]
    exact (pProcess_chroma nv12 affineParms _ offset stack items).1
  | perspective offset stack items =>
    simp only [FrameCall.places, List.map_map, Function.comp_def]
    exact (pProcess_chroma nv12 perspectiveParms _ offset stack items).1
  | resize stack items =>
    simp only [FrameCall.places, List.map_map, Function.comp_def]
    exact (resizeProcess_chroma nv12 stack items).1
  | covert offset stack dst =>
    simp [FrameCall.run, FrameCall.places, Nodes.srcBaseUv, bsCovertCfg]

/-- A call with nodes leaves the chroma plane in the descriptor, and nothing else. -/
theorem run_src (nv12 : src.format = .nv12) (call : FrameCall) :
    (call.run src).2 = if call.places src.lineStride = [] then src else src.cacheBase1 := by
  cases call with
  | affine offset stack items =>
    simp only [FrameCall.places, List.map_eq_nil_iff]
    exact (pProcess_chroma nv12 affineParms _ offset stack items).2
  | perspective offset stack items =>
    simp only [FrameCall.places, List.map_eq_nil_iff]
    exact (pProcess_chroma nv12 perspectiveParms _ offset stack items).2
  | resize stack items =>
    simp only [FrameCall.places, List.map_eq_nil_iff]
    exact (resizeProcess_chroma nv12 stack items).2
  | covert offset stack dst => rfl

end Call

section Frames

/-- The descriptor with the address of a frame and a cached chroma plane, 0 for none. -/
def DataInfo.holding (src : DataInfo) (base cached : UInt32) : DataInfo :=
  { src with base := base, base1 := cached }

/-- What is cached is the frame's own plane, unless the call has no nodes. -/
def Fits (src : DataInfo) (cached : UInt32) (frame : Frame) : Prop :=
  frame.2.places src.lineStride ≠ [] → cached ≠ 0 → src.plane frame.1 = cached

/-- The chroma plane behind the cache. -/
theorem holding_base1 (base cached : UInt32) : (src.holding base cached).cacheBase1.base1 =
    if cached = 0 then src.plane base else cached := by
  unfold DataInfo.cacheBase1 DataInfo.holding DataInfo.plane
  split <;> rfl

/-- A frame leaves its plane in the cache when nothing was there and the call has nodes. -/
theorem useFrame_src (nv12 : src.format = .nv12) (base cached : UInt32) (frame : Frame) :
    (useFrame (src.holding base cached) frame).2 = src.holding frame.1
      (if frame.2.places src.lineStride ≠ [] ∧ cached = 0 then src.plane frame.1 else cached) := by
  have run := @run_src (src.holding frame.1 cached) nv12 frame.2
  refine Eq.trans run ?_
  by_cases empty : frame.2.places src.lineStride = []
  · have same : frame.2.places (src.holding frame.1 cached).lineStride = [] := empty
    simp [empty, same]
  · have same : frame.2.places (src.holding frame.1 cached).lineStride ≠ [] := empty
    rw [if_neg same]
    by_cases none : cached = 0
    · simp [empty, none, DataInfo.cacheBase1, DataInfo.holding, DataInfo.plane]
    · simp [empty, none, DataInfo.cacheBase1, DataInfo.holding]

/-- The nodes of a frame use its own plane exactly when it fits what is cached. -/
theorem useFrame_own_iff (nv12 : src.format = .nv12) (base cached : UInt32) (frame : Frame) :
    (useFrame (src.holding base cached) frame).1.1.srcBaseUv =
        (frame.2.places src.lineStride).map (src.plane frame.1 + ·) ↔ Fits src cached frame := by
  have run := @run_chroma (src.holding frame.1 cached) nv12 frame.2
  have chroma : (useFrame (src.holding base cached) frame).1.1.srcBaseUv = _ := run
  have line : (src.holding frame.1 cached).lineStride = src.lineStride := rfl
  rw [chroma, holding_base1, line]
  unfold Fits
  cases frame.2.places src.lineStride with
  | nil => simp
  | cons place places =>
    by_cases none : cached = 0
    · simp [none]
    · -- The first place tells the two planes apart.
      simp only [if_neg none, List.map_cons, List.cons.injEq, UInt32.add_left_inj]
      constructor
      · intro same _ _
        exact same.1.symm
      · intro fits
        rw [fits (by simp) none]
        exact ⟨rfl, rfl⟩

/-- The results of a call without nodes do not depend on the cache. -/
theorem run_empty {call : FrameCall} (empty : call.places src.lineStride = [])
    (base cached other : UInt32) :
    (call.run (src.holding base cached)).1 = (call.run (src.holding base other)).1 := by
  cases call with
  | affine offset stack items =>
    rw [List.map_eq_nil_iff.mp empty]
    rfl
  | perspective offset stack items =>
    rw [List.map_eq_nil_iff.mp empty]
    rfl
  | resize stack items =>
    rw [List.map_eq_nil_iff.mp empty]
    rfl
  | covert offset stack dst => cases empty

/-- The results of a frame are those with a fresh descriptor exactly when it fits the cache. -/
theorem useFrame_fresh_iff (nv12 : src.format = .nv12) (implied : src.base1 = 0)
    (base cached : UInt32) (frame : Frame) :
    (useFrame (src.holding base cached) frame).1 = (useFrame src frame).1 ↔
      Fits src cached frame := by
  have fresh : src = src.holding src.base 0 := by rw [DataInfo.holding, ← implied]
  constructor
  · intro same
    rw [← useFrame_own_iff nv12 base cached, same, fresh]
    -- A fresh descriptor has nothing cached that a frame would not fit.
    have own := useFrame_own_iff nv12 src.base 0 frame
    exact own.mpr fun _ none => (none rfl).elim
  · intro fits
    rw [fresh]
    by_cases empty : frame.2.places src.lineStride = []
    · exact run_empty empty frame.1 cached 0
    · have held : (src.holding frame.1 cached).cacheBase1 = (src.holding frame.1 0).cacheBase1 := by
        by_cases none : cached = 0
        · rw [none]
        · have kept : (src.holding frame.1 cached).cacheBase1 = src.holding frame.1 cached :=
            if_neg none
          have set : (src.holding frame.1 0).cacheBase1 =
              src.holding frame.1 (src.plane frame.1) := if_pos rfl
          rw [kept, set, fits empty none]
      have here := @run_cached (src.holding frame.1 cached) nv12 frame.2
      have alone := @run_cached (src.holding frame.1 0) nv12 frame.2
      rw [held] at here
      exact here.trans alone.symm

/-- Two frames have one plane exactly when they have one address. -/
theorem plane_inj {one two : UInt32} : src.plane one = src.plane two ↔ one = two := by
  simp [DataInfo.plane]

/-- A frame fits the plane of an earlier one exactly when it keeps its address. -/
theorem fits_plane_iff {earlier later : Frame} (nodes : earlier.2.places src.lineStride ≠ []) :
    Fits src (src.plane earlier.1) later ↔ KeepsBase src earlier later := by
  unfold Fits KeepsBase
  constructor
  · intro fits _ cached laterNodes
    exact plane_inj.mp (fits laterNodes cached)
  · intro keeps laterNodes cached
    exact plane_inj.mpr (keeps nodes cached laterNodes)

/-- Two frames that fit one cached plane have one address. -/
theorem Fits.keepsBase {earlier later : Frame} {cached : UInt32} (held : cached ≠ 0)
    (one : Fits src cached earlier) (two : Fits src cached later) : KeepsBase src earlier later := by
  intro nodes _ laterNodes
  exact plane_inj.mp ((two laterNodes held).trans (one nodes held).symm)

/--
A view of the results that is as it should be exactly for frames that fit is so for a whole sequence
exactly when no later frame moves away from a cached plane.
-/
theorem run_iff {View : Type} (view : Nodes × UInt32 → View) {right : Frame → View}
    (nv12 : src.format = .nv12)
    (one : ∀ base cached frame,
      view (useFrame (src.holding base cached) frame).1 = right frame ↔ Fits src cached frame)
    (base cached : UInt32) (frames : List Frame) :
    (Loop.run useFrame (src.holding base cached) frames).1.map view = frames.map right ↔
      (∀ frame ∈ frames, Fits src cached frame) ∧ frames.Pairwise (KeepsBase src) := by
  -- By induction on the sequence, for whatever the cache holds before it.
  induction frames generalizing base cached with
  | nil => simp [Loop.run]
  | cons frame frames ih =>
    simp only [Loop.run, List.map_cons, List.cons.injEq, useFrame_src nv12, ih, one,
      List.forall_mem_cons, List.pairwise_cons]
    by_cases nodes : frame.2.places src.lineStride ≠ []
    · by_cases none : cached = 0
      · -- The frame's own plane is cached, which the later ones have to fit.
        have free : ∀ later, Fits src cached later := fun _ _ held => (held none).elim
        simp only [if_pos (And.intro nodes none), fits_plane_iff nodes, free, true_and,
          implies_true]
      · -- The plane of a frame before the sequence stays.
        rw [if_neg fun both => none both.2]
        constructor
        · rintro ⟨here, each, apart⟩
          exact ⟨⟨here, each⟩, fun later member => here.keepsBase none (each later member), apart⟩
        · rintro ⟨⟨here, each⟩, _, apart⟩
          exact ⟨here, each, apart⟩
    · -- A call without nodes leaves the cache alone.
      have free : ∀ later, KeepsBase src frame later := fun _ has => (nodes has).elim
      rw [if_neg fun both => nodes both.1]
      simp only [free, implies_true, true_and, and_assoc]

end Frames

/--
For an NV12 descriptor with an implied chroma plane, every call of a sequence uses the plane of its
own frame, and every call has the results that it has with a fresh descriptor, exactly when no later
frame has another address than one whose plane is cached.
-/
theorem reuse_iff (nv12 : src.format = .nv12) (implied : src.base1 = 0) (frames : List Frame) :
    (OwnPlane src frames ↔ frames.Pairwise (KeepsBase src)) ∧
      (Undisturbed src frames ↔ frames.Pairwise (KeepsBase src)) := by
  have fresh : src = src.holding src.base 0 := by rw [DataInfo.holding, ← implied]
  have start : ∀ frame ∈ frames, Fits src 0 frame := fun _ _ _ none => (none rfl).elim
  constructor
  · have whole := run_iff (fun result => result.1.srcBaseUv) nv12
      (useFrame_own_iff nv12) src.base 0 frames
    rw [← fresh] at whole
    exact whole.trans (and_iff_right start)
  · have whole := run_iff id nv12 (useFrame_fresh_iff nv12 implied) src.base 0 frames
    rw [← fresh, List.map_id] at whole
    exact whole.trans (and_iff_right start)

/-- A frame of 16 lines with 16 bytes each, with an implied chroma plane. -/
def nv12Frame : DataInfo :=
  { base := 0, base1 := 0, format := .nv12, width := 16, height := 16, lineStride := 16,
    locate := .nmem }

/-- Its conversion from an address. -/
def convertFrom (base : UInt32) : Frame := (base, .covert (0, 0) ⟨0, 0, 0⟩ (picture 64 .nmem))

/-- Two conversions of one buffer use its chroma plane. -/
theorem reuse_iff_convert : OwnPlane nv12Frame [convertFrom 0x1000, convertFrom 0x1000] ∧
    Undisturbed nv12Frame [convertFrom 0x1000, convertFrom 0x1000] := by
  have same : [convertFrom 0x1000, convertFrom 0x1000].Pairwise (KeepsBase nv12Frame) :=
    List.pairwise_pair.mpr fun _ _ _ => rfl
  have both := @reuse_iff nv12Frame rfl rfl [convertFrom 0x1000, convertFrom 0x1000]
  exact ⟨both.1.mpr same, both.2.mpr same⟩

/-- Of two buffers in turn the second is converted with the chroma plane of the first. -/
theorem reuse_moved : ¬OwnPlane nv12Frame [convertFrom 0x1000, convertFrom 0x2000] := by
  unfold OwnPlane
  decide

end Aip.Ingenic
