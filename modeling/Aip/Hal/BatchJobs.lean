import Aip.Hal.Programming

/-! What a unit runs for a list of boxes, against what it runs for each of them alone. -/

namespace Aip.Ingenic

namespace ChainUnit

/-- Two jobs that differ in how the unit is steered at most, the mask of an interrupt included. -/
structure Alike {Node : Type} (unit : ChainUnit Node) (chain alone : Registers) : Prop where
  others : ∀ reg ∉ unit.steering, chain reg = alone reg
  flags : chain unit.cfg.toNat ||| 0x18 = alone unit.cfg.toNat ||| 0x18

/--
The unit runs each box of a list as it runs it in a call of its own.

Both calls find the same registers, and the locals that have no initialiser may hold anything.
-/
def RunsAlone {Box Node : Type} (unit : ChainUnit Node) (params : List (UInt32 × UInt32))
    (process : Stack → DataInfo → List (Box × DataInfo) → Built Node) (src : DataInfo)
    (items : List (Box × DataInfo)) : Prop :=
  ∀ (regs : Registers) (mem memAlone : WordMemory) (paddr paddrAlone : UInt32) (stack alone : Stack),
    (regs unit.ctrl.toNat).testBit 2 = false →
    ∃ jobs, unit.call mem regs params (process stack src items).nodes (process stack src items).cfg
        paddr = some jobs ∧ jobs.length = items.length ∧
      ∀ (i : Nat) (item : Box × DataInfo), items[i]? = some item → ∃ chain single,
        jobs[i]? = some chain ∧
        unit.call memAlone regs params (process alone src [item]).nodes
          (process alone src [item]).cfg paddrAlone = some [single] ∧ unit.Alike chain single

section Compare

variable {Node : Type} {unit : ChainUnit Node} {registers : List Nat} {regs before single : Registers}
  {params : List (UInt32 × UInt32)} {node other : Node} {cfg cfgAlone : UInt32}

theorem asNat_inj {one two : List (UInt32 × UInt32)} : asNat one = asNat two ↔ one = two := by
  refine ⟨fun same => ?_, congrArg asNat⟩
  refine List.map_injective_iff.mpr (fun pair next alike => ?_) same
  simp only [Prod.mk.injEq, UInt32.toNat_inj] at alike
  exact Prod.ext alike.1 alike.2

/-- A job of a chain is like one of its own exactly when its node and its flags are the same. -/
theorem Lawful.alike_iff (lawful : unit.Lawful registers) (once : registers.Nodup)
    (flags : before unit.cfg.toNat = (cfg ||| 0x0c).toNat)
    (others : ∀ reg ∉ unit.steering, before reg = Paint.paint regs (asNat params) reg)
    (flagsAlone : single unit.cfg.toNat = (cfgAlone ||| 0x14).toNat)
    (othersAlone : ∀ reg ∉ unit.steering, single reg =
      Paint.paint (Paint.paint regs (asNat params)) (asNat (unit.nodeWrites other)) reg) :
    unit.Alike (Paint.paint before (unit.jobWrites node)) single ↔
      unit.settings node = unit.settings other ∧ cfg ||| 0x1c = cfgAlone ||| 0x1c := by
  obtain ⟨ctrlCfg, _⟩ := lawful.steering_ne
  have steers : unit.cfg.toNat ∈ unit.steering := by simp [steering]
  -- The configuration is not a register of a node.
  have cfgKept : Paint.paint before (unit.jobWrites node) unit.cfg.toNat = (cfg ||| 0x0c).toNat := by
    rw [jobWrites, Paint.paint_append]
    change Function.update _ unit.ctrl.toNat 1 unit.cfg.toNat = _
    rw [Function.update_of_ne ctrlCfg.symm, lawful.paint_steering steers, flags]
  have shown : ∀ reg ∉ unit.steering, Paint.paint before (unit.jobWrites node) reg =
      Paint.paint (Paint.paint regs (asNat params)) (asNat (unit.nodeWrites node)) reg := by
    intro reg away
    have ctrl : reg ≠ unit.ctrl.toNat := fun same => away (by simp [same, steering])
    rw [jobWrites, Paint.paint_append]
    change Function.update _ unit.ctrl.toNat 1 reg = _
    rw [Function.update_of_ne ctrl]
    by_cases sets : reg ∈ (asNat (unit.nodeWrites node)).map Prod.fst
    · exact Paint.paint_reached _ sets
    · have apart : ∀ store ∈ asNat (unit.nodeWrites node), store.1 ≠ reg := fun store member same =>
        sets (List.mem_map.mpr ⟨store, member, same⟩)
      rw [Paint.paint_untouched apart, Paint.paint_untouched apart, others reg away]
  have words : ∀ word low : UInt32, (word ||| low).toNat ||| 0x18 = (word ||| (low ||| 0x18)).toNat := by
    intro word low
    rw [← UInt32.or_assoc, UInt32.toNat_or (word ||| low)]
    rfl
  constructor
  · intro alike
    refine ⟨?_, ?_⟩
    · have same : asNat (unit.nodeWrites node) = asNat (unit.nodeWrites other) := by
        refine Paint.paint_inj (Paint.paint regs (asNat params)) ?_ ?_ fun reg sets => ?_
        · rw [lawful.sets, lawful.sets]
        · rw [lawful.sets]
          exact once
        · rw [lawful.sets] at sets
          have away := lawful.apart reg sets
          rw [← shown reg away, alike.others reg away, othersAlone reg away]
      exact (List.cons.inj (asNat_inj.mp same)).2
    · have same := alike.flags
      rw [cfgKept, flagsAlone, words, words] at same
      exact UInt32.toNat_inj.mp same
  · rintro ⟨same, flagsSame⟩
    refine ⟨fun reg away => ?_, ?_⟩
    · rw [shown reg away, othersAlone reg away, nodeWrites, nodeWrites, same]
    · rw [cfgKept, flagsAlone, words, words]
      exact congrArg UInt32.toNat flagsSame

end Compare

section Lists

variable {Box Node : Type} {unit : ChainUnit Node} {registers : List Nat}
  {params : List (UInt32 × UInt32)} {src : DataInfo} {items : List (Box × DataInfo)}

/-- What the three functions that make nodes have in common. -/
structure Feeds (unit : ChainUnit Node)
    (process : Stack → DataInfo → List (Box × DataInfo) → Built Node) (src : DataInfo) : Prop where
  length : ∀ stack items, (process stack src items).nodes.length = items.length
  told : ∀ stack alone items others, ∀ node ∈ (process stack src items).nodes,
    ∀ other ∈ (process alone src others).nodes,
      unit.settings node = unit.settings other → node = other
  flags : ∀ stack (item : Box × DataInfo) items, (process stack src (item :: items)).cfg &&& 0x1c = 0

/-- Words without the bits of a mask are told apart with the mask. -/
theorem or_inj {one two mask : UInt32} (first : one &&& mask = 0) (second : two &&& mask = 0) :
    one ||| mask = two ||| mask ↔ one = two := by
  refine ⟨fun same => ?_, fun same => by rw [same]⟩
  have bits : ∀ word : UInt32, word &&& mask = 0 → (word ||| mask) &&& ~~~mask = word := by
    intro word apart
    refine UInt32.toBitVec_inj.mp (BitVec.eq_of_getLsbD_eq fun i inside => ?_)
    have bit := congrArg (fun word : UInt32 => word.toBitVec.getLsbD i) apart
    simp only [UInt32.toBitVec_and, UInt32.toBitVec_or, UInt32.toBitVec_not, BitVec.getLsbD_and,
      BitVec.getLsbD_or, BitVec.getLsbD_not, inside] at bit ⊢
    cases own : word.toBitVec.getLsbD i <;> simp [own] at bit ⊢
    exact bit
  rw [← bits one first, ← bits two second, same]

/-- What a call runs, against the calls of its boxes. -/
theorem Lawful.compare (lawful : unit.Lawful registers) (once : registers.Nodup)
    (spares : unit.Spares params) {process : Stack → DataInfo → List (Box × DataInfo) → Built Node}
    (feeds : unit.Feeds process src) (several : 2 ≤ items.length)
    (small : unit.chaindesc * items.length < 2 ^ 32) (regs : Registers) (mem memAlone : WordMemory)
    (paddr paddrAlone : UInt32) (stack alone : Stack)
    (idle : (regs unit.ctrl.toNat).testBit 2 = false) :
    ∃ jobs, unit.call mem regs params (process stack src items).nodes (process stack src items).cfg
        paddr = some jobs ∧ jobs.length = items.length ∧
      ∀ (i : Nat) (item : Box × DataInfo), items[i]? = some item → ∃ chain single,
        jobs[i]? = some chain ∧
        unit.call memAlone regs params (process alone src [item]).nodes
          (process alone src [item]).cfg paddrAlone = some [single] ∧
        (unit.Alike chain single ↔
          (process stack src items).nodes[i]? = (process alone src [item]).nodes[0]? ∧
            (process stack src items).cfg = (process alone src [item]).cfg) := by
  have count := feeds.length stack items
  obtain ⟨before, called, flags, others⟩ := lawful.call_several (by rw [count]; exact several)
    (by rw [count]; exact small) regs mem params (process stack src items).cfg paddr
  refine ⟨_, called, by rw [List.length_map, count], fun i item found => ?_⟩
  have member := List.mem_of_getElem? found
  have below : i < (process stack src items).nodes.length := by
    rw [count]
    exact (List.getElem?_eq_some_iff.mp found).1
  -- A call of one box has one node, and one job.
  obtain ⟨other, only⟩ := List.length_eq_one_iff.mp (feeds.length alone [item])
  obtain ⟨single, calledAlone, flagsAlone, othersAlone⟩ := lawful.call_one spares idle memAlone
    (process alone src [item]).cfg paddrAlone other
  have node := List.getElem?_eq_getElem below
  refine ⟨_, single, by rw [List.getElem?_map, node]; rfl, by rw [only]; exact calledAlone, ?_⟩
  rw [lawful.alike_iff once flags others flagsAlone othersAlone, node, only]
  have nodes : unit.settings (process stack src items).nodes[i] = unit.settings other ↔
      some (process stack src items).nodes[i] = [other][0]? := by
    rw [List.getElem?_cons_zero, Option.some.injEq]
    refine ⟨fun same => ?_, congrArg unit.settings⟩
    refine feeds.told stack alone items [item] _ (List.getElem_mem below) other ?_ same
    rw [only]
    exact List.mem_singleton_self other
  have cfgs : (process stack src items).cfg ||| 0x1c = (process alone src [item]).cfg ||| 0x1c ↔
      (process stack src items).cfg = (process alone src [item]).cfg := by
    obtain ⟨first, rest, rfl⟩ := List.exists_cons_of_ne_nil (List.ne_nil_of_mem member)
    exact or_inj (feeds.flags stack first rest) (feeds.flags alone item [])
  rw [nodes, cfgs]

/-- The unit runs a list box by box exactly when the list is processed box by box. -/
theorem Lawful.runsAlone_iff (lawful : unit.Lawful registers) (once : registers.Nodup)
    (spares : unit.Spares params) {process : Stack → DataInfo → List (Box × DataInfo) → Built Node}
    (feeds : unit.Feeds process src) (several : 2 ≤ items.length)
    (small : unit.chaindesc * items.length < 2 ^ 32) :
    unit.RunsAlone params process src items ↔ IsMap process src items := by
  have compare := lawful.compare once spares feeds several small
  constructor
  · intro runs i item found stack alone
    -- Any registers tell the nodes apart.
    let zero : Nat → Nat := fun _ => 0
    obtain ⟨jobs, called, _, each⟩ := compare zero zero zero 0 0 stack alone (by decide)
    obtain ⟨chain, single, here, calledAlone, alike⟩ := each i item found
    obtain ⟨jobs', called', _, each'⟩ := runs zero zero zero 0 0 stack alone (by decide)
    obtain ⟨chain', single', here', calledAlone', alike'⟩ := each' i item found
    obtain rfl := Option.some.inj (called.symm.trans called')
    obtain rfl := Option.some.inj (here.symm.trans here')
    obtain rfl := List.head_eq_of_cons_eq (Option.some.inj (calledAlone.symm.trans calledAlone'))
    exact alike.mp alike'
  · intro map regs mem memAlone paddr paddrAlone stack alone idle
    obtain ⟨jobs, called, length, each⟩ := compare regs mem memAlone paddr paddrAlone stack alone idle
    refine ⟨jobs, called, length, fun i item found => ?_⟩
    obtain ⟨chain, single, here, calledAlone, alike⟩ := each i item found
    exact ⟨chain, single, here, calledAlone, alike.mpr (map i item found stack alone)⟩

end Lists

section Units

/-- The registers of a perspective node, from the timeout on, with the offset behind the parameters. -/
def pRegisters : List Nat := (List.range 25).map (fun k => 0x30c + 4 * k) ++ [0x394]

/-- The registers of a resize node. -/
def fRegisters : List Nat := (List.range 12).map fun k => 0x20c + 4 * k

theorem pUnit_lawful (chip : Chip) : (pUnit chip).Lawful pRegisters where
  sets _ := rfl
  sizeof := rfl
  inside := by cases chip <;> decide
  apart := by cases chip <;> decide
  distinct := by cases chip <;> decide

theorem fUnit_lawful : fUnit.Lawful fRegisters where
  sets _ := rfl
  sizeof := rfl
  inside := by decide
  apart := by decide
  distinct := by decide

/-- The parameters of the conversion lie behind the coefficients. -/
theorem pUnit_spares (chip : Chip) (nv2rgbParm : Fin 9 → UInt32) :
    (pUnit chip).Spares (aipPParams nv2rgbParm) := by
  have registers : (asNat (aipPParams nv2rgbParm)).map Prod.fst =
      (List.range 9).map fun k => 0x370 + 4 * k := rfl
  intro store member
  have listed : store.1 ∈ (List.range 9).map fun k => 0x370 + 4 * k := by
    rw [← registers]
    exact List.mem_map_of_mem member
  revert listed
  generalize store.1 = reg
  cases chip <;> revert reg <;> decide

/-- The halves of a word are told apart by the word. -/
theorem halves_inj {a b c d : UInt16} : halves a b = halves c d ↔ a = c ∧ b = d := by
  refine ⟨fun same => ?_, fun same => by rw [same.1, same.2]⟩
  have number := congrArg UInt32.toNat same
  rw [halves_toNat, halves_toNat] at number
  have below := b.toNat_lt
  have below' := d.toNat_lt
  exact ⟨UInt16.toNat_inj.mp (by omega), UInt16.toNat_inj.mp (by omega)⟩

theorem words_inj {one two : CoefParms} (same : one.words = two.words) : one = two := by
  obtain ⟨⟨_, _, _, _, _⟩, ⟨_, _, _, _, _⟩, ⟨_, _, _, _, _⟩⟩ := one
  obtain ⟨⟨_, _, _, _, _⟩, ⟨_, _, _, _, _⟩, ⟨_, _, _, _, _⟩⟩ := two
  simpa [CoefParms.words, and_assoc] using same

/-- A perspective node is told by what it sets, but for a field that nothing reads. -/
theorem pNode_inj {node other : AipPChainnode} (same : node.settings = other.settings)
    (ctrl : node.pCtrl = other.pCtrl) : node = other := by
  rw [AipPChainnode.settings, AipPChainnode.settings] at same
  obtain ⟨front, last⟩ := List.append_inj' same (by simp only [List.length_singleton])
  obtain ⟨places, coefs⟩ := List.append_inj front (by simp only [List.length_cons])
  have parms : node.coefParm = other.coefParm := by
    refine words_inj ?_
    have values := congrArg (List.map Prod.snd) coefs
    rw [List.map_map, List.map_map] at values
    have whole : ∀ words : List UInt32, words.zipIdx.map (Prod.snd ∘ fun coef => (aipPCoef coef.2, coef.1)) =
        words := fun words => List.zipIdx_map_fst 0 words
    rwa [whole, whole] at values
  simp only [List.cons.injEq, Prod.mk.injEq, true_and, and_true, halves_inj] at places last
  obtain ⟨mode, srcBaseY, srcBaseUv, srcStride, dstBase, dstStride, dst, size, dummyVal⟩ := places
  cases node
  cases other
  simp only [AipPChainnode.mk.injEq]
  exact ⟨mode, srcBaseY, srcBaseUv, srcStride, dstBase, dstStride, dst.2, dst.1, size.2, size.1,
    dummyVal, parms, last, ctrl⟩

/-- A resize node is told by what it sets. -/
theorem fNode_inj {node other : AipFChainnode} (same : node.settings = other.settings)
    (ctrl : node.fCtrl = other.fCtrl) : node = other := by
  simp only [AipFChainnode.settings, List.cons.injEq, Prod.mk.injEq, true_and, and_true,
    halves_inj] at same
  obtain ⟨scaleX, scaleY, transX, transY, srcBaseY, srcBaseUv, dstBaseY, dstBaseUv, size, dst,
    stride⟩ := same
  -- The translations are moved by the same amount.
  have around : ∀ one two : Int32, (one + 16).toUInt32 = (two + 16).toUInt32 → one = two :=
    fun one two moved => (Int32.add_left_inj 16).mp (toUInt32_inj.mp moved)
  cases node
  cases other
  simp only [AipFChainnode.mk.injEq]
  exact ⟨scaleX, scaleY, around _ _ transX, around _ _ transY, srcBaseY, srcBaseUv, dstBaseY,
    dstBaseUv, size.2, size.1, dst.2, dst.1, stride.1, stride.2, ctrl⟩

/-- A bus configuration has none of the flags. -/
theorem bus_flags (dst src : BsDataLocate) : (dst.bus <<< 1 ||| src.bus) &&& 0x1c = 0 := by
  cases dst <;> cases src <;> decide

section Feeding

variable {parms : Vector Float32 9 → CoefParms} {offset : UInt32 × UInt32} {src : DataInfo}

/-- The affine and the perspective function leave a field of their nodes at zero. -/
theorem pProcess_ctrl {stride : DataInfo → Int32} {stack : Stack} {items : List PBox}
    {node : AipPChainnode} (member : node ∈ (pProcess parms stride offset stack src items).nodes) :
    node.pCtrl = 0 := by
  obtain ⟨l, item, _, rfl⟩ := Loop.mem_run member
  rfl

/-- So does the resize function. -/
theorem resizeProcess_ctrl {stack : Stack} {items : List FBox} {node : AipFChainnode}
    (member : node ∈ (resizeProcess stack src items).nodes) : node.fCtrl = 0 := by
  obtain ⟨l, item, _, rfl⟩ := Loop.mem_run member
  rfl

/-- A function that makes perspective nodes, with lines of its own choice, feeds the unit. -/
theorem pProcess_feeds (chip : Chip) (stride : List PBox → DataInfo → Int32) :
    (pUnit chip).Feeds (fun stack src items => pProcess parms (stride items) offset stack src items)
      src where
  length _ _ := Loop.run_length
  told _ _ _ _ _ member _ listed same :=
    pNode_inj same ((pProcess_ctrl member).trans (pProcess_ctrl listed).symm)
  flags stack item items := by
    rw [pProcess_cfg]
    exact bus_flags _ _

/-- The format of a resize lies above the flags. -/
theorem format_flags (format : UInt32) {bus : UInt32} (apart : bus &&& 0x1c = 0) :
    (format <<< 7 ||| bus) &&& 0x1c = 0 := by
  have number := congrArg UInt32.toNat apart
  refine UInt32.toNat_inj.mp ?_
  rw [UInt32.toNat_and] at number
  rw [UInt32.toNat_and, UInt32.toNat_or, UInt32.toNat_shiftLeft]
  refine Nat.eq_of_testBit_eq fun i => ?_
  have bit := congrArg (fun word : Nat => word.testBit i) number
  simp only [Nat.testBit_and, Nat.testBit_or, Nat.testBit_mod_two_pow, Nat.testBit_shiftLeft] at bit ⊢
  by_cases low : i < 7
  · have shifted : ¬ (7 : UInt32).toNat % 32 ≤ i := by
      rw [show (7 : UInt32).toNat % 32 = 7 from rfl]
      omega
    rw [decide_eq_false shifted, Bool.false_and, Bool.and_false, Bool.false_or]
    exact bit
  · -- The flags end below the format.
    have high : Nat.testBit (0x1c : UInt32).toNat i = false := by
      apply Nat.testBit_lt_two_pow
      exact Nat.lt_of_lt_of_le (show 0x1c < 2 ^ 7 by decide)
        (Nat.pow_le_pow_right (by decide) (Nat.le_of_not_lt low))
    rw [high, Bool.and_false]
    exact (Nat.zero_testBit i).symm

/-- The resize function of T41 feeds its unit. -/
theorem resizeProcess_feeds : fUnit.Feeds resizeProcess src where
  length _ _ := Loop.run_length
  told _ _ _ _ _ member _ listed same :=
    fNode_inj same ((resizeProcess_ctrl member).trans (resizeProcess_ctrl listed).symm)
  flags _ item _ := format_flags _ (bus_flags item.2.locate src.locate)

end Feeding

end Units

/-- Lists of several boxes, whose chains have a size of 32 bits. -/
def Several {Box Node : Type} (unit : ChainUnit Node) (items : List (Box × DataInfo)) : Prop :=
  2 ≤ items.length ∧ unit.chaindesc * items.length < 2 ^ 32

/--
The units run the boxes of a list, in a chain, as they run each of them in a call of its own: an affine
or a perspective call exactly when its words are determined and its destinations are behind one bus,
and those of a perspective call have lines of one length, and a resize exactly when its source has a
format and the destinations are behind one bus. The libraries of T41 and A1 share the first two.
-/
theorem batchJobs_iff (chip : Chip) (nv2rgbParm : Fin 9 → UInt32) (offset : UInt32 × UInt32)
    (src : DataInfo) (first : PBox) (rest : List PBox)
    (several : (pUnit chip).Several (first :: rest)) (one : FBox) (more : List FBox)
    (severalF : fUnit.Several (one :: more)) :
    ((pUnit chip).RunsAlone (aipPParams nv2rgbParm) (affineProcess offset) src (first :: rest) ↔
      (∀ item ∈ first :: rest, Determined offset item.2) ∧ SameBus (first :: rest)) ∧
    ((pUnit chip).RunsAlone (aipPParams nv2rgbParm) (perspectiveProcess offset) src (first :: rest) ↔
      (∀ item ∈ first :: rest, Determined offset item.2 ∧
        item.2.lineStride = first.2.lineStride) ∧ SameBus (first :: rest)) ∧
    (fUnit.RunsAlone [] resizeProcess src (one :: more) ↔
      fDataFormat src.format ≠ none ∧ SameBus (one :: more)) := by
  have once : pRegisters.Nodup ∧ fRegisters.Nodup := by decide
  have spares := pUnit_spares chip nv2rgbParm
  refine ⟨?_, ?_, ?_⟩
  · rw [← affineProcess_isMap_iff]
    exact (pUnit_lawful chip).runsAlone_iff once.1 spares
      (pProcess_feeds chip fun _ => DataInfo.lineStride) several.1 several.2
  · rw [← perspectiveProcess_isMap_iff]
    exact (pUnit_lawful chip).runsAlone_iff once.1 spares (pProcess_feeds chip _) several.1 several.2
  · have plain := @resize_isMap_iff src (fun _ => []) one more
    simp only [List.append_nil] at plain
    rw [← plain]
    exact fUnit_lawful.runsAlone_iff once.2 (fun _ member => absurd member List.not_mem_nil)
      resizeProcess_feeds severalF.1 severalF.2

/-- Two copies of a picture, with lines of two lengths. -/
def corners : List PBox := [(corner, picture 64 .nmem), (corner, picture 128 .nmem)]

/-- An affine call and a resize run two boxes as alone, a perspective call does not. -/
theorem batchJobs_iff_corners :
    (pUnit .t41).RunsAlone (aipPParams fun _ => 0) (affineProcess (0, 0)) (picture 64 .nmem) corners ∧
    ¬ (pUnit .t41).RunsAlone (aipPParams fun _ => 0) (perspectiveProcess (0, 0)) (picture 64 .nmem)
      corners ∧
    fUnit.RunsAlone [] resizeProcess (picture 64 .nmem)
      [(⟨corner.box⟩, picture 64 .nmem), (⟨corner.box⟩, picture 64 .nmem)] := by
  obtain ⟨affine, perspective, resize⟩ := batchJobs_iff .t41 (fun _ => 0) (0, 0) (picture 64 .nmem)
    (corner, picture 64 .nmem) [(corner, picture 128 .nmem)] ⟨by decide, by decide⟩
    (⟨corner.box⟩, picture 64 .nmem) [(⟨corner.box⟩, picture 64 .nmem)] ⟨by decide, by decide⟩
  have bus : SameBus corners := by
    intro a inA b inB
    simp only [corners, List.mem_cons, List.not_mem_nil, or_false] at inA inB
    rcases inA with rfl | rfl <;> rcases inB with rfl | rfl <;> rfl
  refine ⟨affine.mpr ⟨?_, bus⟩, fun runs => ?_, resize.mpr ⟨by decide, ?_⟩⟩
  · intro item member
    simp only [List.mem_cons, List.not_mem_nil, or_false] at member
    rcases member with rfl | rfl
    · exact .inl rfl
    · exact .inl rfl
  · have line := ((perspective.mp runs).1 (corner, picture 128 .nmem) (by simp)).2
    exact absurd line (by decide)
  · intro a inA b inB
    simp only [List.mem_cons, List.not_mem_nil, or_false, or_self] at inA inB
    rw [inA, inB]

section Driver

variable {Node : Type} {unit : ChainUnit Node} {registers : List Nat} {arg : ChainArg} {bo : BoInfo}
  {param : Vector Nat 9} {mem : WordMemory} {nodes : List Node}

/-- A client of the driver has written the values of some nodes, or given them in its call. -/
structure Given (unit : ChainUnit Node) (mem : WordMemory) (arg : ChainArg) (nodes : List Node) :
    Prop where
  count : nodes.length = arg.nodeNum
  values : ∀ i node k pair, nodes[i]? = some node → (asNat (unit.desc node))[k]? = some pair →
    (arg.slot false k).1.getD (mem (arg.paddr + i * arg.sizeof + 8 * k)) = pair.1

/-- The driver and the library name the same registers, in the same order. -/
def Names (unit : ChainUnit Node) (arg : ChainArg) : Prop :=
  ∀ node, (asNat (unit.desc node)).map (fun pair => some pair.2) =
    (List.range (arg.sizeof / 8)).map fun k => (arg.slot false k).2

/-- The registers that a descriptor names. -/
theorem Lawful.named (lawful : unit.Lawful registers) (node : Node) :
    (asNat (unit.desc node)).map (fun pair => some pair.2) =
      (registers.map fun reg => some (unit.iobase.toNat + reg)) ++
        [some (unit.iobase.toNat + unit.ctrl.toNat + 2 ^ 31)] := by
  rw [lawful.desc_eq, List.map_append, List.map_map, ← lawful.sets node, List.map_map]
  rfl

theorem names_f (dat : SubmitF) (name : Nat) : fUnit.Names (.f dat name) := by
  intro node
  have slots : (fun k => ((ChainArg.f dat name).slot false k).2) = fun k =>
      if k = 12 then some (0x12b00200 ||| 0x80000000) else some (0x12b0020c + 4 * k) := by
    funext k
    rw [ChainArg.slot]
    split <;> rfl
  rw [fUnit_lawful.named, slots, show (ChainArg.f dat name).sizeof = 104 from rfl]
  decide

theorem names_p (dat : SubmitArgP) : (pUnit .t41).Names (.p dat) := by
  intro node
  have slots : (fun k => ((ChainArg.p dat).slot false k).2) = fun k =>
      if k = 26 then some (0x12b00300 ||| 0x80000000)
      else if k = 25 then some 0x12b00394 else some (0x12b0030c + 4 * k) := by
    funext k
    rw [ChainArg.slot]
    split
    · rfl
    · split <;> rfl
  rw [(pUnit_lawful .t41).named, slots, show (ChainArg.p dat).sizeof = 216 from rfl]
  decide

/-- A node of the driver has the words of the library's descriptor. -/
theorem Given.nodePairs_eq (given : unit.Given mem arg nodes) (names : unit.Names arg) {i : Nat}
    {node : Node} (found : nodes[i]? = some node) :
    arg.nodePairs false mem i = asNat (unit.desc node) := by
  have length : (asNat (unit.desc node)).length = arg.sizeof / 8 := by
    simpa using congrArg List.length (names node)
  refine List.ext_getElem (by simp [ChainArg.nodePairs, length]) fun k below inside => ?_
  have value := given.values i node k _ found (List.getElem?_eq_getElem inside)
  have named : some (asNat (unit.desc node))[k].2 = (arg.slot false k).2 := by
    have here := List.getElem_of_eq (names node) (by simpa using inside)
    simpa using here
  simp only [ChainArg.nodePairs, ChainArg.isLast, Bool.false_and, Bool.false_eq_true, if_false,
    List.getElem_map, List.getElem_range, value, ← named, Option.getD_some]

/-- The driver's unit reads the library's chain, and runs its jobs. -/
theorem Given.agrees (given : unit.Given mem arg nodes) (lawful : unit.Lawful registers)
    (names : unit.Names arg) (placed : arg.Placed bo) (ctl : Nat) (memLib : WordMemory)
    (paddr : Nat) (regs : Registers) :
    let pairs := arg.fetched (Paint.paint mem (arg.stores false param bo))
      (arg.startWrites false ctl param bo)
    pairs = fetch (Paint.paint memLib (chainStores paddr (nodes.map unit.desc).flatten)) paddr
        (unit.chaindesc * nodes.length) ∧
      chainJobs unit.iobase.toNat regs pairs =
        nodes.map fun node => Paint.paint regs (unit.jobWrites node) := by
  intro pairs
  have read : pairs = asNat (nodes.map unit.desc).flatten := by
    have each : (List.range nodes.length).map (arg.nodePairs false mem) =
        (nodes.map unit.desc).map asNat := by
      refine List.ext_getElem (by simp) fun i below inside => ?_
      have less : i < nodes.length := by simpa using below
      simp only [List.getElem_map, List.getElem_range]
      exact given.nodePairs_eq names (List.getElem?_eq_getElem less)
    rw [show pairs = _ from placed.fetched_eq ctl, ← given.count, List.flatMap_def, each, asNat,
      List.map_flatten]
    rfl
  refine ⟨?_, ?_⟩
  · rw [lawful.size_eq, fetch_chainStores, read]
  · rw [read]
    exact lawful.chainJobs_descs nodes

/--
A client that gives the driver the values of the library's nodes has the unit run the same jobs: from
the client's chain the unit of T41 reads what it reads from the library's, and that is one job for each
node, whatever else the client has written.
-/
theorem driverJobs_agree (bo : BoInfo) (param : Vector Nat 9) (ctl : Nat) (mem memLib : WordMemory)
    (paddr : Nat) (regs : Registers) :
    (∀ dat name nodes, (ChainArg.f dat name).Placed bo → fUnit.Given mem (.f dat name) nodes →
      let pairs := (ChainArg.f dat name).fetched
        (Paint.paint mem ((ChainArg.f dat name).stores false param bo))
        ((ChainArg.f dat name).startWrites false ctl param bo)
      pairs = fetch (Paint.paint memLib (chainStores paddr (nodes.map fUnit.desc).flatten)) paddr
          (fUnit.chaindesc * nodes.length) ∧
        chainJobs fUnit.iobase.toNat regs pairs =
          nodes.map fun node => Paint.paint regs (fUnit.jobWrites node)) ∧
    (∀ dat nodes, (ChainArg.p dat).Placed bo → (pUnit .t41).Given mem (.p dat) nodes →
      let pairs := (ChainArg.p dat).fetched
        (Paint.paint mem ((ChainArg.p dat).stores false param bo))
        ((ChainArg.p dat).startWrites false ctl param bo)
      pairs = fetch (Paint.paint memLib (chainStores paddr (nodes.map (pUnit .t41).desc).flatten))
          paddr ((pUnit .t41).chaindesc * nodes.length) ∧
        chainJobs (pUnit .t41).iobase.toNat regs pairs =
          nodes.map fun node => Paint.paint regs ((pUnit .t41).jobWrites node)) := by
  constructor
  · intro dat name nodes placed given
    exact given.agrees fUnit_lawful (names_f dat name) placed ctl memLib paddr regs
  · intro dat nodes placed given
    exact given.agrees (pUnit_lawful .t41) (names_p dat) placed ctl memLib paddr regs

/-- A resize node all of whose words have all bits set. -/
def onesF : AipFChainnode :=
  { scaleX := 0xffffffff, scaleY := 0xffffffff, transX := -17, transY := -17
    srcBaseY := 0xffffffff, srcBaseUv := 0xffffffff, dstBaseY := 0xffffffff, dstBaseUv := 0xffffffff
    srcWidth := 0xffff, srcHeight := 0xffff, dstWidth := 0xffff, dstHeight := 0xffff
    dstStride := 0xffff, srcStride := 0xffff, fCtrl := 0 }

/-- A perspective node, whose mode and offset the call gives. -/
def onesP : AipPChainnode :=
  let row : Coefficients.Words := ⟨-1, -1, -1, -1, -1⟩
  { mode := 2, srcBaseY := 0xffffffff, srcBaseUv := 0xffffffff, srcStride := 0xffffffff
    dstBase := 0xffffffff, dstStride := 0xffffffff, dstWidth := 0xffff, dstHeight := 0xffff
    srcWidth := 0xffff, srcHeight := 0xffff, dummyVal := 0xffffffff, coefParm := ⟨row, row, row⟩
    offset := 0x01000000, pCtrl := 0 }

/-- Two of each in a page whose bits are all set. -/
theorem driverJobs_agree_ones :
    let page : BoInfo := ⟨0, 1, 4096, 4096⟩
    let full : WordMemory := fun _ => 0xffffffff
    let argF := ChainArg.f ⟨2, 0, 0, 1, 2, 4096⟩ 0
    let argP := ChainArg.p ⟨2, ⟨1, 0, 0, 0⟩, 0, 0, 1, 2, 4096, 0, 0⟩
    chainJobs fUnit.iobase.toNat (fun _ => 0) (argF.fetched
        (Paint.paint full (argF.stores false (.replicate 9 0) page))
        (argF.startWrites false 0 (.replicate 9 0) page)) =
      [onesF, onesF].map (fun node => Paint.paint (fun _ => 0) (fUnit.jobWrites node)) ∧
    chainJobs (pUnit .t41).iobase.toNat (fun _ => 0) (argP.fetched
        (Paint.paint full (argP.stores false (.replicate 9 0) page))
        (argP.startWrites false 0 (.replicate 9 0) page)) =
      [onesP, onesP].map fun node => Paint.paint (fun _ => 0) ((pUnit .t41).jobWrites node) := by
  intro page full argF argP
  have wordsF : ∀ k < 13, (asNat (fUnit.desc onesF))[k]?.map Prod.fst =
      some (((ChainArg.f ⟨2, 0, 0, 1, 2, 4096⟩ 0).slot false k).1.getD 0xffffffff) := by decide
  have givenF : fUnit.Given full argF [onesF, onesF] := by
    refine ⟨rfl, fun i node k pair found here => ?_⟩
    obtain rfl : node = onesF := by simpa using List.mem_of_getElem? found
    have word := wordsF k (List.getElem?_eq_some_iff.mp here).1
    rw [here] at word
    exact (Option.some.inj word).symm
  have wordsP : ∀ k < 27, (asNat ((pUnit .t41).desc onesP))[k]?.map Prod.fst =
      some (((ChainArg.p ⟨2, ⟨1, 0, 0, 0⟩, 0, 0, 1, 2, 4096, 0, 0⟩).slot false k).1.getD
        0xffffffff) := by decide
  have givenP : (pUnit .t41).Given full argP [onesP, onesP] := by
    refine ⟨rfl, fun i node k pair found here => ?_⟩
    obtain rfl : node = onesP := by simpa using List.mem_of_getElem? found
    have word := wordsP k (List.getElem?_eq_some_iff.mp here).1
    rw [here] at word
    exact (Option.some.inj word).symm
  obtain ⟨agreeF, agreeP⟩ := driverJobs_agree page (.replicate 9 0) 0 full (fun _ => 0) 0 fun _ => 0
  constructor
  · exact (agreeF _ _ _ ⟨by decide, ⟨by decide, by decide⟩, by decide, by decide⟩ givenF).2
  · exact (agreeP _ _ ⟨by decide, ⟨by decide, by decide⟩, by decide, by decide⟩ givenP).2

end Driver

end ChainUnit

end Aip.Ingenic
