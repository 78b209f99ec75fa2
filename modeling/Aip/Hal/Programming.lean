import Aip.Api.ResizeNodes
import Aip.Driver.ChainMemory
import Aip.Hal.Library

/-! How the library gives a unit its nodes, in registers or as a chain, and how the driver does. -/

namespace Aip.Ingenic

/-- `JZ_AIP_IOBASE` of each library. -/
def iobaseOf : Chip → UInt32
  | .t41 => 0x12b00000
  | .a1 => jzAipIobase

/-- `JZ_AIP_P_OFFSET`, in front of the registers of the perspective unit. -/
def jzAipPOffset : UInt32 := 0x300

def aipPCtrl : UInt32 := jzAipPOffset + 0x00
def aipPCfg : UInt32 := jzAipPOffset + 0x08
def aipPTimeout : UInt32 := jzAipPOffset + 0x0c
def aipPMode : UInt32 := jzAipPOffset + 0x10
def aipPSrcYBase : UInt32 := jzAipPOffset + 0x14
def aipPSrcUvBase : UInt32 := jzAipPOffset + 0x18
def aipPSrcStride : UInt32 := jzAipPOffset + 0x1c
def aipPDstBase : UInt32 := jzAipPOffset + 0x20
def aipPDstStride : UInt32 := jzAipPOffset + 0x24
def aipPDstSize : UInt32 := jzAipPOffset + 0x28
def aipPSrcSize : UInt32 := jzAipPOffset + 0x2c
def aipPDummyVal : UInt32 := jzAipPOffset + 0x30
def aipPOffset : UInt32 := jzAipPOffset + 0x94
def aipPChainBase : UInt32 := jzAipPOffset + 0x98
def aipPChainSize : UInt32 := jzAipPOffset + 0x9c
def aipFChainBase : UInt32 := jzAipFOffset + 0x3c
def aipFChainSize : UInt32 := jzAipFOffset + 0x40

/-- `AIP_P_COEF0` to `AIP_P_COEF14`. -/
def aipPCoef (i : Nat) : UInt32 := jzAipPOffset + 0x34 + 4 * UInt32.ofNat i

/-- `AIP_P_PARAM0` to `AIP_P_PARAM8`. -/
def aipPParam (i : Fin 9) : UInt32 := jzAipPOffset + 0x70 + 4 * UInt32.ofNat i

/-- `coef_parm0` to `coef_parm14`. -/
def CoefParms.words (parm : CoefParms) : List UInt32 :=
  [parm.x, parm.y, parm.z].flatMap fun row =>
    [row.coef0, row.coef1, row.coef2, row.coef3, row.coef4].map UInt32.ofBitVec

/-- The registers that a node sets behind its timeout. -/
def AipPChainnode.settings (node : AipPChainnode) : List (UInt32 × UInt32) :=
  [(aipPMode, node.mode),
    (aipPSrcYBase, node.srcBaseY),
    (aipPSrcUvBase, node.srcBaseUv),
    (aipPSrcStride, node.srcStride),
    (aipPDstBase, node.dstBase),
    (aipPDstStride, node.dstStride),
    (aipPDstSize, halves node.dstHeight node.dstWidth),
    (aipPSrcSize, halves node.srcHeight node.srcWidth),
    (aipPDummyVal, node.dummyVal)] ++
  (node.coefParm.words.zipIdx.map fun coef => (aipPCoef coef.2, coef.1)) ++
  [(aipPOffset, node.offset)]

/-- What the functions of two units differ in. -/
structure ChainUnit (Node : Type) where
  iobase : UInt32
  ctrl : UInt32
  cfg : UInt32
  timeout : UInt32
  chainBase : UInt32
  chainSize : UInt32
  -- The size of a descriptor.
  chaindesc : Nat
  settings : Node → List (UInt32 × UInt32)

/-- The perspective unit, which both libraries have one text for. -/
def pUnit (chip : Chip) : ChainUnit AipPChainnode where
  iobase := iobaseOf chip
  ctrl := aipPCtrl
  cfg := aipPCfg
  timeout := aipPTimeout
  chainBase := aipPChainBase
  chainSize := aipPChainSize
  chaindesc := chaindesc .p
  settings := AipPChainnode.settings

/-- The resize unit of T41. -/
def fUnit : ChainUnit AipFChainnode where
  iobase := iobaseOf .t41
  ctrl := aipFCtrl
  cfg := aipFCfg
  timeout := aipFTimeout
  chainBase := aipFChainBase
  chainSize := aipFChainSize
  chaindesc := chaindesc .f
  settings := AipFChainnode.settings

/-- The registers of a unit by their offsets. -/
abbrev Registers := Nat → Nat

/-- Words of the source as numbers. -/
def asNat (pairs : List (UInt32 × UInt32)) : List (Nat × Nat) :=
  pairs.map fun pair => (pair.1.toNat, pair.2.toNat)

/-- The pairs of words that a unit reads from the memory. -/
def fetch (mem : WordMemory) (base size : Nat) : List (Nat × Nat) :=
  (List.range (size / 8)).map fun k => (mem (base + 8 * k), mem (base + 8 * k + 4))

/--
The registers of each job of a chain: a pair is a value and the register for it, and a word with its
highest bit set starts the job.
-/
def chainJobs (iobase : Nat) (regs : Registers) : List (Nat × Nat) → List Registers
  | [] => []
  | pair :: pairs =>
    let regs := Function.update regs (pair.2 % 2 ^ 31 - iobase) pair.1
    if 2 ^ 31 ≤ pair.2 then regs :: chainJobs iobase regs pairs else chainJobs iobase regs pairs

/-- The descriptors in a chain buffer, one behind the other. -/
def chainStores (paddr : Nat) (pairs : List (UInt32 × UInt32)) : List (Nat × Nat) :=
  pairs.zipIdx.flatMap fun pair =>
    [(paddr + 8 * pair.2, pair.1.1.toNat), (paddr + 8 * pair.2 + 4, pair.1.2.toNat)]

/-- The writes of `aip_p_init` to the parameters of the conversion. -/
def aipPParams (nv2rgbParm : Fin 9 → UInt32) : List (UInt32 × UInt32) :=
  (List.finRange 9).map fun i =>
    (aipPParam i, if i = 4 ∨ i = 5 then -nv2rgbParm i else nv2rgbParm i)

/-- What an init function has written: registers, and the descriptors in its chain buffer. -/
structure Prepared where
  writes : List (UInt32 × UInt32)
  descs : List (List (UInt32 × UInt32))

namespace ChainUnit

variable {Node : Type} (unit : ChainUnit Node)

/-- The registers of a node, with the timeout. -/
def nodeWrites (node : Node) : List (UInt32 × UInt32) :=
  (unit.timeout, 0xffffffff) :: unit.settings node

/-- A descriptor: values, each with the word that names its register. -/
def desc (node : Node) : List (UInt32 × UInt32) :=
  (unit.nodeWrites node).map (fun setting => (setting.2, unit.iobase + setting.1)) ++
    [((1 : UInt32), unit.iobase + unit.ctrl ||| (1 : UInt32) <<< 31)]

/-- `aip_p_config_nodes`, and `aip_f_config_nodes` of T41. -/
def configNodes (chainnode : List Node) (chainNum : Nat) : Option Prepared :=
  if chainNum = 0 then chainnode[0]?.map fun node => ⟨unit.nodeWrites node, []⟩
  else do
    let descs ← (List.range chainNum).mapM fun i => chainnode[i]?.map unit.desc
    some ⟨[], descs⟩

/--
`aip_p_init`, and `aip_f_init` of T41 without parameters, once there is a chain buffer and the unit has
been reset. A negative number of nodes does what zero does.
-/
def init (params : List (UInt32 × UInt32)) (chainnode : List Node) (chainNum : Nat)
    (cfg paddr : UInt32) : Option Prepared :=
  let one : UInt32 := 1
  if chainNum = 1 then do
    let nodes ← unit.configNodes chainnode 0
    let timeOutEn : UInt32 := 0
    some { nodes with
      writes := params ++ nodes.writes ++
        [(unit.cfg, cfg ||| timeOutEn <<< 6 ||| one <<< 4 ||| one <<< 2)] }
  else if 1 < chainNum then do
    let nodes ← unit.configNodes chainnode chainNum
    let timeOutEn : UInt32 := 0
    some { nodes with
      writes := params ++ nodes.writes ++
        [(unit.cfg, cfg ||| timeOutEn <<< 6 ||| one <<< 3 ||| one <<< 2),
          (unit.chainBase, paddr),
          (unit.chainSize, UInt32.ofNat (unit.chaindesc * chainNum))] }
  else some ⟨params, []⟩

/--
`aip_p_start` or `aip_f_start`, and the jobs that the unit then runs: the one in its registers, or
those of the chain that two registers tell it.
-/
def start (chainNum : Nat) (mem : WordMemory) (regs : Registers) : List Registers :=
  let value := regs unit.ctrl.toNat ||| if chainNum = 1 then 1 <<< 0 else 1 <<< 2
  let regs := Function.update regs unit.ctrl.toNat value
  if value.testBit 2 then
    let pairs := fetch mem (regs unit.chainBase.toNat) (regs unit.chainSize.toNat)
    chainJobs unit.iobase.toNat regs pairs
  else if value.testBit 0 then [regs]
  else []

/-- The jobs of a call, from its nodes to the unit. -/
def call (mem : WordMemory) (regs : Registers) (params : List (UInt32 × UInt32))
    (nodes : List Node) (cfg paddr : UInt32) : Option (List Registers) := do
  let prepared ← unit.init params nodes nodes.length cfg paddr
  let regs := Paint.paint regs (asNat prepared.writes)
  let mem := Paint.paint mem (chainStores paddr.toNat prepared.descs.flatten)
  some (unit.start nodes.length mem regs)

end ChainUnit

section Words

/-- The highest bit of a word is set on top of a number below it. -/
theorem toNat_marked {word : UInt32} (low : word.toNat < 2 ^ 31) :
    (word ||| (1 : UInt32) <<< 31).toNat = word.toNat + 2 ^ 31 := by
  have bit : ((1 : UInt32) <<< 31).toNat = 2 ^ 31 := by decide
  rw [UInt32.toNat_or, bit, Nat.or_comm]
  have sum := Nat.two_pow_add_eq_or_of_lt low 1
  rw [Nat.mul_one] at sum
  rw [← sum, Nat.add_comm]

/-- A sum that stays below the highest bit does not wrap. -/
theorem toNat_register {base reg : UInt32} (low : base.toNat + reg.toNat < 2 ^ 31) :
    (base + reg).toNat = base.toNat + reg.toNat := by
  rw [UInt32.toNat_add, Nat.mod_eq_of_lt (by omega)]

@[simp] theorem asNat_append (one two : List (UInt32 × UInt32)) :
    asNat (one ++ two) = asNat one ++ asNat two := List.map_append

end Words

section Fetch

variable {mem : WordMemory} {paddr : Nat} {pairs : List (UInt32 × UInt32)}

/-- The words of a chain buffer by their places. -/
theorem mem_chainStores {place value : Nat} : (place, value) ∈ chainStores paddr pairs ↔
    ∃ k pair, pairs[k]? = some pair ∧ (place = paddr + 8 * k ∧ value = pair.1.toNat ∨
      place = paddr + 8 * k + 4 ∧ value = pair.2.toNat) := by
  simp only [chainStores, List.mem_flatMap, List.mem_cons, List.not_mem_nil, or_false,
    Prod.mk.injEq]
  constructor
  · rintro ⟨⟨pair, k⟩, member, stored⟩
    exact ⟨k, pair, List.mem_zipIdx_iff_getElem?.mp member, stored⟩
  · rintro ⟨k, pair, found, stored⟩
    exact ⟨(pair, k), List.mem_zipIdx_iff_getElem?.mpr found, stored⟩

/-- The unit reads back what has been stored in a chain buffer. -/
theorem fetch_chainStores : fetch (Paint.paint mem (chainStores paddr pairs)) paddr
    (8 * pairs.length) = asNat pairs := by
  rw [fetch, Nat.mul_div_cancel_left _ (by decide)]
  refine List.ext_getElem (by simp [asNat]) fun k below inside => ?_
  have less : k < pairs.length := by simpa [asNat] using inside
  have found : pairs[k]? = some pairs[k] := List.getElem?_eq_getElem less
  simp only [asNat, List.getElem_map, List.getElem_range, Prod.mk.injEq]
  -- The places of two pairs are eight bytes apart.
  constructor
  · refine Paint.paint_uniform ⟨_, mem_chainStores.mpr ⟨k, _, found, .inl ⟨rfl, rfl⟩⟩, rfl⟩ ?_
    rintro ⟨place, value⟩ stored rfl
    obtain ⟨j, pair, there, ⟨same, rfl⟩ | ⟨same, rfl⟩⟩ := mem_chainStores.mp stored
    · obtain rfl : k = j := by omega
      rw [found] at there
      rw [Option.some.inj there]
    · omega
  · refine Paint.paint_uniform ⟨_, mem_chainStores.mpr ⟨k, _, found, .inr ⟨rfl, rfl⟩⟩, rfl⟩ ?_
    rintro ⟨place, value⟩ stored rfl
    obtain ⟨j, pair, there, ⟨same, rfl⟩ | ⟨same, rfl⟩⟩ := mem_chainStores.mp stored
    · omega
    · obtain rfl : k = j := by omega
      rw [found] at there
      rw [Option.some.inj there]

end Fetch

namespace ChainUnit

variable {Node : Type} {unit : ChainUnit Node} {registers : List Nat} {node : Node}
  {nodes : List Node} {regs : Registers} {params : List (UInt32 × UInt32)} {cfg paddr : UInt32}

/-- The registers that tell the unit how to run, and not what. -/
def steering (unit : ChainUnit Node) : List Nat :=
  [unit.ctrl.toNat, unit.cfg.toNat, unit.chainBase.toNat, unit.chainSize.toNat]

/-- What holds of the units: all nodes set the same registers, none of which steers the unit. -/
structure Lawful (unit : ChainUnit Node) (registers : List Nat) : Prop where
  sets : ∀ node, (asNat (unit.nodeWrites node)).map Prod.fst = registers
  sizeof : unit.chaindesc = 8 * (registers.length + 1)
  inside : ∀ reg ∈ unit.ctrl.toNat :: registers, unit.iobase.toNat + reg < 2 ^ 31
  apart : ∀ reg ∈ registers, reg ∉ unit.steering
  distinct : unit.steering.Nodup

/-- The writes of a descriptor: those of its node, and the one that starts the job. -/
def jobWrites (unit : ChainUnit Node) (node : Node) : List (Nat × Nat) :=
  asNat (unit.nodeWrites node) ++ [(unit.ctrl.toNat, 1)]

/-- Words without a mark are written to their registers. -/
theorem chainJobs_plain {iobase : Nat} {writes : List (Nat × Nat)} (rest : List (Nat × Nat))
    (inside : ∀ write ∈ writes, iobase + write.1 < 2 ^ 31) :
    chainJobs iobase regs (writes.map (fun write => (write.2, iobase + write.1)) ++ rest) =
      chainJobs iobase (Paint.paint regs writes) rest := by
  induction writes generalizing regs with
  | nil => rfl
  | cons write writes ih =>
    have low := inside write List.mem_cons_self
    rw [List.map_cons, List.cons_append, chainJobs]
    simp only [Nat.mod_eq_of_lt low, Nat.add_sub_cancel_left, if_neg (Nat.not_le.mpr low)]
    exact ih fun later member => inside later (List.mem_cons_of_mem write member)

namespace Lawful

/-- The words of a descriptor. -/
theorem desc_eq (lawful : unit.Lawful registers) : asNat (unit.desc node) =
    (asNat (unit.nodeWrites node)).map (fun write => (write.2, unit.iobase.toNat + write.1)) ++
      [(1, unit.iobase.toNat + unit.ctrl.toNat + 2 ^ 31)] := by
  have low := lawful.inside _ List.mem_cons_self
  have ctrl : (unit.iobase + unit.ctrl).toNat = unit.iobase.toNat + unit.ctrl.toNat :=
    toNat_register low
  rw [desc, asNat_append]
  congr 1
  · simp only [asNat, List.map_map]
    refine List.map_congr_left fun write member => Prod.ext rfl ?_
    refine toNat_register (lawful.inside _ (List.mem_cons_of_mem _ ?_))
    rw [← lawful.sets node]
    exact List.mem_map.mpr ⟨_, List.mem_map.mpr ⟨write, member, rfl⟩, rfl⟩
  · have marked := toNat_marked (ctrl.trans_lt low)
    rw [ctrl] at marked
    rw [asNat, List.map_singleton, marked]
    rfl

/-- The registers that a descriptor sets are those of its node and the one that starts the job. -/
theorem jobWrites_fst (lawful : unit.Lawful registers) (node : Node) :
    (unit.jobWrites node).map Prod.fst = registers ++ [unit.ctrl.toNat] := by
  rw [jobWrites, List.map_append, lawful.sets]
  rfl

/-- A descriptor is one job. -/
theorem chainJobs_desc (lawful : unit.Lawful registers) (rest : List (Nat × Nat)) :
    chainJobs unit.iobase.toNat regs (asNat (unit.desc node) ++ rest) =
      Paint.paint regs (unit.jobWrites node) ::
        chainJobs unit.iobase.toNat (Paint.paint regs (unit.jobWrites node)) rest := by
  have low := lawful.inside _ List.mem_cons_self
  have plain : ∀ write ∈ asNat (unit.nodeWrites node), unit.iobase.toNat + write.1 < 2 ^ 31 := by
    intro write member
    refine lawful.inside _ (List.mem_cons_of_mem _ ?_)
    rw [← lawful.sets node]
    exact List.mem_map_of_mem member
  rw [lawful.desc_eq, List.append_assoc, chainJobs_plain _ plain, List.singleton_append, chainJobs]
  -- The mark is not part of the register's name.
  have named : (unit.iobase.toNat + unit.ctrl.toNat + 2 ^ 31) % 2 ^ 31 - unit.iobase.toNat =
      unit.ctrl.toNat := by omega
  have marked : 2 ^ 31 ≤ unit.iobase.toNat + unit.ctrl.toNat + 2 ^ 31 := by omega
  simp only [named, if_pos marked, jobWrites, Paint.paint_append]
  rfl

/-- The jobs of a chain do not show what the jobs before them have set. -/
theorem chainJobs_descs (lawful : unit.Lawful registers) (nodes : List Node) :
    chainJobs unit.iobase.toNat regs (asNat (nodes.map unit.desc).flatten) =
      nodes.map fun node => Paint.paint regs (unit.jobWrites node) := by
  induction nodes generalizing regs with
  | nil => rfl
  | cons node nodes ih =>
    rw [List.map_cons, List.flatten_cons, asNat_append, lawful.chainJobs_desc, ih, List.map_cons]
    congr 1
    -- Every node sets all the registers that the one before it has set.
    refine List.map_congr_left fun later _ => Paint.paint_covered fun store member => ?_
    rw [lawful.jobWrites_fst, ← lawful.jobWrites_fst node]
    exact List.mem_map_of_mem member

/-- The chain buffer has as many pairs as its size says. -/
theorem size_eq (lawful : unit.Lawful registers) (nodes : List Node) :
    unit.chaindesc * nodes.length = 8 * (nodes.map unit.desc).flatten.length := by
  have each : ∀ node, (unit.desc node).length = registers.length + 1 := by
    intro node
    rw [desc, List.length_append, List.length_map, ← lawful.sets node, List.length_map, asNat,
      List.length_map]
    rfl
  have lengths : (nodes.map unit.desc).map List.length =
      nodes.map fun _ => registers.length + 1 := by
    rw [List.map_map]
    exact List.map_congr_left fun node _ => each node
  rw [lawful.sizeof, List.length_flatten, lengths, List.map_const', List.sum_replicate_nat,
    Nat.mul_assoc, Nat.mul_comm nodes.length]

end Lawful

section Calls

variable {mem : WordMemory}

/-- Neither the parameters nor the nodes of a call steer the unit. -/
def Spares (unit : ChainUnit Node) (params : List (UInt32 × UInt32)) : Prop :=
  ∀ store ∈ asNat params, store.1 ∉ unit.steering

/-- The registers of the unit are four different ones. -/
theorem Lawful.steering_ne (lawful : unit.Lawful registers) :
    unit.ctrl.toNat ≠ unit.cfg.toNat ∧ unit.ctrl.toNat ≠ unit.chainBase.toNat ∧
      unit.ctrl.toNat ≠ unit.chainSize.toNat ∧ unit.cfg.toNat ≠ unit.chainBase.toNat ∧
      unit.cfg.toNat ≠ unit.chainSize.toNat ∧ unit.chainBase.toNat ≠ unit.chainSize.toNat := by
  have distinct := lawful.distinct
  simp only [steering, List.nodup_cons, List.mem_cons, List.not_mem_nil, or_false, not_or,
    not_false_eq_true, List.nodup_nil, and_true] at distinct
  exact ⟨distinct.1.1, distinct.1.2.1, distinct.1.2.2, distinct.2.1.1, distinct.2.1.2, distinct.2.2⟩

/-- The nodes of a call leave a register that steers the unit as it was. -/
theorem Lawful.paint_steering (lawful : unit.Lawful registers) {reg : Nat}
    (steers : reg ∈ unit.steering) (node : Node) :
    Paint.paint regs (asNat (unit.nodeWrites node)) reg = regs reg := by
  refine Paint.paint_untouched fun store member same => ?_
  refine lawful.apart store.1 ?_ (same ▸ steers)
  rw [← lawful.sets node]
  exact List.mem_map_of_mem member

/-- So do its parameters. -/
theorem Spares.paint_steering (spares : unit.Spares params) {reg : Nat}
    (steers : reg ∈ unit.steering) : Paint.paint regs (asNat params) reg = regs reg :=
  Paint.paint_untouched fun store member same => spares store member (same ▸ steers)

/-- The start of a single job sets the first bit of a unit that runs no chain. -/
theorem start_one (idle : (regs unit.ctrl.toNat).testBit 2 = false) :
    unit.start 1 mem regs =
      [Function.update regs unit.ctrl.toNat (regs unit.ctrl.toNat ||| 1)] := by
  have noChain : (regs unit.ctrl.toNat ||| 1).testBit 2 = false := by
    rw [Nat.testBit_or, idle]
    rfl
  have job : (regs unit.ctrl.toNat ||| 1).testBit 0 = true := by
    rw [Nat.testBit_or, show Nat.testBit 1 0 = true from rfl, Bool.or_true]
  simp only [start, if_true, Nat.shiftLeft_zero, noChain, job, Bool.false_eq_true, if_false]

/-- The start of a chain has the unit read it. -/
theorem Lawful.start_chain (lawful : unit.Lawful registers) (several : nodes.length ≠ 1)
    (chain : fetch mem (regs unit.chainBase.toNat) (regs unit.chainSize.toNat) =
      asNat (nodes.map unit.desc).flatten) :
    unit.start nodes.length mem regs = nodes.map fun node =>
      Paint.paint (Function.update regs unit.ctrl.toNat (regs unit.ctrl.toNat ||| 4))
        (unit.jobWrites node) := by
  obtain ⟨_, base, size, _⟩ := lawful.steering_ne
  have bit : (regs unit.ctrl.toNat ||| 1 <<< 2).testBit 2 = true := by
    rw [Nat.testBit_or, show Nat.testBit (1 <<< 2) 2 = true from rfl, Bool.or_true]
  simp only [start, if_neg several, bit, if_true, Function.update_of_ne base.symm,
    Function.update_of_ne size.symm, chain]
  exact lawful.chainJobs_descs nodes

/-- Several nodes are given to the unit as a chain. -/
theorem init_several (several : 2 ≤ nodes.length) :
    unit.init params nodes nodes.length cfg paddr = some
      ⟨params ++ [] ++ [(unit.cfg, cfg ||| (0 : UInt32) <<< 6 ||| (1 : UInt32) <<< 3 |||
          (1 : UInt32) <<< 2), (unit.chainBase, paddr),
          (unit.chainSize, UInt32.ofNat (unit.chaindesc * nodes.length))],
        nodes.map unit.desc⟩ := by
  have loop := mapM_getElem? unit.desc nodes []
  rw [List.append_nil] at loop
  rw [init, if_neg (by omega), if_pos (by omega), configNodes, if_neg (by omega), loop]
  rfl

/-- A single node is one job, in the registers. -/
theorem Lawful.call_one (lawful : unit.Lawful registers) (spares : unit.Spares params)
    (idle : (regs unit.ctrl.toNat).testBit 2 = false) (mem : WordMemory) (cfg paddr : UInt32)
    (node : Node) :
    ∃ job, unit.call mem regs params [node] cfg paddr = some [job] ∧
      job unit.cfg.toNat = (cfg ||| 0x14).toNat ∧
      ∀ reg ∉ unit.steering,
        job reg = Paint.paint (Paint.paint regs (asNat params)) (asNat (unit.nodeWrites node)) reg := by
  obtain ⟨ctrlCfg, _⟩ := lawful.steering_ne
  have flags : cfg ||| (0 : UInt32) <<< 6 ||| (1 : UInt32) <<< 4 ||| (1 : UInt32) <<< 2 =
      cfg ||| 0x14 := by
    rw [UInt32.or_assoc, UInt32.or_assoc]
    rfl
  have ctrl : unit.ctrl.toNat ∈ unit.steering := by simp [steering]
  have written : Paint.paint regs (asNat (params ++ unit.nodeWrites node ++
      [(unit.cfg, cfg ||| (0 : UInt32) <<< 6 ||| (1 : UInt32) <<< 4 ||| (1 : UInt32) <<< 2)])) =
      Function.update (Paint.paint (Paint.paint regs (asNat params)) (asNat (unit.nodeWrites node)))
        unit.cfg.toNat (cfg ||| 0x14).toNat := by
    rw [flags, asNat_append, asNat_append, Paint.paint_append, Paint.paint_append]
    rfl
  have still : (Function.update (Paint.paint (Paint.paint regs (asNat params))
      (asNat (unit.nodeWrites node))) unit.cfg.toNat (cfg ||| 0x14).toNat unit.ctrl.toNat).testBit 2 =
      false := by
    rw [Function.update_of_ne ctrlCfg, lawful.paint_steering ctrl, spares.paint_steering ctrl, idle]
  have ran : unit.call mem regs params [node] cfg paddr =
      some (unit.start 1 mem (Paint.paint regs (asNat (params ++ unit.nodeWrites node ++
        [(unit.cfg, cfg ||| (0 : UInt32) <<< 6 ||| (1 : UInt32) <<< 4 ||| (1 : UInt32) <<< 2)])))) :=
    rfl
  rw [written, start_one still] at ran
  refine ⟨_, ran, ?_, ?_⟩
  · rw [Function.update_of_ne ctrlCfg.symm, Function.update_self]
  · intro reg other
    simp only [steering, List.mem_cons, List.not_mem_nil, or_false, not_or] at other
    rw [Function.update_of_ne other.1, Function.update_of_ne other.2.1]

/-- Several nodes are a chain of jobs, each with the registers of its node over those of the call. -/
theorem Lawful.call_several (lawful : unit.Lawful registers) (several : 2 ≤ nodes.length)
    (small : unit.chaindesc * nodes.length < 2 ^ 32) (regs : Registers) (mem : WordMemory)
    (params : List (UInt32 × UInt32)) (cfg paddr : UInt32) :
    ∃ before : Registers, unit.call mem regs params nodes cfg paddr =
        some (nodes.map fun node => Paint.paint before (unit.jobWrites node)) ∧
      before unit.cfg.toNat = (cfg ||| 0x0c).toNat ∧
      ∀ reg ∉ unit.steering, before reg = Paint.paint regs (asNat params) reg := by
  obtain ⟨ctrlCfg, _, _, cfgBase, cfgSize, baseSize⟩ := lawful.steering_ne
  have flags : cfg ||| (0 : UInt32) <<< 6 ||| (1 : UInt32) <<< 3 ||| (1 : UInt32) <<< 2 =
      cfg ||| 0x0c := by
    rw [UInt32.or_assoc, UInt32.or_assoc]
    rfl
  have written : Paint.paint regs (asNat (params ++ [] ++ [(unit.cfg, cfg ||| (0 : UInt32) <<< 6 |||
      (1 : UInt32) <<< 3 ||| (1 : UInt32) <<< 2), (unit.chainBase, paddr),
      (unit.chainSize, UInt32.ofNat (unit.chaindesc * nodes.length))])) =
      Function.update (Function.update (Function.update (Paint.paint regs (asNat params))
        unit.cfg.toNat (cfg ||| 0x0c).toNat) unit.chainBase.toNat paddr.toNat)
        unit.chainSize.toNat (UInt32.ofNat (unit.chaindesc * nodes.length)).toNat := by
    rw [flags, List.append_nil, asNat_append, Paint.paint_append]
    rfl
  rw [UInt32.toNat_ofNat', Nat.mod_eq_of_lt small] at written
  have ran : unit.call mem regs params nodes cfg paddr = some (unit.start nodes.length
      (Paint.paint mem (chainStores paddr.toNat (nodes.map unit.desc).flatten))
      (Function.update (Function.update (Function.update (Paint.paint regs (asNat params))
        unit.cfg.toNat (cfg ||| 0x0c).toNat) unit.chainBase.toNat paddr.toNat)
        unit.chainSize.toNat (unit.chaindesc * nodes.length))) := by
    rw [call, init_several several, ← written]
    rfl
  -- The unit is told where the chain is and how long.
  rw [lawful.start_chain (by omega) (by
    rw [Function.update_self, Function.update_of_ne baseSize, Function.update_self,
      lawful.size_eq, fetch_chainStores])] at ran
  refine ⟨_, ran, ?_, ?_⟩
  · rw [Function.update_of_ne ctrlCfg.symm, Function.update_of_ne cfgSize,
      Function.update_of_ne cfgBase, Function.update_self]
  · intro reg other
    simp only [steering, List.mem_cons, List.not_mem_nil, or_false, not_or] at other
    rw [Function.update_of_ne other.1, Function.update_of_ne other.2.2.2,
      Function.update_of_ne other.2.2.1, Function.update_of_ne other.2.1]

end Calls

end ChainUnit

end Aip.Ingenic
