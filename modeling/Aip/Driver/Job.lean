import Aip.Driver.Channel
import Aip.Lib.Indices

/-! The jobs of the F, P and T channels and the register writes that start them. -/

namespace Aip

/-- A 32-bit value written at an offset into the register block, `AIP_V20_WRITEL`. -/
structure RegWrite where
  reg : Nat
  value : Nat
  deriving DecidableEq, Repr, Inhabited

/-- The two's complement of a 32-bit word. -/
def neg32 (word : Nat) : Nat := (2 ^ 32 - word % 2 ^ 32) % 2 ^ 32

/-- The input and output buses of a job, packed alike in `AIP_V20_{F,P,T}_CFG`. -/
def busCfg (posIn posOut : Nat) : Nat := (posIn &&& 1) ||| ((posOut &&& 1) <<< 1)

/-- The fields of `struct jz_aip_v20_f_exec_info` that only F jobs read; the node is a pointer. -/
structure FBody where
  node : Nat
  nodeNum : Nat
  nodeSize : Nat
  memOfst : Nat
  cfgReg : Nat
  deriving DecidableEq, Repr, Inhabited

/-- The fields of `aip_v20_ioctl_submit_f_t` from which the driver builds a job. -/
structure SubmitF where
  format : Nat
  posIn : Nat
  posOut : Nat
  nodeHandle : Nat
  nodeNum : Nat
  paddr : Nat
  deriving DecidableEq, Repr, Inhabited

/-- The unlocked part of `jz_aip_v20_f_op`, given the buffer found under the handle and its address. -/
def fOpBody (dat : SubmitF) (node dma : Nat) : FBody where
  node := node
  nodeNum := dat.nodeNum
  -- `sizeof(aip_v20_f_node_t)` is thirteen pairs of words.
  nodeSize := dat.nodeNum * 104 % 2 ^ 32
  memOfst := (dat.paddr + neg32 dma) % 2 ^ 32
  cfgReg := ((dat.format &&& 7) <<< 7) ||| busCfg dat.posIn dat.posOut

/-- The writes of `jz_aip_v20_submit_next_f_job`, given the control register and `node->dma`. -/
def submitNextFJobWrites (repairA1 : Bool) (ctl dma : Nat) (exec : FBody) : List RegWrite :=
  -- TIMEOUT_ENABLE, IRQ_MASK and CKG_MASK, with CHAIN_IRQ_MASK on the A1 build.
  let cfg := exec.cfgReg ||| 0x40 ||| 0x8 ||| 0x4 ||| (if repairA1 then 0x10 else 0)
  [⟨0x200, 0x2⟩, ⟨0x208, cfg⟩, ⟨0x23c, (dma + exec.memOfst) % 2 ^ 32⟩, ⟨0x240, exec.nodeSize⟩,
    ⟨0x200, ctl ||| 0x4⟩]

/-- While the buffer keeps its address, a job is started at the address the client asked for. -/
theorem fOpBody_chainBase (repairA1 : Bool) (ctl : Nat) (dat : SubmitF) (node dma : Nat) :
    ⟨0x23c, dat.paddr % 2 ^ 32⟩ ∈ submitNextFJobWrites repairA1 ctl dma (fOpBody dat node dma) := by
  -- The offset is taken from the same address that is added again at the start.
  have base : (dma + (fOpBody dat node dma).memOfst) % 2 ^ 32 = dat.paddr % 2 ^ 32 := by
    simp only [fOpBody, neg32]
    omega
  rw [← base]
  simp [submitNextFJobWrites]

/-- The fields of `struct jz_aip_v20_p_exec_info` that only P jobs read; the node is a pointer. -/
structure PBody where
  node : Nat
  nodeNum : Nat
  nodeSize : Nat
  memOfst : Nat
  cfgReg : Nat
  param : Vector Nat 9
  deriving DecidableEq, Repr, Inhabited

/-- The fields of `aip_v20_ioctl_submit_p_t` from which the driver builds a job. -/
structure SubmitP where
  posIn : Nat
  posOut : Nat
  nodeHandle : Nat
  nodeNum : Nat
  paddr : Nat
  param : Vector Nat 9
  deriving DecidableEq, Repr, Inhabited

/-- The unlocked part of `jz_aip_v20_p_op`, given the buffer found under the handle and its address. -/
def pOpBody (dat : SubmitP) (node dma : Nat) : PBody where
  node := node
  nodeNum := dat.nodeNum
  -- `sizeof(aip_v20_p_node_t)` is twenty-seven pairs of words.
  nodeSize := dat.nodeNum * 216 % 2 ^ 32
  memOfst := (dat.paddr + neg32 dma) % 2 ^ 32
  cfgReg := busCfg dat.posIn dat.posOut
  param := dat.param

/-- The nine parameter registers from a base offset on, the fifth and the sixth negated. -/
def paramWrites (base : Nat) (param : Vector Nat 9) : List RegWrite :=
  (List.finRange 9).map fun i : Fin 9 =>
    ⟨base + 4 * i.val, if i = 4 ∨ i = 5 then neg32 (param.get i) else param.get i⟩

/-- The writes of `jz_aip_v20_submit_next_p_job`, given the control register and `node->dma`. -/
def submitNextPJobWrites (repairA1 : Bool) (ctl dma : Nat) (exec : PBody) : List RegWrite :=
  let cfg := exec.cfgReg ||| 0x40 ||| 0x8 ||| 0x4 ||| (if repairA1 then 0x10 else 0)
  [⟨0x300, 0x2⟩] ++ paramWrites 0x370 exec.param ++
    [⟨0x308, cfg⟩, ⟨0x398, (dma + exec.memOfst) % 2 ^ 32⟩, ⟨0x39c, exec.nodeSize⟩,
      ⟨0x300, ctl ||| 0x4⟩]

/-- The same holds of P jobs. -/
theorem pOpBody_chainBase (repairA1 : Bool) (ctl : Nat) (dat : SubmitP) (node dma : Nat) :
    ⟨0x398, dat.paddr % 2 ^ 32⟩ ∈ submitNextPJobWrites repairA1 ctl dma (pOpBody dat node dma) := by
  -- The parameters are written before, and they change neither address.
  have base : (dma + (pOpBody dat node dma).memOfst) % 2 ^ 32 = dat.paddr % 2 ^ 32 := by
    simp only [pOpBody, neg32]
    omega
  rw [← base]
  simp [submitNextPJobWrites]

/-- The image descriptor `aip_v20_t_node_t`. -/
structure TNode where
  srcYbase : Nat
  srcCbase : Nat
  dstBase : Nat
  srcH : Nat
  srcW : Nat
  srcStride : Nat
  dstStride : Nat
  taskLen : Nat
  deriving DecidableEq, Repr, Inhabited

/-- The fields of `struct jz_aip_v20_t_exec_info` that only T jobs read. -/
structure TBody where
  cfgReg : Nat
  param : Vector Nat 9
  offset : Nat
  node : TNode
  deriving DecidableEq, Repr, Inhabited

/-- Two halves of a 32-bit register, the high one shifted without a mask. -/
def halves (high low : Nat) : Nat := ((high <<< 16) % 2 ^ 32) ||| low

/-- The writes of `jz_aip_v20_submit_next_t_job`, for which nothing outside the job is read. -/
def submitNextTJobWrites (exec : TBody) : List RegWrite :=
  -- IRQ_SELECT, TIMEOUT_ENABLE and the chain, irq, clock and timeout masks.
  let cfg := exec.cfgReg ||| 0x400 ||| 0x40 ||| 0x10 ||| 0x8 ||| 0x4 ||| 0x20
  [⟨0x0, 0x2⟩] ++ paramWrites 0x28 exec.param ++
    [⟨0xc, 0xffffffff⟩, ⟨0x14, exec.node.srcYbase⟩, ⟨0x18, exec.node.srcCbase⟩,
      ⟨0x1c, exec.node.dstBase⟩, ⟨0x10, exec.node.taskLen⟩, ⟨0x4c, exec.offset⟩,
      ⟨0x24, halves exec.node.srcH exec.node.srcW⟩,
      ⟨0x20, halves exec.node.dstStride exec.node.srcStride⟩, ⟨0x8, cfg⟩, ⟨0x0, 0x1⟩, ⟨0x0, 0x10⟩]

end Aip
