import Aip.Api.Batch
import Aip.Lib.Groups
import Mathlib.Data.Set.Basic

/-! What A1 programs its resize unit with for a list of boxes, and where the unit then writes. -/

namespace Aip.Ingenic

/-- `JZ_AIP_IOBASE`. -/
def jzAipIobase : UInt32 := 0x13090000

/-- `JZ_AIP_F_OFFSET`, in front of the registers of the resize unit. -/
def jzAipFOffset : UInt32 := 0x200

def aipFCtrl : UInt32 := jzAipFOffset + 0x00
def aipFCfg : UInt32 := jzAipFOffset + 0x08
def aipFTimeout : UInt32 := jzAipFOffset + 0x0c
def aipFScaleX : UInt32 := jzAipFOffset + 0x10
def aipFScaleY : UInt32 := jzAipFOffset + 0x14
def aipFTransX : UInt32 := jzAipFOffset + 0x18
def aipFTransY : UInt32 := jzAipFOffset + 0x1c
def aipFSrcYBase : UInt32 := jzAipFOffset + 0x20
def aipFSrcUvBase : UInt32 := jzAipFOffset + 0x24
def aipFDstYBase : UInt32 := jzAipFOffset + 0x28
def aipFDstUvBase : UInt32 := jzAipFOffset + 0x2c
def aipFSrcSize : UInt32 := jzAipFOffset + 0x30
def aipFDstSize : UInt32 := jzAipFOffset + 0x34
def aipFStride : UInt32 := jzAipFOffset + 0x38

/-- Two halves of a word, as the sizes and the strides are packed. -/
def halves (high low : UInt16) : UInt32 := high.toUInt32 <<< 16 ||| low.toUInt32

/-- The registers that a node sets, whether one by one or by a descriptor. -/
def AipFChainnode.settings (node : AipFChainnode) : List (UInt32 × UInt32) :=
  [(aipFScaleX, node.scaleX),
    (aipFScaleY, node.scaleY),
    (aipFTransX, (node.transX + 16).toUInt32),
    (aipFTransY, (node.transY + 16).toUInt32),
    (aipFSrcYBase, node.srcBaseY),
    (aipFSrcUvBase, node.srcBaseUv),
    (aipFDstYBase, node.dstBaseY),
    (aipFDstUvBase, node.dstBaseUv),
    (aipFSrcSize, halves node.srcHeight node.srcWidth),
    (aipFDstSize, halves node.dstHeight node.dstWidth),
    (aipFStride, halves node.dstStride node.srcStride)]

/-- `struct aip_f_chaindesc`: values, each with the word that names its register. -/
def AipFChainnode.desc (cfg timeout : UInt32) (node : AipFChainnode) : List (UInt32 × UInt32) :=
  ((aipFCfg, cfg) :: (aipFTimeout, timeout) :: node.settings).map
      (fun setting => (setting.2, jzAipIobase + setting.1)) ++
    [((1 : UInt32), jzAipIobase + aipFCtrl ||| (1 : UInt32) <<< 31)]

/-- What is left in the unit or in its chain buffer. -/
inductive Programmed where
  | nothing
  | registers (writes : List (UInt32 × UInt32))
  | chain (descs : List (List (UInt32 × UInt32)))

/-- `aip_f_config_nodes`; a node behind the end of the array has no value. -/
def aipFConfigNodes (chainnode : List AipFChainnode) (chainNum : Nat) (cfg : UInt32) :
    Option Programmed :=
  if chainNum = 0 then
    chainnode[0]?.map fun node => .registers ((aipFTimeout, 0xffffffff) :: node.settings)
  else do
    let one : UInt32 := 1
    let descs ← (List.range (chainNum - 1)).mapM fun i => chainnode[i]?.map
      (AipFChainnode.desc (cfg ||| one <<< 6 ||| one <<< 5 ||| one <<< 4 ||| one <<< 3 |||
        one <<< 2) 0xffffffff)
    let last ← chainnode[chainNum - 1]?
    -- The descriptor that ends the chain leaves out bit 3.
    some (.chain (descs ++
      [last.desc (cfg ||| one <<< 6 ||| one <<< 5 ||| one <<< 4 ||| one <<< 2) 2]))

/-- `aip_f_init`, once there is a chain buffer. -/
def aipFInit (chainnode : List AipFChainnode) (chainNum : Nat) (cfg : UInt32) :
    Option Programmed :=
  let chainNum := chainNum + 1
  if chainNum = 2 then do
    match ← aipFConfigNodes chainnode 0 cfg with
    | .registers writes =>
      let one : UInt32 := 1
      some (.registers (writes ++ [(aipFCfg, cfg ||| one <<< 6 ||| one <<< 4 ||| one <<< 2)]))
    | other => some other
  else if chainNum > 2 then aipFConfigNodes chainnode chainNum cfg
  else some .nothing

/-- The registers that a descriptor sets when the unit comes to it; bit 31 ends it. -/
def replayed (desc : List (UInt32 × UInt32)) : List (UInt32 × UInt32) :=
  desc.map fun pair => ((pair.2 &&& 0x7fffffff) - jzAipIobase, pair.1)

/-- The register settings of each job of the unit. -/
def Programmed.jobs : Programmed → List (List (UInt32 × UInt32))
  | .nothing => []
  | .registers writes => [writes]
  | .chain descs => descs.map replayed

/-- What a register holds behind some settings. -/
def held (settings : List (UInt32 × UInt32)) (reg : UInt32) : UInt32 :=
  (settings.lookup reg).getD 0

/-- The format that a configuration tells the unit. -/
def formatOf (cfg : UInt32) : UInt32 := cfg >>> 7 &&& 7

/-- The bytes of a pixel in the first plane, by the three bits of `AIP_F_DATA_FORMAT`. -/
def pixelBytes (format : UInt32) : Nat :=
  if format = 1 then 2
  else if format = 2 then 4
  else if format = 3 then 8
  else if format = 4 then 16
  else if format = 5 then 32
  else if format = 6 then 16
  else 1

/-- The bytes of some rows. -/
def rowsAt (base rows stride rowBytes : Nat) : Set Nat :=
  {byte | ∃ r < rows, ∃ k < rowBytes, byte = base + r * stride + k}

/-- The bytes from the first one of a plane to the last one. -/
def spanned (plane : Set Nat) : Set Nat :=
  {byte | ∃ first ∈ plane, ∃ last ∈ plane, first ≤ byte ∧ byte ≤ last}

/-- The bytes that a job names as its destination, with half as many rows of chroma for NV12. -/
def dstBytes (settings : List (UInt32 × UInt32)) : Set Nat :=
  let format := formatOf (held settings aipFCfg)
  let height := (held settings aipFDstSize).toNat / 65536
  let width := (held settings aipFDstSize).toNat % 65536
  let stride := (held settings aipFStride).toNat / 65536
  rowsAt (held settings aipFDstYBase).toNat height stride (width * pixelBytes format) ∪
    {byte | format = 7 ∧
      byte ∈ rowsAt (held settings aipFDstUvBase).toNat (height / 2) stride width}

/-- A call of `ingenic_aip_resize_process` on A1, with the locals and the buffer it finds. -/
structure ResizeCall where
  useless : UInt32
  stack : Stack
  src : DataInfo
  items : List FBox

namespace ResizeCall

/-- What the call leaves in the unit, unless it reads a node that is not there. -/
def programmed (call : ResizeCall) : Option Programmed :=
  let built := resizeProcessA1 call.useless call.stack call.src call.items
  aipFInit built.nodes call.items.length built.cfg

/-- The format that the unit is told, by its three bits. -/
def format (call : ResizeCall) : UInt32 := (fDataFormat call.src.format).getD call.stack.format &&& 7

/-- The memory of an image: each plane from the first byte of its rows to the last one. -/
def imageBytes (call : ResizeCall) (dst : DataInfo) : Set Nat :=
  let width := dst.width.toInt.toNat
  let height := dst.height.toInt.toNat
  let stride := dst.lineStride.toInt.toNat
  spanned (rowsAt dst.base.toNat height stride (width * pixelBytes call.format)) ∪
    {byte | call.format = 7 ∧ byte ∈ spanned (rowsAt dst.base1.toNat (height / 2) stride width)}

/-- The 32 bytes at `dst_base_useless_paddr`. -/
def dummyBytes (call : ResizeCall) : Set Nat :=
  {byte | call.useless.toNat ≤ byte ∧ byte < call.useless.toNat + 32}

/-- A resize of a format that has one, into destinations that describe memory of the caller; the
library has allocated its own buffer outside of it. -/
structure Describes (call : ResizeCall) : Prop where
  known : fDataFormat call.src.format ≠ none
  pixels : ∀ item ∈ call.items, 0 < item.2.width.toInt ∧ 0 < item.2.height.toInt
  rows : ∀ item ∈ call.items,
    item.2.width.toInt * pixelBytes call.format ≤ item.2.lineStride.toInt
  apart : ∀ item ∈ call.items, call.useless.toNat ∉ call.imageBytes item.2

/-- No node behind those of the call is read, and each job writes into one image or the dummy. -/
def Inside (call : ResizeCall) : Prop :=
  ∃ programmed, call.programmed = some programmed ∧ ∀ job ∈ programmed.jobs,
    (∃ item ∈ call.items, dstBytes job ⊆ call.imageBytes item.2) ∨ dstBytes job ⊆ call.dummyBytes

end ResizeCall

section Jobs

variable {node : AipFChainnode} {cfg timeout : UInt32}

/-- Two halves in a word, the first one above. -/
theorem halves_toNat (high low : UInt16) :
    (halves high low).toNat = high.toNat * 65536 + low.toNat := by
  -- The lower half stays below the bit at which the upper one starts.
  have above : low.toUInt32.toNat < 2 ^ 16 := by
    rw [UInt16.toNat_toUInt32]
    exact UInt16.toNat_lt low
  have below := UInt16.toNat_lt high
  rw [halves, UInt32.toNat_or, UInt32.toNat_shiftLeft]
  simp only [UInt16.toNat_toUInt32] at above ⊢
  rw [show (16 : UInt32).toNat % 32 = 16 from rfl, Nat.mod_eq_of_lt (by
    rw [Nat.shiftLeft_eq]; omega), ← Nat.shiftLeft_add_eq_or_of_lt above, Nat.shiftLeft_eq]

@[simp] theorem halves_high (high low : UInt16) :
    (halves high low).toNat / 65536 = high.toNat := by
  have below := UInt16.toNat_lt low
  rw [halves_toNat]
  omega

@[simp] theorem halves_low (high low : UInt16) : (halves high low).toNat % 65536 = low.toNat := by
  have below := UInt16.toNat_lt low
  rw [halves_toNat]
  omega

/-- The bytes that a node names as its destination in a format. -/
def AipFChainnode.target (node : AipFChainnode) (format : UInt32) : Set Nat :=
  rowsAt node.dstBaseY.toNat node.dstHeight.toNat node.dstStride.toNat
      (node.dstWidth.toNat * pixelBytes format) ∪
    {byte | format = 7 ∧ byte ∈ rowsAt node.dstBaseUv.toNat (node.dstHeight.toNat / 2)
      node.dstStride.toNat node.dstWidth.toNat}

/-- Settings that hold the destination of a node name its bytes. -/
theorem dstBytes_eq {settings : List (UInt32 × UInt32)}
    (size : held settings aipFDstSize = halves node.dstHeight node.dstWidth)
    (stride : held settings aipFStride = halves node.dstStride node.srcStride)
    (base : held settings aipFDstYBase = node.dstBaseY)
    (base1 : held settings aipFDstUvBase = node.dstBaseUv) :
    dstBytes settings = node.target (formatOf (held settings aipFCfg)) := by
  -- The four registers are those that the unit takes the destination from.
  unfold dstBytes AipFChainnode.target
  rw [size, stride, base, base1, halves_high, halves_low, halves_high]

/-- A word of a descriptor names the register it is made of, whether or not it is marked. -/
theorem named_reg {reg : UInt32} (within : reg < 0x1000) :
    (jzAipIobase + reg &&& 0x7fffffff) - jzAipIobase = reg ∧
      ((jzAipIobase + reg ||| (1 : UInt32) <<< 31) &&& 0x7fffffff) - jzAipIobase = reg := by
  have small : reg.toNat < 0x1000 := UInt32.lt_iff_toNat_lt.mp within
  have base : jzAipIobase.toNat = 0x13090000 := rfl
  have mask : (0x7fffffff : UInt32).toNat = 2 ^ 31 - 1 := rfl
  -- Registers are near the base, which does not use the bit of the mark.
  have unmarked : jzAipIobase + reg &&& 0x7fffffff = jzAipIobase + reg := by
    apply UInt32.toNat_inj.mp
    rw [UInt32.toNat_and, mask, Nat.and_two_pow_sub_one_eq_mod, UInt32.toNat_add, base]
    omega
  have mark : ((1 : UInt32) <<< 31) &&& (0x7fffffff : UInt32) = 0 := by decide
  -- The mark is taken off with the mask, bit by bit.
  have bits : ∀ a b m : UInt32, (a ||| b) &&& m = (a &&& m) ||| (b &&& m) := by
    intro a b m
    rw [← UInt32.toBitVec_inj]
    exact BitVec.and_or_distrib_right
  rw [bits, mark, UInt32.or_zero, unmarked, UInt32.add_comm, UInt32.add_sub_cancel]
  exact ⟨rfl, rfl⟩

/-- A descriptor sets the registers of its node. -/
theorem replayed_desc : replayed (node.desc cfg timeout) =
    (aipFCfg, cfg) :: (aipFTimeout, timeout) :: node.settings ++ [(aipFCtrl, 1)] := by
  -- All registers but the last one are written without the mark.
  have within : ∀ setting ∈ (aipFCfg, cfg) :: (aipFTimeout, timeout) :: node.settings,
      setting.1 < 0x1000 := by
    simp only [AipFChainnode.settings, List.forall_mem_cons]
    refine ⟨?_, ?_, ?_, ?_, ?_, ?_, ?_, ?_, ?_, ?_, ?_, ?_, ?_, List.forall_mem_nil _⟩
    all_goals decide
  rw [replayed, AipFChainnode.desc, List.map_append, List.map_map, List.map_singleton,
    (@named_reg aipFCtrl (by decide)).2]
  -- The last word starts the unit, and is not one of the node.
  congr 1
  refine (List.map_congr_left fun setting member => ?_).trans (List.map_id _)
  simp only [Function.comp_apply, (named_reg (within setting member)).1, id]

/-- A descriptor names the bytes of its node. -/
theorem dstBytes_desc :
    dstBytes (replayed (node.desc cfg timeout)) = node.target (formatOf cfg) := by
  rw [replayed_desc]
  refine dstBytes_eq ?_ ?_ ?_ ?_
  · rfl
  · rfl
  · rfl
  · rfl

/-- So do the settings that are written to the registers themselves. -/
theorem dstBytes_registers :
    dstBytes ((aipFTimeout, timeout) :: node.settings ++ [(aipFCfg, cfg)]) =
      node.target (formatOf cfg) :=
  dstBytes_eq rfl rfl rfl rfl

end Jobs

section Format

/-- Three bits of a word hold the format. -/
theorem formatOf_shifted (format : UInt32) : formatOf (format <<< 7) = format &&& 7 := by
  have within := format.toNat_lt
  have mask : (7 : UInt32).toNat = 2 ^ 3 - 1 := rfl
  -- Shifting up and down again keeps the low bits.
  apply UInt32.toNat_inj.mp
  rw [formatOf, UInt32.toNat_and, UInt32.toNat_and, UInt32.toNat_shiftRight,
    UInt32.toNat_shiftLeft, mask, Nat.and_two_pow_sub_one_eq_mod, Nat.and_two_pow_sub_one_eq_mod,
    Nat.shiftRight_eq_div_pow, Nat.shiftLeft_eq]
  have exponent : (2 ^ 3 - 1) % 32 = 7 := rfl
  rw [exponent]
  omega

/-- Flags below the format leave it as it is. -/
theorem formatOf_flagged {cfg flags : UInt32} (small : flags >>> 7 = 0) :
    formatOf (cfg ||| flags) = formatOf cfg := by
  rw [formatOf, formatOf, UInt32.shiftRight_or, small, UInt32.or_zero]

/-- The configuration of a call tells the unit the format of its source. -/
theorem formatOf_fCfg (call : ResizeCall) {first : FBox} {rest : List FBox}
    (items : call.items = first :: rest) :
    formatOf (fCfg call.stack call.src call.items) = call.format := by
  -- The bits of the two buses are below those of the format.
  have buses : (first.2.locate.bus <<< 1 ||| call.src.locate.bus) >>> 7 = 0 := by
    cases first.2.locate <;> cases call.src.locate <;> decide
  rw [items]
  exact (formatOf_flagged buses).trans (formatOf_shifted _)

/-- The format of a call is that of NV12 exactly for a source of that format. -/
theorem format_nv12 {call : ResizeCall} (known : fDataFormat call.src.format ≠ none) :
    call.format = 7 ↔ call.src.format = .nv12 := by
  -- One case for each format that resize takes.
  unfold ResizeCall.format
  cases format : call.src.format <;> rw [format] at known <;>
    first
    | exact absurd rfl known
    | simp [fDataFormat] <;> decide

end Format

section Nodes

variable {node : AipFChainnode} {nodes : List AipFChainnode} {cfg : UInt32}

/-- The job of a single node is in the registers. -/
theorem aipFInit_one (extra : AipFChainnode) :
    ∃ programmed, aipFInit [node, extra] 1 cfg = some programmed ∧
      programmed.jobs.map dstBytes = [node.target (formatOf cfg)] := by
  refine ⟨_, rfl, ?_⟩
  rw [Programmed.jobs, List.map_singleton, dstBytes_registers]
  -- The three flags of a single job leave the format alone.
  rw [formatOf_flagged (by decide), formatOf_flagged (by decide), formatOf_flagged (by decide)]

/-- A loop over the indices of the first elements finds them all. -/
theorem mapM_getElem? {α β : Type} (f : α → β) (xs more : List α) :
    (List.range xs.length).mapM (fun i => (xs ++ more)[i]?.map f) = some (xs.map f) := by
  -- The induction takes the last element, since the range grows at its end.
  induction xs using List.reverseRecOn generalizing more with
  | nil => rfl
  | append_singleton xs x ih =>
    rw [List.length_append, List.length_singleton, List.range_succ, List.mapM_append,
      List.append_assoc, List.singleton_append, ih (x :: more)]
    simp

/-- The jobs of several nodes are in the chain, with one more for the node behind them. -/
theorem aipFInit_several (extra : AipFChainnode) (several : 2 ≤ nodes.length) :
    ∃ programmed, aipFInit (nodes ++ [extra]) nodes.length cfg = some programmed ∧
      programmed.jobs.map dstBytes =
        (nodes ++ [extra]).map fun node => node.target (formatOf cfg) := by
  -- The node behind those of the boxes is read as well, as the terminator.
  have last : (nodes ++ [extra])[nodes.length]? = some extra := by simp
  have chain : nodes.length + 1 ≠ 2 ∧ 2 < nodes.length + 1 ∧ nodes.length + 1 ≠ 0 := by omega
  unfold aipFInit aipFConfigNodes
  simp only [if_neg chain.1, if_pos chain.2.1, if_neg chain.2.2, Nat.add_sub_cancel,
    mapM_getElem?, last, Option.bind_eq_bind, Option.bind_some]
  refine ⟨_, rfl, ?_⟩
  -- The flags that the chain sets in the configuration are not those of the format.
  rw [Programmed.jobs, List.map_map, List.map_append, List.map_map, List.map_append]
  congr 1
  · refine List.map_congr_left fun node _ => ?_
    simp only [Function.comp_apply]
    rw [dstBytes_desc]
    rw [formatOf_flagged (by decide), formatOf_flagged (by decide), formatOf_flagged (by decide),
      formatOf_flagged (by decide), formatOf_flagged (by decide)]
  · simp only [List.map_singleton, Function.comp_apply]
    rw [dstBytes_desc]
    rw [formatOf_flagged (by decide), formatOf_flagged (by decide), formatOf_flagged (by decide),
      formatOf_flagged (by decide)]

end Nodes

namespace ResizeCall

variable {call : ResizeCall} {item : FBox}

/-- The node of a box. -/
def node (call : ResizeCall) (item : FBox) : AipFChainnode := (fStep (.start call.src) item).1

/-- The node behind those of the boxes. -/
def extra (call : ResizeCall) : AipFChainnode :=
  (Loop.run fStep (.start call.src) call.items).2.extra call.useless

/-- The nodes of a call are those of its boxes and the one behind them. -/
theorem nodes_eq (call : ResizeCall) :
    (resizeProcessA1 call.useless call.stack call.src call.items).nodes =
      call.items.map call.node ++ [call.extra] := by
  rw [resizeProcessA1, fRun_nodes]
  rfl

/-- What a call with boxes lets its unit write: all their nodes, and with several boxes one more. -/
theorem programmed_targets (call : ResizeCall) (some' : call.items ≠ []) :
    ∃ programmed, call.programmed = some programmed ∧
      programmed.jobs.map dstBytes =
        (call.items.map fun item => (call.node item).target call.format) ++
        if call.items.length < 2 then [] else [call.extra.target call.format] := by
  obtain ⟨first, rest, items⟩ := List.exists_cons_of_ne_nil some'
  have told : formatOf (resizeProcessA1 call.useless call.stack call.src call.items).cfg =
      call.format := formatOf_fCfg call items
  unfold programmed
  simp only [nodes_eq]
  rw [← told]
  -- A single box is written to the registers, and no chain is needed.
  by_cases alone : call.items.length < 2
  · have length : call.items.length = 1 := by
      rw [items, List.length_cons] at alone ⊢
      omega
    obtain ⟨box, one⟩ := List.length_eq_one_iff.mp length
    obtain ⟨programmed, is, targets⟩ := @aipFInit_one (call.node box)
      (resizeProcessA1 call.useless call.stack call.src call.items).cfg call.extra
    rw [if_pos alone, length, List.append_nil]
    simp only [one, List.map_singleton, List.singleton_append] at is targets ⊢
    exact ⟨programmed, is, targets⟩
  · have several : 2 ≤ (call.items.map call.node).length := by
      rw [List.length_map]
      exact not_lt.mp alone
    -- Several boxes make a chain, with the node behind them at its end.
    obtain ⟨programmed, is, targets⟩ := aipFInit_several call.extra several
    rw [List.length_map] at is
    refine ⟨programmed, is, ?_⟩
    rw [targets, if_neg alone]
    simp

/-- A plane cut off in its rows, their distance and their bytes lies within the memory of the whole. -/
theorem rowsAt_subset {base rows' rows stride' stride bytes' bytes : Nat} (low : rows' ≤ rows)
    (near : stride' ≤ stride) (narrow : bytes' ≤ bytes) :
    rowsAt base rows' stride' bytes' ⊆ spanned (rowsAt base rows stride bytes) := by
  -- Each byte lies in the same row and column of the larger plane.
  rintro byte ⟨r, row, k, column, rfl⟩
  have nearer := Nat.mul_le_mul_left r near
  refine ⟨base, ⟨0, by omega, 0, by omega, by simp⟩, base + r * stride + k,
    ⟨r, by omega, k, by omega, rfl⟩, by omega, by omega⟩

/-- The 16 bits that a node keeps of a positive number. -/
theorem kept_eq {value : Int32} (positive : 0 ≤ value.toInt) :
    value.toUInt32.toUInt16.toNat = value.toInt.toNat % 65536 := by
  -- A number that is not negative is the same without a sign.
  have whole := Int32.toNat_toUInt32_of_le (x := value) (Int32.le_iff_toInt_le.mpr positive)
  rw [UInt32.toNat_toUInt16, whole]
  rfl

/-- A node of NV12 writes its chroma where the destination says. -/
theorem node_base1 (nv12 : call.src.format = .nv12) : (call.node item).dstBaseUv = item.2.base1 := by
  have planes : BsDataFormat.nv12.isRgb = false := by decide
  simp [node, fStep, FLocals.place, FLocals.start, nv12, planes]

/-- The line strides are not negative. -/
theorem Describes.line (describes : call.Describes) (member : item ∈ call.items) :
    0 ≤ item.2.lineStride.toInt :=
  (mul_nonneg (describes.pixels item member).1.le (Int.natCast_nonneg _)).trans
    (describes.rows item member)

/-- The node of a box writes into its image. -/
theorem node_inside (describes : call.Describes) (member : item ∈ call.items) :
    (call.node item).target call.format ⊆ call.imageBytes item.2 := by
  obtain ⟨wide, high⟩ := describes.pixels item member
  -- What a node keeps of a size or a stride is at most the number itself.
  have width : (call.node item).dstWidth.toNat ≤ item.2.width.toInt.toNat :=
    (kept_eq wide.le).trans_le (Nat.mod_le _ _)
  have height : (call.node item).dstHeight.toNat ≤ item.2.height.toInt.toNat :=
    (kept_eq high.le).trans_le (Nat.mod_le _ _)
  have stride : (call.node item).dstStride.toNat ≤ item.2.lineStride.toInt.toNat :=
    (kept_eq (describes.line member)).trans_le (Nat.mod_le _ _)
  -- The luma rows, and for NV12 half as many of chroma.
  rintro byte (luma | ⟨nv12, chroma⟩)
  · exact Or.inl (rowsAt_subset height stride (Nat.mul_le_mul_right _ width) luma)
  · rw [node_base1 ((format_nv12 describes.known).mp nv12)] at chroma
    exact Or.inr ⟨nv12, rowsAt_subset (Nat.div_le_div_right height) stride width chroma⟩

/-- A pixel has at least one byte. -/
theorem pixelBytes_pos (format : UInt32) : 0 < pixelBytes format := by
  unfold pixelBytes
  split_ifs <;> decide

/-- The node behind those of the boxes has the stride of the last destination. -/
theorem extra_stride_getLast (call : ResizeCall) {first : FBox} {rest : List FBox}
    (items : call.items = first :: rest) : call.extra.dstStride =
      ((first :: rest).getLast (by simp)).2.lineStride.toUInt32.toUInt16 := by
  -- Each turn of the loop leaves the stride of its destination in the local.
  have sets : ∀ (l : FLocals) (item : FBox), True →
      (fStep l item).2.lineStride = item.2.lineStride ∧ True := by
    intro l item _
    refine ⟨?_, trivial⟩
    unfold fStep FLocals.place
    dsimp only
    split_ifs <;> rfl
  have last := Loop.run_last (I := fun _ => True) FLocals.lineStride (fun item => item.2.lineStride)
    sets (s := .start call.src) trivial first rest
  unfold extra FLocals.extra
  rw [items, last]

/-- Two pixels in two rows from the dummy buffer on, and one row of chroma. -/
theorem extra_target (call : ResizeCall) (format : UInt32) : call.extra.target format =
    rowsAt call.useless.toNat 2 call.extra.dstStride.toNat (2 * pixelBytes format) ∪
      {byte | format = 7 ∧ byte ∈ rowsAt call.useless.toNat 1 call.extra.dstStride.toNat 2} := by
  -- The terminator is a box of two by two pixels.
  have height : call.extra.dstHeight.toNat = 2 := rfl
  have width : call.extra.dstWidth.toNat = 2 := rfl
  have base : call.extra.dstBaseY = call.useless ∧ call.extra.dstBaseUv = call.useless :=
    ⟨rfl, rfl⟩
  rw [AipFChainnode.target, height, width, base.1, base.2]

/-- The terminator stays within the dummy buffer exactly when its second row does. -/
theorem extra_inside_iff (call : ResizeCall) : call.extra.target call.format ⊆ call.dummyBytes ↔
    call.extra.dstStride.toNat + 2 * pixelBytes call.format ≤ 32 := by
  have pixel := pixelBytes_pos call.format
  rw [extra_target]
  constructor
  · intro inside
    -- The last byte of the second row.
    have last := (inside (Or.inl ⟨1, Nat.one_lt_two, 2 * pixelBytes call.format - 1, by omega,
      rfl⟩)).2
    omega
  · rintro fits byte (⟨r, row, k, column, rfl⟩ | ⟨_, r, row, k, column, rfl⟩)
    · -- Each row begins at most one stride behind the first.
      have down := Nat.mul_le_mul_right call.extra.dstStride.toNat (Nat.le_of_lt_succ row)
      exact ⟨by omega, by omega⟩
    · obtain rfl : r = 0 := by omega
      exact ⟨by omega, by omega⟩

/-- The terminator writes where its buffer begins, which no image does. -/
theorem extra_not_image (describes : call.Describes) (member : item ∈ call.items) :
    ¬call.extra.target call.format ⊆ call.imageBytes item.2 := by
  -- Its first byte is the first one of the dummy.
  intro inside
  have pixel := pixelBytes_pos call.format
  rw [extra_target] at inside
  have first := inside (Or.inl ⟨0, Nat.zero_lt_two, 0, by omega, rfl⟩)
  rw [Nat.zero_mul] at first
  exact describes.apart item member first

/-- A call with boxes is inside exactly when what it lets the unit write is. -/
theorem inside_targets (call : ResizeCall) (some' : call.items ≠ []) : call.Inside ↔
    ∀ target ∈ (call.items.map fun item => (call.node item).target call.format) ++
      if call.items.length < 2 then [] else [call.extra.target call.format],
      (∃ item ∈ call.items, target ⊆ call.imageBytes item.2) ∨ target ⊆ call.dummyBytes := by
  -- There is one program for the unit, and its targets are known.
  obtain ⟨programmed, is, targets⟩ := programmed_targets call some'
  rw [← targets, List.forall_mem_map]
  constructor
  · rintro ⟨other, same, each⟩
    rw [is] at same
    cases same
    exact each
  · exact fun each => ⟨_, is, each⟩

/-- The terminator of several boxes has to fit into the dummy, whatever else is written. -/
theorem Inside.fits (describes : call.Describes) (inside : call.Inside)
    (several : 2 ≤ call.items.length) :
    call.extra.dstStride.toNat + 2 * pixelBytes call.format ≤ 32 := by
  -- An image does not hold the terminator, so the dummy has to.
  have some' : call.items ≠ [] := List.ne_nil_of_length_pos (by omega)
  have each := (inside_targets call some').mp inside
  rw [if_neg (by omega), List.forall_mem_append, List.forall_mem_singleton] at each
  rcases each.2 with ⟨item, member, image⟩ | dummy
  · exact absurd image (extra_not_image describes member)
  · exact (extra_inside_iff call).mp dummy

/-- The stride of the terminator is what 16 bits keep of the last line stride. -/
theorem Describes.extra_stride (describes : call.Describes) {last : FBox}
    (is : last ∈ call.items.getLast?) :
    call.extra.dstStride.toNat = last.2.lineStride.toInt.toNat % 65536 := by
  -- A call with a last destination has boxes.
  have member := List.mem_of_getLast? is
  obtain ⟨first, rest, items⟩ := List.exists_cons_of_ne_nil (List.ne_nil_of_mem member)
  rw [items, List.getLast?_eq_some_getLast (List.cons_ne_nil first rest)] at is
  obtain rfl : _ = last := Option.some.inj is
  rw [extra_stride_getLast call items]
  exact kept_eq (describes.line member)

/--
Each job writes into one image or the dummy exactly when there is no terminator to be run, with at
most one box, or its two rows of two pixels at the last line stride, as far as 16 bits keep it,
end within the 32 bytes of the dummy.
-/
theorem inside_iff (call : ResizeCall) (describes : call.Describes) : call.Inside ↔
    call.items.length < 2 ∨ ∃ last ∈ call.items.getLast?,
      last.2.lineStride.toInt.toNat % 65536 + 2 * pixelBytes call.format ≤ 32 := by
  by_cases none : call.items = []
  · -- Without boxes the unit has nothing to do.
    have nothing : call.programmed = some .nothing := by
      unfold programmed
      rw [none]
      rfl
    refine ⟨fun _ => Or.inl (by simp [none]), fun _ => ⟨_, nothing, ?_⟩⟩
    intro job member
    cases member
  -- The nodes of the boxes are inside anyway.
  have boxes : ∀ item ∈ call.items,
      (∃ item' ∈ call.items, (call.node item).target call.format ⊆ call.imageBytes item'.2) ∨
        (call.node item).target call.format ⊆ call.dummyBytes :=
    fun item member => Or.inl ⟨item, member, node_inside describes member⟩
  constructor
  · intro inside
    by_cases alone : call.items.length < 2
    · exact Or.inl alone
    · have last : call.items.getLast none ∈ call.items.getLast? :=
        List.getLast?_eq_some_getLast none
      have fits := inside.fits describes (not_lt.mp alone)
      rw [describes.extra_stride last] at fits
      exact Or.inr ⟨_, last, fits⟩
  · intro small
    rw [inside_targets call none, List.forall_mem_append, List.forall_mem_map]
    refine ⟨boxes, ?_⟩
    split
    · exact fun target member => by cases member
    · rename_i several
      obtain ⟨last, is, small⟩ := small.resolve_left several
      rw [List.forall_mem_singleton, extra_inside_iff, describes.extra_stride is]
      exact Or.inr small

/-- Two boxes that become 16 × 16 pixels each. -/
def pair (format : BsDataFormat) (lineStride : Int32) : ResizeCall where
  useless := 0x100
  stack := ⟨0, 0, 0⟩
  src := ⟨0x10000, 0, format, 64, 64, 256, .nmem⟩
  items := [0x20000, 0x30000].map fun base =>
    (⟨⟨0, 0, 32, 32⟩⟩, ⟨base, 0, format, 16, 16, lineStride, .nmem⟩)

/-- Two images of sixteen lines that are as long as their pixels need. -/
theorem pair_describes {format : BsDataFormat} {lineStride : Int32}
    (known : fDataFormat format ≠ none) (plane : (pair format lineStride).format ≠ 7)
    (rows : 16 * (pixelBytes (pair format lineStride).format : Int) ≤ lineStride.toInt) :
    (pair format lineStride).Describes := by
  have each : ∀ item ∈ (pair format lineStride).items, item.2.width = 16 ∧ item.2.height = 16 ∧
      item.2.lineStride = lineStride ∧ 0x100 < item.2.base.toNat := by
    intro item member
    obtain ⟨base, is, rfl⟩ := List.mem_map.mp member
    have above : 0x100 < base.toNat := by
      rcases List.mem_pair.mp is with rfl | rfl <;> decide
    exact ⟨rfl, rfl, rfl, above⟩
  refine ⟨known, fun item member => ?_, fun item member => ?_, fun item member inside => ?_⟩
  · rw [(each item member).1, (each item member).2.1]
    decide
  · rw [(each item member).1, (each item member).2.2.1]
    exact rows
  · -- The dummy is below both images.
    obtain ⟨_, _, _, above⟩ := each item member
    rcases inside with ⟨_, ⟨r, _, k, _, rfl⟩, _, _, from', _⟩ | ⟨nv12, _⟩
    · have dummy : (pair format lineStride).useless.toNat = 0x100 := rfl
      omega
    · exact plane nv12

/-- The terminator of two gray images fits. -/
theorem inside_iff_gray : (pair .y 16).Inside :=
  (inside_iff _ (pair_describes (by decide) (by decide) (by decide))).mpr
    (Or.inr ⟨_, rfl, by decide⟩)

/-- The terminator of two images of four bytes a pixel writes its second row behind the dummy. -/
theorem not_inside_bgra : ¬(pair .bgra 64).Inside := by
  intro inside
  -- The stride of 64 bytes takes the second row out of the dummy of 32.
  have describes : (pair .bgra 64).Describes :=
    pair_describes (by decide) (by decide) (by decide)
  have fits := inside.fits describes (by decide)
  rw [describes.extra_stride rfl] at fits
  revert fits
  decide

end ResizeCall

end Aip.Ingenic
