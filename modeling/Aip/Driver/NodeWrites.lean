import Aip.Driver.Submit
import Mathlib.Data.Nat.GCD.Basic
import Mathlib.Tactic.NormNum
import Mathlib.Tactic.Ring

/-! The nodes that the F and P calls fill in, and the bytes of the chain that they announce. -/

namespace Aip

/-- A node that is written, at an offset into its buffer object, with words and their values. -/
structure NodeWrite where
  offset : Nat
  words : List (Nat × Nat)
  deriving DecidableEq, Repr

/-- `JZ_AIP_V20_IOBASE`. -/
def ioBase (repairA1 : Bool) : Nat := if repairA1 then 0x13090000 else 0x12b00000

/-- The words that end a node: the bit that starts it, and the control register. -/
def ctrlWords (repairA1 : Bool) (index ctl : Nat) : List (Nat × Nat) :=
  [(index, 1), (index + 1, (ioBase repairA1 + ctl) ||| 0x80000000)]

/-- The registers that stand behind the values of a node, consecutive from the timeout on. -/
def regWords (repairA1 : Bool) (base count : Nat) : List (Nat × Nat) :=
  (List.range count).map fun k => (2 * k + 1, ioBase repairA1 + base + 4 * k)

/-- The words of the node that ends a chain on the A1 build. -/
def lastWords (repairA1 : Bool) (base index ctl : Nat) : List (Nat × Nat) :=
  [(0, 2), (1, ioBase repairA1 + base)] ++ ctrlWords repairA1 index ctl

/-- The `int` that bounds the loop, `fnode_num` and `pnode_num`; a negative one bounds it by zero. -/
def loopCount (repairA1 : Bool) (nodeNum : Nat) : Nat :=
  (((nodeNum : Int) - if repairA1 then 1 else 0).bmod (2 ^ 32)).toNat

/-- The loop over the nodes of a chain, with the node behind them on the A1 build. -/
def chainNodes (repairA1 : Bool) (sizeof nodeNum memOfst : Nat) (words last : List (Nat × Nat)) :
    List NodeWrite :=
  -- The address of a node has 32 bits.
  let node i words := { offset := (memOfst + i * sizeof) % 2 ^ 32, words := words }
  let count := loopCount repairA1 nodeNum
  (List.range count).map (node · words) ++ if repairA1 then [node count last] else []

/-- The nodes that `jz_aip_v20_f_op` writes. -/
def fOpNodes (repairA1 : Bool) (dat : SubmitF) (bo : BoInfo) : List NodeWrite :=
  chainNodes repairA1 104 dat.nodeNum (fOpBody dat bo.ref bo.dma).memOfst
    (regWords repairA1 0x20c 12 ++ ctrlWords repairA1 24 0x200)
    (lastWords repairA1 0x20c 24 0x200)

/-- The nodes that `jz_aip_v20_p_op` writes. -/
def pOpNodes (repairA1 : Bool) (dat : SubmitArgP) (param : Vector Nat 9) (bo : BoInfo) :
    List NodeWrite :=
  chainNodes repairA1 216 dat.nodeNum (pOpBody (dat.dat param) bo.ref bo.dma).memOfst
    -- The mode and the offsets are those of the call, in every node.
    (regWords repairA1 0x30c 25 ++ [(2, dat.mode), (50, dat.offset.word),
      (51, ioBase repairA1 + 0x394)] ++ ctrlWords repairA1 52 0x300)
    (lastWords repairA1 0x30c 52 0x300)

/-- A submit call that names a chain of nodes. -/
inductive ChainArg where
  | f (dat : SubmitF) (name : Nat)
  | p (dat : SubmitArgP)
  deriving DecidableEq, Repr

namespace ChainArg

/-- The argument of the call. -/
def submitArg : ChainArg → SubmitArg
  | .f dat name => .f dat name
  | .p dat => .p dat

/-- The handle of the buffer object. -/
def nodeHandle : ChainArg → Nat
  | .f dat _ => dat.nodeHandle
  | .p dat => dat.nodeHandle

/-- The number of nodes. -/
def nodeNum : ChainArg → Nat
  | .f dat _ => dat.nodeNum
  | .p dat => dat.nodeNum

/-- The address of the chain. -/
def paddr : ChainArg → Nat
  | .f dat _ => dat.paddr
  | .p dat => dat.paddr

/-- `sizeof(aip_v20_f_node_t)` or `sizeof(aip_v20_p_node_t)`. -/
def sizeof : ChainArg → Nat
  | .f _ _ => 104
  | .p _ => 216

/-- The nodes that the call writes. -/
def nodes (repairA1 : Bool) (param : Vector Nat 9) (bo : BoInfo) : ChainArg → List NodeWrite
  | .f dat _ => fOpNodes repairA1 dat bo
  | .p dat => pOpNodes repairA1 dat param bo

/-- The writes that start the job of the call, given the control register. -/
def startWrites (repairA1 : Bool) (ctl : Nat) (param : Vector Nat 9) (bo : BoInfo) :
    ChainArg → List RegWrite
  | .f dat _ => submitNextFJobWrites repairA1 ctl bo.dma (fOpBody dat bo.ref bo.dma)
  | .p dat => submitNextPJobWrites repairA1 ctl bo.dma (pOpBody (dat.dat param) bo.ref bo.dma)

/-- `AIP_V20_{F,P}_CHAIN_SIZE`. -/
def chainSizeReg : ChainArg → Nat
  | .f _ _ => 0x240
  | .p _ => 0x39c

/-- Every node lies in the buffer object, and the hardware is told the bytes of just these nodes. -/
def Enclosed (repairA1 : Bool) (param : Vector Nat 9) (bo : BoInfo) (arg : ChainArg) : Prop :=
  (∀ node ∈ arg.nodes repairA1 param bo, node.offset + arg.sizeof ≤ bo.size) ∧
  ∀ ctl, ∀ write ∈ arg.startWrites repairA1 ctl param bo, write.reg = arg.chainSizeReg →
    write.value = (arg.nodes repairA1 param bo).length * arg.sizeof

/-- So many bytes from the address on are the buffer object's. -/
def Within (bo : BoInfo) (arg : ChainArg) (bytes : Nat) : Prop :=
  bo.dma ≤ arg.paddr ∧ arg.paddr + bytes ≤ bo.dma + bo.size

/--
The chain lies in the buffer object, and has a node on the A1 build.

There is also the count that is negative as an `int`, so that the loop writes nothing, and whose
bytes wrap to those of the nodes written without it: none, or the one that ends the chain.
-/
def Fits (repairA1 : Bool) (bo : BoInfo) (arg : ChainArg) : Prop :=
  if repairA1 then
    (1 ≤ arg.nodeNum ∧ arg.Within bo (arg.nodeNum * arg.sizeof)) ∨
      (2 ^ 31 < arg.nodeNum ∧ 2 ^ 29 ∣ arg.nodeNum - 1 ∧ arg.Within bo arg.sizeof)
  else
    arg.nodeNum = 0 ∨ arg.Within bo (arg.nodeNum * arg.sizeof) ∨
      (2 ^ 31 ≤ arg.nodeNum ∧ 2 ^ 29 ∣ arg.nodeNum)

/-- The count and the address are 32-bit words. -/
def Words (arg : ChainArg) : Prop := arg.nodeNum < 2 ^ 32 ∧ arg.paddr < 2 ^ 32

end ChainArg

section counting

variable {nodeNum sizeof memOfst size : Nat}

/-- On T41 the loop runs for every node, unless the count is negative. -/
theorem loopCount_t41 (word : nodeNum < 2 ^ 32) :
    loopCount false nodeNum = if nodeNum < 2 ^ 31 then nodeNum else 0 := by
  -- From 2 ^ 31 on the count is negative as an `int`.
  simp only [loopCount, Bool.false_eq_true, if_false, Int.bmod_def]
  split <;> split <;> omega

/-- On A1 the loop leaves one node out, unless its bound is negative. -/
theorem loopCount_a1 (word : nodeNum < 2 ^ 32) :
    loopCount true nodeNum = if 1 ≤ nodeNum ∧ nodeNum ≤ 2 ^ 31 then nodeNum - 1 else 0 := by
  -- No nodes at all, and more than 2 ^ 31 of them, make the bound negative.
  simp only [loopCount, if_true, Int.bmod_def]
  split <;> split <;> omega

/-- The offsets are those of the loop and, on A1, the one behind them. -/
theorem chainNodes_offsets (repairA1 : Bool) (words last : List (Nat × Nat)) :
    (chainNodes repairA1 sizeof nodeNum memOfst words last).map NodeWrite.offset =
      (List.range (loopCount repairA1 nodeNum + repairA1.toNat)).map
        fun i => (memOfst + i * sizeof) % 2 ^ 32 := by
  -- The node behind the loop has the index at which the loop has stopped.
  cases repairA1 with
  | false => simp [chainNodes, Function.comp_def]
  | true => simp [chainNodes, List.range_succ, Function.comp_def]

/-- A node has the words of the loop, or those of the node behind it. -/
theorem chainNodes_words {repairA1 : Bool} {words last : List (Nat × Nat)} {node : NodeWrite}
    (listed : node ∈ chainNodes repairA1 sizeof nodeNum memOfst words last) :
    node.words = words ∨ node.words = last := by
  -- The loop writes the same words into every node.
  rcases List.mem_append.mp listed with loop | behind
  · obtain ⟨i, -, rfl⟩ := List.mem_map.mp loop
    exact .inl rfl
  · cases repairA1 with
    | false => simp at behind
    | true =>
      rw [List.mem_singleton.mp behind]
      exact .inr rfl

theorem regWords_index {repairA1 : Bool} {base count : Nat} {word : Nat × Nat}
    (member : word ∈ regWords repairA1 base count) : word.1 < 2 * count := by
  obtain ⟨k, below, rfl⟩ := List.mem_map.mp member
  have := List.mem_range.mp below
  simp only
  omega

theorem ctrlWords_index {repairA1 : Bool} {index ctl : Nat} {word : Nat × Nat}
    (member : word ∈ ctrlWords repairA1 index ctl) : word.1 ≤ index + 1 := by
  simp only [ctrlWords, List.mem_cons, List.not_mem_nil, or_false] at member
  rcases member with rfl | rfl
  · exact Nat.le_succ index
  · exact Nat.le_refl _

theorem lastWords_index {repairA1 : Bool} {base index ctl : Nat} {word : Nat × Nat}
    (member : word ∈ lastWords repairA1 base index ctl) : word.1 ≤ index + 1 := by
  rcases List.mem_append.mp member with timeout | ctrl
  · simp only [List.mem_cons, List.not_mem_nil, or_false] at timeout
    rcases timeout with rfl | rfl
    · exact Nat.zero_le _
    · exact Nat.succ_le_succ (Nat.zero_le index)
  · exact ctrlWords_index ctrl

/-- Nodes one behind the other are in a buffer exactly when the bytes of them all are. -/
theorem offsets_inside (positive : 0 < sizeof) (ofst : memOfst < 2 ^ 32) (small : size < 2 ^ 32)
    (count : Nat) :
    (∀ i < count, (memOfst + i * sizeof) % 2 ^ 32 + sizeof ≤ size) ↔
      count = 0 ∨ memOfst + count * sizeof ≤ size := by
  constructor
  · intro inside
    induction count with
    | zero => exact .inl rfl
    | succ count ih =>
      right
      have node := inside count (Nat.lt_succ_self _)
      have before := ih fun i listed => inside i (Nat.lt_succ_of_lt listed)
      -- The nodes before this one end below 2 ^ 32, so its address has not wrapped.
      have start : memOfst + count * sizeof < 2 ^ 32 := by
        rcases before with rfl | fits
        · omega
        · omega
      rw [Nat.mod_eq_of_lt start] at node
      rw [Nat.succ_mul]
      omega
  · rintro (rfl | fits) i listed
    · omega
    · have next : (i + 1) * sizeof ≤ count * sizeof := Nat.mul_le_mul_right _ listed
      rw [Nat.succ_mul] at next
      rw [Nat.mod_eq_of_lt (by omega)]
      omega

/-- The offset of the chain is in the buffer with the chain exactly when the addresses are. -/
theorem memOfst_within {paddr dma bytes : Nat} (word : paddr < 2 ^ 32)
    (inside : dma + size ≤ 2 ^ 32) (some : 0 < bytes) :
    (paddr + neg32 dma) % 2 ^ 32 + bytes ≤ size ↔ dma ≤ paddr ∧ paddr + bytes ≤ dma + size := by
  -- An address below the buffer is far behind its end after the subtraction.
  simp only [neg32]
  constructor
  · intro fits
    omega
  · rintro ⟨low, high⟩
    omega

/-- The bytes of a count wrap to zero exactly for the multiples of 2 ^ 29. -/
theorem bytes_wrap {odd : Nat} (coprime : Nat.Coprime (2 ^ 29) odd) :
    nodeNum * (8 * odd) % 2 ^ 32 = 0 ↔ 2 ^ 29 ∣ nodeNum := by
  rw [← Nat.dvd_iff_mod_eq_zero, show (2 : Nat) ^ 32 = 2 ^ 29 * 8 by norm_num,
    show nodeNum * (8 * odd) = nodeNum * odd * 8 by ring, Nat.mul_dvd_mul_iff_right (by decide)]
  exact Nat.Coprime.dvd_mul_right coprime

/-- The bytes of one node. -/
theorem bytes_wrap_one {odd : Nat} (coprime : Nat.Coprime (2 ^ 29) odd) (few : 8 * odd < 2 ^ 32)
    (some : 1 ≤ nodeNum) :
    nodeNum * (8 * odd) % 2 ^ 32 = 8 * odd ↔ 2 ^ 29 ∣ nodeNum - 1 := by
  rw [← bytes_wrap coprime]
  -- The bytes of the others are what has to wrap to zero.
  have split : nodeNum * (8 * odd) = (nodeNum - 1) * (8 * odd) + 8 * odd := by
    rw [← Nat.succ_mul]
    congr 1
    omega
  rw [split]
  omega

/-- A count of at least 2 ^ 31 has more bytes than a buffer. -/
theorem bytes_large {odd : Nat} (memOfst : Nat) (positive : 0 < odd) (small : size < 2 ^ 32)
    (large : 2 ^ 31 ≤ nodeNum) : ¬ memOfst + nodeNum * (8 * odd) ≤ size := by
  have least : 2 ^ 31 * 8 ≤ nodeNum * (8 * odd) := Nat.mul_le_mul large (by omega)
  omega

/-- On T41 all is well for a chain that fits, and for no nodes whose bytes wrap to none. -/
theorem chain_t41 {odd : Nat} (coprime : Nat.Coprime (2 ^ 29) odd) (positive : 0 < odd)
    (word : nodeNum < 2 ^ 32) (ofst : memOfst < 2 ^ 32) (small : size < 2 ^ 32) :
    ((∀ i < loopCount false nodeNum, (memOfst + i * (8 * odd)) % 2 ^ 32 + 8 * odd ≤ size) ∧
      nodeNum * (8 * odd) % 2 ^ 32 = loopCount false nodeNum * (8 * odd)) ↔
    nodeNum = 0 ∨ memOfst + nodeNum * (8 * odd) ≤ size ∨
      (2 ^ 31 ≤ nodeNum ∧ 2 ^ 29 ∣ nodeNum) := by
  -- The count as an `int` decides whether the loop runs at all.
  rw [offsets_inside (by omega) ofst small, loopCount_t41 word]
  by_cases count : nodeNum < 2 ^ 31
  · -- The chain has as many nodes as it says, and bytes in the buffer do not wrap.
    rw [if_pos count]
    constructor
    · rintro ⟨none | fits, -⟩
      · exact .inl none
      · exact .inr (.inl fits)
    · rintro (rfl | fits | ⟨large, -⟩)
      · exact ⟨.inl rfl, by simp⟩
      · exact ⟨.inr fits, Nat.mod_eq_of_lt (by omega)⟩
      · omega
  · -- No node is written.
    have large := bytes_large memOfst positive small (not_lt.mp count)
    rw [if_neg count, Nat.zero_mul, bytes_wrap coprime]
    constructor
    · rintro ⟨-, wraps⟩
      exact .inr (.inr ⟨not_lt.mp count, wraps⟩)
    · rintro (none | fits | ⟨-, wraps⟩)
      · omega
      · exact absurd fits large
      · exact ⟨.inl rfl, wraps⟩

/-- On A1 all is well for a chain of some nodes that fits, and for one node whose bytes wrap so. -/
theorem chain_a1 {odd : Nat} (coprime : Nat.Coprime (2 ^ 29) odd) (positive : 0 < odd)
    (few : 8 * odd < 2 ^ 32)
    (word : nodeNum < 2 ^ 32) (ofst : memOfst < 2 ^ 32) (small : size < 2 ^ 32) :
    ((∀ i < loopCount true nodeNum + 1, (memOfst + i * (8 * odd)) % 2 ^ 32 + 8 * odd ≤ size) ∧
      nodeNum * (8 * odd) % 2 ^ 32 = (loopCount true nodeNum + 1) * (8 * odd)) ↔
    (1 ≤ nodeNum ∧ memOfst + nodeNum * (8 * odd) ≤ size) ∨
      (2 ^ 31 < nodeNum ∧ 2 ^ 29 ∣ nodeNum - 1 ∧ memOfst + 8 * odd ≤ size) := by
  -- As on T41, with one node more.
  rw [offsets_inside (by omega) ofst small, loopCount_a1 word]
  by_cases count : 1 ≤ nodeNum ∧ nodeNum ≤ 2 ^ 31
  · -- The node behind the loop is the last of the chain.
    have last : nodeNum - 1 + 1 = nodeNum := by omega
    rw [if_pos count, last]
    constructor
    · rintro ⟨none | fits, -⟩
      · omega
      · exact .inl ⟨count.1, fits⟩
    · rintro (⟨-, fits⟩ | ⟨large, -⟩)
      · exact ⟨.inr fits, Nat.mod_eq_of_lt (by omega)⟩
      · omega
  · rw [if_neg count, Nat.zero_add, Nat.one_mul]
    by_cases none : nodeNum = 0
    · -- One node is written for a chain of none.
      subst none
      constructor
      · rintro ⟨-, bytes⟩
        rw [Nat.zero_mul, Nat.zero_mod] at bytes
        omega
      · rintro (⟨some, -⟩ | ⟨large, -⟩)
        · omega
        · omega
    · have large := bytes_large memOfst positive small (by omega : 2 ^ 31 ≤ nodeNum)
      rw [bytes_wrap_one coprime few (by omega)]
      constructor
      · rintro ⟨none' | fits, wraps⟩
        · cases none'
        · exact .inr ⟨by omega, wraps, fits⟩
      · rintro (⟨-, fits⟩ | ⟨-, wraps, fits⟩)
        · exact absurd fits large
        · exact ⟨.inr fits, wraps⟩

end counting

namespace ChainArg

variable {repairA1 : Bool} {param : Vector Nat 9} {bo : BoInfo} {arg : ChainArg}

/-- The offset from which a call writes its nodes. -/
def memOfst (bo : BoInfo) (arg : ChainArg) : Nat := (arg.paddr + neg32 bo.dma) % 2 ^ 32

/-- A node is thirteen or twenty-seven times eight bytes. -/
theorem sizeof_eq (arg : ChainArg) :
    ∃ odd, arg.sizeof = 8 * odd ∧ Nat.Coprime (2 ^ 29) odd ∧ 0 < odd ∧ 8 * odd < 2 ^ 32 := by
  cases arg with
  | f dat name => exact ⟨13, rfl, Nat.Coprime.pow_left 29 (by decide), by decide, by decide⟩
  | p dat => exact ⟨27, rfl, Nat.Coprime.pow_left 29 (by decide), by decide, by decide⟩

/-- The offsets of the nodes of a call. -/
theorem nodes_offsets :
    (arg.nodes repairA1 param bo).map NodeWrite.offset =
      (List.range (loopCount repairA1 arg.nodeNum + repairA1.toNat)).map
        fun i => (arg.memOfst bo + i * arg.sizeof) % 2 ^ 32 := by
  -- Both ops run the same loop.
  cases arg with
  | f dat name => exact chainNodes_offsets repairA1 _ _
  | p dat => exact chainNodes_offsets repairA1 _ _

/-- Every word that is written is a word of its node. -/
theorem words_inside {node : NodeWrite} (listed : node ∈ arg.nodes repairA1 param bo)
    {word : Nat × Nat} (member : word ∈ node.words) : 4 * word.1 + 4 ≤ arg.sizeof := by
  -- The words of a node are given by their indices, up to 25 or 53.
  cases arg with
  | f dat name =>
    simp only [sizeof]
    rcases chainNodes_words listed with same | same
    · rw [same, List.mem_append] at member
      rcases member with reg | ctrl
      · have index := regWords_index reg
        omega
      · have index := ctrlWords_index ctrl
        omega
    · rw [same] at member
      have index := lastWords_index member
      omega
  | p dat =>
    simp only [sizeof]
    rcases chainNodes_words listed with same | same
    · -- The three words between are the mode and the two of the offsets.
      rw [same, List.mem_append, List.mem_append] at member
      rcases member with (reg | call) | ctrl
      · have index := regWords_index reg
        omega
      · simp only [List.mem_cons, List.not_mem_nil, or_false] at call
        rcases call with rfl | rfl | rfl <;> simp
      · have index := ctrlWords_index ctrl
        omega
    · rw [same] at member
      have index := lastWords_index member
      omega

/-- The hardware is told the bytes of the count, on 32 bits. -/
theorem startWrites_size {bytes : Nat} :
    (∀ ctl, ∀ write ∈ arg.startWrites repairA1 ctl param bo, write.reg = arg.chainSizeReg →
      write.value = bytes) ↔ arg.nodeNum * arg.sizeof % 2 ^ 32 = bytes := by
  cases arg with
  | f dat name =>
    simp [startWrites, submitNextFJobWrites, chainSizeReg, fOpBody, nodeNum, sizeof]
  | p dat =>
    -- No parameter register is the one of the chain size.
    have params : ∀ write ∈ paramWrites 0x370 param, write.reg ≠ 0x39c := by
      intro write listed
      simp only [paramWrites, List.mem_map] at listed
      obtain ⟨i, -, rfl⟩ := listed
      have bound := i.isLt
      simp only [ne_eq]
      omega
    constructor
    · intro told
      have listed : ⟨0x39c, dat.nodeNum * 216 % 2 ^ 32⟩ ∈
          (ChainArg.p dat).startWrites repairA1 0 param bo := by
        simp [startWrites, submitNextPJobWrites, pOpBody, SubmitArgP.dat]
      exact told 0 _ listed rfl
    · intro same ctl write listed reg
      simp only [startWrites, submitNextPJobWrites, List.mem_append, List.mem_cons,
        List.not_mem_nil, or_false] at listed
      rcases listed with (rfl | param) | rfl | rfl | rfl | rfl
      · cases reg
      · exact absurd reg (params write param)
      · cases reg
      · cases reg
      · exact same
      · cases reg

/-- The law of a call on the numbers that it reads. -/
theorem enclosed_iff_offsets :
    arg.Enclosed repairA1 param bo ↔
      (∀ i < loopCount repairA1 arg.nodeNum + repairA1.toNat,
        (arg.memOfst bo + i * arg.sizeof) % 2 ^ 32 + arg.sizeof ≤ bo.size) ∧
      arg.nodeNum * arg.sizeof % 2 ^ 32
        = (loopCount repairA1 arg.nodeNum + repairA1.toNat) * arg.sizeof := by
  -- Only the offsets and the number of the nodes matter.
  have length : (arg.nodes repairA1 param bo).length
      = loopCount repairA1 arg.nodeNum + repairA1.toNat := by
    rw [← List.length_map (f := NodeWrite.offset), nodes_offsets, List.length_map,
      List.length_range]
  have inside : (∀ node ∈ arg.nodes repairA1 param bo, node.offset + arg.sizeof ≤ bo.size) ↔
      ∀ ofst ∈ (arg.nodes repairA1 param bo).map NodeWrite.offset, ofst + arg.sizeof ≤ bo.size := by
    simp only [List.forall_mem_map]
  rw [Enclosed, startWrites_size, length, inside, nodes_offsets]
  simp only [List.forall_mem_map, List.mem_range]

/-- A call is all right exactly for a chain that fits. -/
theorem enclosed_iff_fits (words : arg.Words) (inside : bo.dma + bo.size ≤ 2 ^ 32)
    (small : bo.size < 2 ^ 32) : arg.Enclosed repairA1 param bo ↔ arg.Fits repairA1 bo := by
  obtain ⟨odd, size, coprime, positive, few⟩ := arg.sizeof_eq
  have ofst : arg.memOfst bo < 2 ^ 32 := Nat.mod_lt _ (by decide)
  -- The offset is in the buffer where the address is.
  have within (bytes : Nat) (some : 0 < bytes) :
      arg.memOfst bo + bytes ≤ bo.size ↔ arg.Within bo bytes :=
    memOfst_within words.2 inside some
  rw [enclosed_iff_offsets, Fits, size]
  cases repairA1 with
  | false =>
    rw [Bool.toNat_false, Nat.add_zero, chain_t41 coprime positive words.1 ofst small]
    simp only [Bool.false_eq_true, if_false]
    by_cases none : arg.nodeNum = 0
    · simp [none]
    · rw [within _ (Nat.mul_pos (by omega) (by omega))]
  | true =>
    rw [Bool.toNat_true, chain_a1 coprime positive few words.1 ofst small]
    simp only [if_true]
    rw [within (8 * odd) (by omega)]
    by_cases some : 1 ≤ arg.nodeNum
    · rw [within _ (Nat.mul_pos some (by omega))]
    · simp [some]

/-- A call that is accepted has found its buffer object. -/
theorem found_of_accepted {s t : Submitting} {user : UserMem} {kcalloc : Bool} {pid : Nat}
    {seqno : Option Nat} (accepted : s.submit user kcalloc pid arg.submitArg = .returned 0 seqno t) :
    ∃ bo, s.life.bo.handles.find arg.nodeHandle = some bo := by
  cases kcalloc with
  | false => cases arg <;> simp [submitArg, Submitting.submit, Submitting.fOp, Submitting.pOp]
      at accepted
  | true =>
    cases found : s.life.bo.handles.find arg.nodeHandle with
    | some bo => exact ⟨bo, rfl⟩
    | none =>
      -- Without one an F call fails, and a P call does so too or never returns.
      cases arg with
      | f dat name =>
        simp only [nodeHandle] at found
        simp [submitArg, Submitting.submit, Submitting.fOp, found] at accepted
      | p dat =>
        simp only [nodeHandle] at found
        cases copied : user.copyFromUser dat.param 9 with
        | none => simp [submitArg, Submitting.submit, Submitting.pOp, copied] at accepted
        | some words => simp [submitArg, Submitting.submit, Submitting.pOp, copied, found] at accepted

/-- A call that is accepted writes inside its buffer object exactly for a chain that fits in it. -/
theorem enclosed_iff (repairA1 : Bool) (s t : Submitting) (user : UserMem) (kcalloc : Bool)
    (pid : Nat) (seqno : Option Nat) (param : Vector Nat 9) (arg : ChainArg) (words : arg.Words)
    (sizes : ∀ bo ∈ s.life.bo.handles.values, bo.size < 2 ^ 32)
    (accepted : s.submit user kcalloc pid arg.submitArg = .returned 0 seqno t) :
    ∃ bo, s.life.bo.handles.find arg.nodeHandle = some bo ∧
      (arg.Enclosed repairA1 param bo ↔ arg.Fits repairA1 bo) := by
  -- The table knows that the buffer is in 32-bit memory.
  obtain ⟨bo, found⟩ := found_of_accepted accepted
  have member := Idr.mem_values_of_find found
  exact ⟨bo, found, enclosed_iff_fits words (s.life.bo.placed bo member).inside (sizes bo member)⟩

/-- The device with one buffer object of a page. -/
def onePage : Submitting :=
  { Submitting.init with
    life := { Lifetime.init with
      bo := {
        handles := ⟨[(1, ⟨0, 1, 4096, 4096⟩)], by decide, by decide⟩
        nextRef := 1
        distinct := by decide
        placed := by
          intro bo listed
          rw [List.mem_singleton.mp listed]
          exact ⟨by decide, by decide, by decide⟩
        apart := List.pairwise_singleton _ _ } } }

/-- A process whose memory cannot be read. -/
def unreadable : UserMem := ⟨fun _ _ => none, fun _ _ => none⟩

/-- A chain of two nodes in the page, on the A1 build. -/
theorem enclosed_iff_onePage :
    ∃ bo, onePage.life.bo.handles.find 1 = some bo ∧
      ((ChainArg.f ⟨2, 0, 0, 1, 2, 4096⟩ 0).Enclosed true (.replicate 9 0) bo ↔
        (ChainArg.f ⟨2, 0, 0, 1, 2, 4096⟩ 0).Fits true bo) :=
  enclosed_iff true onePage _ unreadable true 1 _ (.replicate 9 0) (.f ⟨2, 0, 0, 1, 2, 4096⟩ 0)
    ⟨by decide, by decide⟩ (by decide) rfl

/-- A chain of no nodes on the A1 build: one node is written, and the hardware is told of none. -/
theorem not_enclosed_empty :
    ∃ t seqno bo,
      onePage.submit unreadable true 1 (.f ⟨2, 0, 0, 1, 0, 4096⟩ 0) = .returned 0 seqno t ∧
      onePage.life.bo.handles.find 1 = some bo ∧
      ¬ (ChainArg.f ⟨2, 0, 0, 1, 0, 4096⟩ 0).Enclosed true (.replicate 9 0) bo := by
  -- The size register gets zero, and there is one node.
  refine ⟨_, _, ⟨0, 1, 4096, 4096⟩, rfl, rfl, ?_⟩
  rintro ⟨-, told⟩
  have size := told 0 ⟨0x240, 0⟩ (by decide) rfl
  exact absurd size (by decide)

end ChainArg

end Aip
