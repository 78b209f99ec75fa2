import Aip.Driver.NodeWrites
import Aip.Lib.Paint
import Aip.Lib.Pieces

/-! What the F and P hardware reads of a chain, and whose words name the registers in it. -/

namespace Aip

/-- The words of the memory by their addresses. -/
abbrev WordMemory := Nat → Nat

/-- The value that a register has been given by some writes. -/
def RegWrite.held (writes : List RegWrite) (reg : Nat) : Nat :=
  ((writes.reverse.find? fun write => write.reg = reg).map RegWrite.value).getD 0

/-- A register that all writes to it give one value holds that value. -/
theorem RegWrite.held_eq {writes : List RegWrite} {reg value : Nat}
    (given : ⟨reg, value⟩ ∈ writes)
    (alike : ∀ write ∈ writes, write.reg = reg → write.value = value) :
    RegWrite.held writes reg = value := by
  cases found : writes.reverse.find? fun write => write.reg = reg with
  | none =>
    -- The write that is given would have been found.
    have away := List.find?_eq_none.mp found ⟨reg, value⟩ (List.mem_reverse.mpr given)
    simp at away
  | some write =>
    have listed := List.mem_reverse.mp (List.mem_of_find?_eq_some found)
    have same : write.reg = reg := by simpa using List.find?_some found
    rw [RegWrite.held, found, Option.map_some, Option.getD_some, alike write listed same]

namespace ChainArg

/-- `AIP_V20_{F,P}_CHAIN_BASE`. -/
def chainBaseReg : ChainArg → Nat
  | .f _ _ => 0x23c
  | .p _ => 0x398

/-- `AIP_V20_{F,P}_CTL`, the first register of the unit. -/
def ctlReg : ChainArg → Nat
  | .f _ _ => 0x200
  | .p _ => 0x300

/-- The stores of a call into the buffer object, at the addresses that the hardware knows. -/
def stores (repairA1 : Bool) (param : Vector Nat 9) (bo : BoInfo) (arg : ChainArg) :
    List (Nat × Nat) :=
  (arg.nodes repairA1 param bo).flatMap fun node =>
    node.words.map fun word => (bo.dma + node.offset + 4 * word.1, word.2)

/-- The values and registers that the unit reads from the memory once it has been started. -/
def fetched (mem : WordMemory) (writes : List RegWrite) (arg : ChainArg) : List (Nat × Nat) :=
  let base := RegWrite.held writes arg.chainBaseReg
  (List.range (RegWrite.held writes arg.chainSizeReg / 8)).map fun k =>
    (mem (base + 8 * k), mem (base + 8 * k + 4))

/-- A value and a register, where nothing stands for a word that the driver leaves to the client. -/
abbrev Slot := Option Nat × Option Nat

/-- The pairs of a node of the call. -/
def slot (repairA1 : Bool) (arg : ChainArg) (k : Nat) : Slot :=
  match arg with
  | .f _ _ =>
    if k = 12 then (some 1, some ((ioBase repairA1 + 0x200) ||| 0x80000000))
    else (none, some (ioBase repairA1 + 0x20c + 4 * k))
  | .p dat =>
    if k = 26 then (some 1, some ((ioBase repairA1 + 0x300) ||| 0x80000000))
    else if k = 25 then (some dat.offset.word, some (ioBase repairA1 + 0x394))
    else (if k = 1 then some dat.mode else none, some (ioBase repairA1 + 0x30c + 4 * k))

/-- The pairs of the node that ends a chain on the A1 build. -/
def lastSlot (repairA1 : Bool) (arg : ChainArg) (k : Nat) : Slot :=
  if k = 0 then (some 2, some (ioBase repairA1 + arg.ctlReg + 0xc))
  else if k = arg.sizeof / 8 - 1 then
    (some 1, some ((ioBase repairA1 + arg.ctlReg) ||| 0x80000000))
  else (none, none)

/-- Whether a node is the one that ends a chain on the A1 build. -/
def isLast (repairA1 : Bool) (arg : ChainArg) (i : Nat) : Bool :=
  repairA1 && i + 1 == arg.nodeNum

/-- The pairs of a node, with the words of the client where the driver leaves them. -/
def nodePairs (repairA1 : Bool) (mem : WordMemory) (arg : ChainArg) (i : Nat) : List (Nat × Nat) :=
  let slot := if arg.isLast repairA1 i then arg.lastSlot repairA1 else arg.slot repairA1
  let place := arg.paddr + i * arg.sizeof
  (List.range (arg.sizeof / 8)).map fun k =>
    ((slot k).1.getD (mem (place + 8 * k)), (slot k).2.getD (mem (place + 8 * k + 4)))

/-- A word names a register of the unit, marked or not. -/
def Owns (repairA1 : Bool) (arg : ChainArg) (word : Nat) : Prop :=
  ioBase repairA1 + arg.ctlReg ≤ word % 2 ^ 31 ∧
    word % 2 ^ 31 < ioBase repairA1 + arg.ctlReg + 0x98

/-- A chain of at least one node in a buffer object in 32-bit memory. -/
structure Placed (bo : BoInfo) (arg : ChainArg) : Prop where
  nonempty : 1 ≤ arg.nodeNum
  within : arg.Within bo (arg.nodeNum * arg.sizeof)
  inside : bo.dma + bo.size ≤ 2 ^ 32
  small : bo.size < 2 ^ 32

section Words

/-- The words of a node are those of its slots. -/
def Fills (words : List (Nat × Nat)) (slot : Nat → Slot) (pairs : Nat) : Prop :=
  ∀ k < pairs, ∀ value, ((2 * k, value) ∈ words ↔ (slot k).1 = some value) ∧
    ((2 * k + 1, value) ∈ words ↔ (slot k).2 = some value)

variable {repairA1 : Bool} {base count index ctl k value : Nat}

/-- The registers of a node are in its odd words. -/
theorem mem_regWords : ((2 * k, value) ∉ regWords repairA1 base count) ∧
    ((2 * k + 1, value) ∈ regWords repairA1 base count ↔
      k < count ∧ ioBase repairA1 + base + 4 * k = value) := by
  simp only [regWords, List.mem_map, List.mem_range, Prod.mk.injEq]
  constructor
  · rintro ⟨n, -, odd, -⟩
    omega
  · constructor
    · rintro ⟨n, below, same, named⟩
      obtain rfl : n = k := by omega
      exact ⟨below, named⟩
    · rintro ⟨below, named⟩
      exact ⟨k, below, rfl, named⟩

/-- The words of an F node. -/
theorem fills_f (repairA1 : Bool) (dat : SubmitF) (name : Nat) :
    Fills (regWords repairA1 0x20c 12 ++ ctrlWords repairA1 24 0x200)
      ((ChainArg.f dat name).slot repairA1) 13 := by
  intro k below value
  simp only [List.mem_append, mem_regWords.1, mem_regWords.2, false_or, ctrlWords, List.mem_cons,
    List.not_mem_nil, or_false, Prod.mk.injEq, slot]
  -- The last pair starts the unit, and the others have a register each.
  by_cases last : k = 12
  · subst last
    simp [eq_comm]
  · have inside : k < 12 := by omega
    simp only [if_neg last, inside, true_and, Option.some.injEq, reduceCtorEq, iff_false]
    constructor
    · omega
    · constructor
      · rintro (named | ⟨same, _⟩ | ⟨same, _⟩)
        · exact named
        · omega
        · omega
      · exact Or.inl

/-- The words of a P node. -/
theorem fills_p (repairA1 : Bool) (dat : SubmitArgP) :
    Fills (regWords repairA1 0x30c 25 ++ [(2, dat.mode), (50, dat.offset.word),
      (51, ioBase repairA1 + 0x394)] ++ ctrlWords repairA1 52 0x300)
      ((ChainArg.p dat).slot repairA1) 27 := by
  intro k below value
  simp only [List.mem_append, mem_regWords.1, mem_regWords.2, false_or, ctrlWords, List.mem_cons,
    List.not_mem_nil, or_false, Prod.mk.injEq, slot]
  -- The mode and the offsets are given by the call, behind the registers of all other values.
  by_cases last : k = 26
  · subst last
    simp [eq_comm]
  · by_cases offset : k = 25
    · subst offset
      simp [eq_comm]
    · have inside : k < 25 := by omega
      by_cases mode : k = 1
      · subst mode
        simp [eq_comm]
      · simp only [if_neg last, if_neg offset, if_neg mode, inside, true_and, Option.some.injEq,
          reduceCtorEq, iff_false]
        constructor
        · omega
        · constructor
          · rintro ((named | ⟨same, _⟩ | ⟨same, _⟩ | ⟨same, _⟩) | ⟨same, _⟩ | ⟨same, _⟩)
            · exact named
            all_goals omega
          · exact fun named => .inl (.inl named)

/-- The words of the node that ends a chain. -/
theorem fills_last (repairA1 : Bool) (arg : ChainArg) {base index : Nat} (pairs : Nat)
    (from' : base = arg.ctlReg + 0xc) (ends : index = 2 * (pairs - 1))
    (size : arg.sizeof / 8 = pairs) (some : 1 < pairs) :
    Fills (lastWords repairA1 base index arg.ctlReg) (arg.lastSlot repairA1) pairs := by
  intro k below value
  subst from' ends
  simp only [lastWords, ctrlWords, List.cons_append, List.nil_append, List.mem_cons,
    List.not_mem_nil, or_false, Prod.mk.injEq, lastSlot, size]
  generalize ioBase repairA1 + arg.ctlReg ||| 0x80000000 = started
  by_cases first : k = 0
  · subst first
    simp only [if_true, Option.some.injEq, ← Nat.add_assoc, true_and, Nat.mul_zero, Nat.zero_add]
    refine ⟨⟨?_, ?_⟩, ?_, ?_⟩ <;> intro given <;> omega
  · by_cases last : k = pairs - 1
    · subst last
      simp only [if_neg first, if_true, Option.some.injEq, true_and]
      refine ⟨⟨?_, ?_⟩, ?_, ?_⟩ <;> intro given <;> omega
    · simp only [if_neg first, if_neg last, reduceCtorEq, iff_false, false_and, false_or]
      constructor <;> intro given <;> omega

end Words

section Memory

variable {repairA1 : Bool} {param : Vector Nat 9} {bo : BoInfo} {arg : ChainArg}
  {mem : WordMemory} {words last : List (Nat × Nat)} {i j : Nat}

/-- A loop over the nodes and the one behind it are one loop, in which that one is the last. -/
theorem chainNodes_eq {sizeof nodeNum memOfst : Nat} (some : 1 ≤ nodeNum)
    (small : nodeNum < 2 ^ 31) :
    chainNodes repairA1 sizeof nodeNum memOfst words last =
      (List.range nodeNum).map fun i =>
        ⟨(memOfst + i * sizeof) % 2 ^ 32, if repairA1 && i + 1 == nodeNum then last else words⟩ := by
  cases repairA1 with
  | false =>
    have loop : loopCount false nodeNum = nodeNum := by
      rw [loopCount_t41 (by omega), if_pos small]
    simp [chainNodes, loop]
  | true =>
    obtain ⟨n, rfl⟩ : ∃ n, nodeNum = n + 1 := ⟨nodeNum - 1, by omega⟩
    have loop : loopCount true (n + 1) = n := by
      rw [loopCount_a1 (by omega), if_pos (by omega), Nat.add_sub_cancel]
    rw [List.range_succ, List.map_append, List.map_singleton]
    simp only [chainNodes, loop, if_true, Bool.true_and, beq_self_eq_true]
    congr 1
    -- No node of the loop is the last one.
    refine List.map_congr_left fun i below => ?_
    have less := List.mem_range.mp below
    simp [show i ≠ n by omega]

/-- A chain in a buffer object is not so long that the count is negative as an `int`. -/
theorem Placed.count (placed : arg.Placed bo) : arg.nodeNum < 2 ^ 31 ∧ 8 ≤ arg.sizeof ∧
    arg.nodeNum * arg.sizeof < 2 ^ 32 := by
  have bytes : arg.nodeNum * arg.sizeof ≤ bo.size := by
    have below := placed.within
    simp only [Within] at below
    omega
  have size : 8 ≤ arg.sizeof := by cases arg <;> simp [sizeof]
  have least := Nat.mul_le_mul_left arg.nodeNum size
  have small := placed.small
  exact ⟨by omega, size, by omega⟩

/-- The nodes of a chain, each with the words of its slots, at its place. -/
theorem Placed.nodes_eq (placed : arg.Placed bo) : ∃ words last,
    Fills words (arg.slot repairA1) (arg.sizeof / 8) ∧
    Fills last (arg.lastSlot repairA1) (arg.sizeof / 8) ∧
    arg.nodes repairA1 param bo = (List.range arg.nodeNum).map fun i =>
      ⟨(arg.memOfst bo + i * arg.sizeof) % 2 ^ 32, if arg.isLast repairA1 i then last else words⟩ := by
  have count := placed.count
  have some := placed.nonempty
  cases arg with
  | f dat name =>
    have pairs : (ChainArg.f dat name).sizeof / 8 = 13 := by simp [sizeof]
    have ends : Fills (lastWords repairA1 0x20c 24 0x200)
        ((ChainArg.f dat name).lastSlot repairA1) 13 :=
      fills_last repairA1 (.f dat name) 13 rfl rfl pairs (by decide)
    rw [pairs]
    exact ⟨_, _, fills_f repairA1 dat name, ends, chainNodes_eq some count.1⟩
  | p dat =>
    have pairs : (ChainArg.p dat).sizeof / 8 = 27 := by simp [sizeof]
    have ends : Fills (lastWords repairA1 0x30c 52 0x300)
        ((ChainArg.p dat).lastSlot repairA1) 27 :=
      fills_last repairA1 (.p dat) 27 rfl rfl pairs (by decide)
    rw [pairs]
    exact ⟨_, _, fills_p repairA1 dat, ends, chainNodes_eq some count.1⟩

/-- A node is written where the hardware will read it. -/
theorem Placed.node_place (placed : arg.Placed bo) (below : i < arg.nodeNum) :
    bo.dma + (arg.memOfst bo + i * arg.sizeof) % 2 ^ 32 = arg.paddr + i * arg.sizeof := by
  have within := placed.within
  have inside := placed.inside
  have small := placed.small
  have next : (i + 1) * arg.sizeof ≤ arg.nodeNum * arg.sizeof := Nat.mul_le_mul_right _ below
  have size := placed.count.2.1
  rw [Nat.succ_mul] at next
  simp only [Within] at within
  simp only [memOfst, neg32]
  omega

/-- A word of a node is what the driver stores in it, or what stood there before. -/
theorem Placed.read_word (placed : arg.Placed bo) (mem : WordMemory)
    (nodes : arg.nodes repairA1 param bo = (List.range arg.nodeNum).map fun i =>
      ⟨(arg.memOfst bo + i * arg.sizeof) % 2 ^ 32, if arg.isLast repairA1 i then last else words⟩)
    (below : i < arg.nodeNum) (inside : 4 * j < arg.sizeof) {word : Option Nat}
    (filled : ∀ value, (j, value) ∈ (if arg.isLast repairA1 i then last else words) ↔
      word = some value) :
    Paint.paint mem (arg.stores repairA1 param bo) (arg.paddr + i * arg.sizeof + 4 * j) =
      word.getD (mem (arg.paddr + i * arg.sizeof + 4 * j)) := by
  -- A store to the address is one of the word at hand.
  have alone : ∀ store ∈ arg.stores repairA1 param bo,
      store.1 = arg.paddr + i * arg.sizeof + 4 * j → word = some store.2 := by
    intro store member here
    obtain ⟨node, listed, inNode⟩ := List.mem_flatMap.mp member
    obtain ⟨at', stored, rfl⟩ := List.mem_map.mp inNode
    have short := words_inside listed stored
    rw [nodes] at listed
    obtain ⟨i', range, rfl⟩ := List.mem_map.mp listed
    have less := List.mem_range.mp range
    simp only [placed.node_place less] at here
    -- Two nodes do not overlap, so the node is the same one.
    have same : i' = i := by
      rcases Nat.lt_trichotomy i' i with before | same | behind
      · have gap := Nat.mul_le_mul_right arg.sizeof (show i' + 1 ≤ i from before)
        rw [Nat.succ_mul] at gap
        omega
      · exact same
      · have gap := Nat.mul_le_mul_right arg.sizeof (show i + 1 ≤ i' from behind)
        rw [Nat.succ_mul] at gap
        omega
    subst same
    have word' : at'.1 = j := by omega
    refine (filled _).mp ?_
    rw [← word']
    exact stored
  cases word with
  | none =>
    refine Paint.paint_untouched fun store member here => ?_
    cases alone store member here
  | some value =>
    refine Paint.paint_uniform ?_ fun store member here => ?_
    · have stored := (filled value).mpr rfl
      refine ⟨(arg.paddr + i * arg.sizeof + 4 * j, value), ?_, rfl⟩
      have listed : ⟨(arg.memOfst bo + i * arg.sizeof) % 2 ^ 32,
          if arg.isLast repairA1 i then last else words⟩ ∈ arg.nodes repairA1 param bo := by
        rw [nodes]
        exact List.mem_map.mpr ⟨i, List.mem_range.mpr below, rfl⟩
      refine List.mem_flatMap.mpr ⟨_, listed, List.mem_map.mpr ⟨(j, value), stored, ?_⟩⟩
      simp only [placed.node_place below]
    · exact (Option.some.inj (alone store member here)).symm

/-- The registers of the chain hold its address and its size. -/
theorem Placed.held (placed : arg.Placed bo) (ctl : Nat) :
    RegWrite.held (arg.startWrites repairA1 ctl param bo) arg.chainBaseReg = arg.paddr ∧
      RegWrite.held (arg.startWrites repairA1 ctl param bo) arg.chainSizeReg =
        arg.nodeNum * arg.sizeof := by
  have bytes := placed.count.2.2
  have within := placed.within
  have inside := placed.inside
  -- The offset is taken from the same address that is added again at the start.
  have base : (bo.dma + arg.memOfst bo) % 2 ^ 32 = arg.paddr := by
    simp only [Within] at within
    have first := Nat.mul_le_mul placed.nonempty placed.count.2.1
    simp only [memOfst, neg32]
    omega
  have size : arg.nodeNum * arg.sizeof % 2 ^ 32 = arg.nodeNum * arg.sizeof :=
    Nat.mod_eq_of_lt bytes
  have told := (@startWrites_size repairA1 param bo arg _).mpr size ctl
  cases arg with
  | f dat name =>
    have base : (bo.dma + (fOpBody dat bo.ref bo.dma).memOfst) % 2 ^ 32 = dat.paddr := base
    refine ⟨RegWrite.held_eq ?_ ?_, RegWrite.held_eq ?_ told⟩
    · rw [paddr, ← base]
      simp [startWrites, submitNextFJobWrites, chainBaseReg]
    · simpa [startWrites, submitNextFJobWrites, chainBaseReg, paddr] using base
    · rw [← size]
      simp [startWrites, submitNextFJobWrites, chainSizeReg, fOpBody, nodeNum, sizeof]
  | p dat =>
    have base : (bo.dma + (pOpBody (dat.dat param) bo.ref bo.dma).memOfst) % 2 ^ 32 = dat.paddr :=
      base
    -- No parameter register is the one of the chain's address.
    have params : ∀ write ∈ paramWrites 0x370 param, write.reg ≠ 0x398 := by
      intro write listed
      obtain ⟨i, -, rfl⟩ := List.mem_map.mp listed
      have bound := i.isLt
      simp only [ne_eq]
      omega
    refine ⟨RegWrite.held_eq ?_ ?_, RegWrite.held_eq ?_ told⟩
    · rw [paddr, ← base]
      simp [startWrites, submitNextPJobWrites, chainBaseReg]
    · intro write listed reg
      simp only [startWrites, submitNextPJobWrites, List.mem_append, List.mem_cons,
        List.not_mem_nil, or_false] at listed
      rcases listed with (rfl | param) | rfl | rfl | rfl | rfl
      · cases reg
      · exact absurd reg (params write param)
      · cases reg
      · exact base
      · cases reg
      · cases reg
    · rw [← size]
      simp [startWrites, submitNextPJobWrites, chainSizeReg, pOpBody, nodeNum, sizeof,
        SubmitArgP.dat]

/-- The unit reads the pairs of the nodes, one node behind the other. -/
theorem Placed.fetched_eq (placed : arg.Placed bo) (ctl : Nat) :
    arg.fetched (Paint.paint mem (arg.stores repairA1 param bo))
        (arg.startWrites repairA1 ctl param bo) =
      (List.range arg.nodeNum).flatMap (arg.nodePairs repairA1 mem) := by
  obtain ⟨base, size⟩ := @Placed.held repairA1 param bo arg placed ctl
  obtain ⟨odd, eight, _, positive, _⟩ := arg.sizeof_eq
  obtain ⟨words, last, fills, ends, nodes⟩ := @Placed.nodes_eq repairA1 param bo arg placed
  have pairs : arg.sizeof / 8 = odd := by omega
  have count : arg.nodeNum * arg.sizeof / 8 = arg.nodeNum * odd := by
    rw [eight, ← Nat.mul_assoc, Nat.mul_comm _ 8, Nat.mul_assoc, Nat.mul_div_cancel_left _ (by decide)]
  simp only [fetched, base, size, count]
  -- The pairs are taken node by node.
  rw [← Pieces.flatMap_pieces _ (fun i => i * odd) (Nat.zero_mul odd) fun i _ => Nat.succ_mul i odd]
  refine List.flatMap_congr fun i range => ?_
  have below := List.mem_range.mp range
  simp only [nodePairs, pairs]
  refine List.map_congr_left fun k inside => ?_
  have less := List.mem_range.mp inside
  have filled : Fills (if arg.isLast repairA1 i then last else words)
      (if arg.isLast repairA1 i then arg.lastSlot repairA1 else arg.slot repairA1) odd := by
    rw [← pairs]
    split
    · exact ends
    · exact fills
  have place : arg.paddr + 8 * (i * odd + k) = arg.paddr + i * arg.sizeof + 4 * (2 * k) := by
    rw [eight, Nat.mul_add, ← Nat.mul_assoc, Nat.mul_comm 8 i, Nat.mul_assoc]
    omega
  have first := placed.read_word mem nodes below (by omega : 4 * (2 * k) < arg.sizeof)
    fun value => (filled k less value).1
  have second := placed.read_word mem nodes below (by omega : 4 * (2 * k + 1) < arg.sizeof)
    fun value => (filled k less value).2
  rw [place, first, show arg.paddr + i * arg.sizeof + 4 * (2 * k) + 4 =
    arg.paddr + i * arg.sizeof + 4 * (2 * k + 1) by omega, second]
  have here : 4 * (2 * k) = 8 * k := by omega
  have behind : 4 * (2 * k + 1) = 8 * k + 4 := by omega
  rw [here, behind, Nat.add_assoc _ (8 * k) 4]

/-- Behind the mark in its highest bit a word has the address of a register. -/
theorem marked_mod (repairA1 : Bool) (arg : ChainArg) :
    ((ioBase repairA1 + arg.ctlReg) ||| 0x80000000) % 2 ^ 31 = ioBase repairA1 + arg.ctlReg := by
  cases repairA1 <;> cases arg <;> simp [ioBase, ctlReg]

/-- The registers of a unit begin with the one that starts it. -/
theorem owns_from (repairA1 : Bool) (arg : ChainArg) {ofst : Nat} (near : ofst < 0x98) :
    arg.Owns repairA1 (ioBase repairA1 + (arg.ctlReg + ofst)) := by
  have base : ioBase repairA1 ≤ 0x13090000 := by cases repairA1 <;> decide
  have ctl : arg.ctlReg ≤ 0x300 := by cases arg <;> simp [ctlReg]
  unfold Owns
  rw [Nat.mod_eq_of_lt (by omega)]
  omega

/-- The word that starts a node names the unit's own register. -/
theorem owns_marked (repairA1 : Bool) (arg : ChainArg) :
    arg.Owns repairA1 ((ioBase repairA1 + arg.ctlReg) ||| 0x80000000) := by
  unfold Owns
  rw [marked_mod]
  omega

/-- Every slot of a node has a register of the unit. -/
theorem slot_owns (repairA1 : Bool) (arg : ChainArg) {k : Nat} (below : k < arg.sizeof / 8) :
    ∃ reg, (arg.slot repairA1 k).2 = some reg ∧ arg.Owns repairA1 reg := by
  cases arg with
  | f dat name =>
    have less : k < 13 := by simpa [sizeof] using below
    by_cases last : k = 12
    · refine ⟨_, ?_, owns_marked repairA1 (.f dat name)⟩
      rw [slot, if_pos last]
      rfl
    · refine ⟨_, by rw [slot, if_neg last], ?_⟩
      rw [Nat.add_assoc, show 0x20c + 4 * k = 0x200 + (0xc + 4 * k) by omega]
      exact owns_from repairA1 (.f dat name) (by omega)
  | p dat =>
    have less : k < 27 := by simpa [sizeof] using below
    by_cases last : k = 26
    · refine ⟨_, ?_, owns_marked repairA1 (.p dat)⟩
      rw [slot, if_pos last]
      rfl
    · by_cases offset : k = 25
      · refine ⟨_, by rw [slot, if_neg last, if_pos offset], ?_⟩
        exact @owns_from repairA1 (.p dat) 0x94 (by decide)
      · refine ⟨_, by rw [slot, if_neg last, if_neg offset], ?_⟩
        rw [Nat.add_assoc, show 0x30c + 4 * k = 0x300 + (0xc + 4 * k) by omega]
        exact owns_from repairA1 (.p dat) (by omega)

/-- A node that does not end a chain names the unit's registers, whatever the client has written. -/
theorem nodePairs_owns (mem : WordMemory) (inner : arg.isLast repairA1 i = false)
    {pair : Nat × Nat} (member : pair ∈ arg.nodePairs repairA1 mem i) :
    arg.Owns repairA1 pair.2 := by
  simp only [nodePairs, inner, Bool.false_eq_true, if_false] at member
  obtain ⟨k, range, rfl⟩ := List.mem_map.mp member
  obtain ⟨reg, named, owned⟩ := slot_owns repairA1 arg (List.mem_range.mp range)
  simp only [named, Option.getD_some]
  exact owned

/-- The node that ends a chain does so where the client's own words do. -/
theorem nodePairs_last (mem : WordMemory) (last : arg.isLast repairA1 i = true)
    (two : 2 ≤ arg.sizeof / 8) :
    (∀ pair ∈ arg.nodePairs repairA1 mem i, arg.Owns repairA1 pair.2) ↔
      ∀ k, 0 < k → k + 1 < arg.sizeof / 8 → arg.Owns repairA1
        (mem (arg.paddr + i * arg.sizeof + 8 * k + 4)) := by
  simp only [nodePairs, last, if_true, List.forall_mem_map, List.mem_range]
  constructor
  · intro owned k first inner
    have here := owned k (by omega)
    rw [lastSlot, if_neg (by omega), if_neg (by omega)] at here
    exact here
  · intro owned k below
    by_cases first : k = 0
    · rw [lastSlot, if_pos first, Nat.add_assoc]
      exact owns_from repairA1 arg (by decide)
    · by_cases marked : k = arg.sizeof / 8 - 1
      · rw [lastSlot, if_neg first, if_pos marked]
        exact owns_marked repairA1 arg
      · rw [lastSlot, if_neg first, if_neg marked]
        exact owned k (by omega) (by omega)

end Memory

/--
After a call has filled in the nodes of its chain, the unit reads from the memory, for every node,
the registers in the order of the structure, with the values that the client has put there, and on
the A1 build the node that ends the chain. All words of registers name registers of the unit on
T41, whatever the client has written; on A1 they do so when the client's own words do that stand in
the last node.
-/
theorem chain_fetched (repairA1 : Bool) (param : Vector Nat 9) (bo : BoInfo) (arg : ChainArg)
    (placed : arg.Placed bo) (ctl : Nat) (mem : WordMemory) :
    let pairs := arg.fetched (Paint.paint mem (arg.stores repairA1 param bo))
      (arg.startWrites repairA1 ctl param bo)
    pairs = (List.range arg.nodeNum).flatMap (arg.nodePairs repairA1 mem) ∧
      ((∀ pair ∈ pairs, arg.Owns repairA1 pair.2) ↔ repairA1 = false ∨
        ∀ k, 0 < k → k + 1 < arg.sizeof / 8 → arg.Owns repairA1
          (mem (arg.paddr + (arg.nodeNum - 1) * arg.sizeof + 8 * k + 4))) := by
  intro pairs
  have read : pairs = (List.range arg.nodeNum).flatMap (arg.nodePairs repairA1 mem) :=
    placed.fetched_eq ctl
  have two : 2 ≤ arg.sizeof / 8 := by cases arg <;> simp [sizeof]
  refine ⟨read, ?_⟩
  have split : (∀ pair ∈ pairs, arg.Owns repairA1 pair.2) ↔
      ∀ i < arg.nodeNum, ∀ pair ∈ arg.nodePairs repairA1 mem i, arg.Owns repairA1 pair.2 := by
    rw [read]
    constructor
    · intro owned i below pair member
      exact owned pair (List.mem_flatMap.mpr ⟨i, List.mem_range.mpr below, member⟩)
    · intro owned pair member
      obtain ⟨i, range, inside⟩ := List.mem_flatMap.mp member
      exact owned i (List.mem_range.mp range) pair inside
  rw [split]
  have some := placed.nonempty
  cases repairA1 with
  | false =>
    refine iff_of_true (fun i _ pair member => ?_) (.inl rfl)
    exact nodePairs_owns mem rfl member
  | true =>
    have ends : arg.isLast true (arg.nodeNum - 1) = true := by
      simp [isLast, Nat.sub_add_cancel some]
    rw [← nodePairs_last mem ends two]
    constructor
    · intro owned
      exact .inr (owned _ (by omega))
    · rintro (none | owned) i below
      · cases none
      · by_cases last : i = arg.nodeNum - 1
        · rw [last]
          exact owned
        · have inner : arg.isLast true i = false := by
            simp only [isLast, Bool.true_and, beq_eq_false_iff_ne]
            omega
          exact fun pair member => nodePairs_owns mem inner member

/-- Two nodes in a page of zeros, on the A1 build: the last one names no registers of the unit. -/
theorem chain_fetched_onePage :
    let arg := ChainArg.f ⟨2, 0, 0, 1, 2, 4096⟩ 0
    let bo : BoInfo := ⟨0, 1, 4096, 4096⟩
    let pairs := arg.fetched (Paint.paint (fun _ => 0) (arg.stores true (.replicate 9 0) bo))
      (arg.startWrites true 0 (.replicate 9 0) bo)
    pairs = (List.range 2).flatMap (arg.nodePairs true fun _ => 0) ∧
      ¬ ∀ pair ∈ pairs, arg.Owns true pair.2 := by
  obtain ⟨read, owned⟩ := chain_fetched true (.replicate 9 0) ⟨0, 1, 4096, 4096⟩
    (.f ⟨2, 0, 0, 1, 2, 4096⟩ 0) ⟨by decide, ⟨by decide, by decide⟩, by decide, by decide⟩ 0
    fun _ => 0
  refine ⟨read, fun all => ?_⟩
  rcases owned.mp all with none | words
  · cases none
  · exact absurd (words 1 (by decide) (by decide)).1 (by decide)

end ChainArg

end Aip
