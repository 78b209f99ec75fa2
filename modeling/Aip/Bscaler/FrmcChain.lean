import Aip.Bscaler.Frmc

/-! A chain of register writes against the registers written directly. -/

namespace Aip.Bscaler

section Bits

variable {a b m mask : UInt32}

/-- A mask is taken of each part of a word. -/
theorem or_masked : (a ||| b) &&& mask = a &&& mask ||| b &&& mask := by
  rw [← UInt32.toBitVec_inj]
  exact BitVec.and_or_distrib_right

/-- A field of a word has no bits apart from its own. -/
theorem field_free {k : UInt32} (apart : m <<< k &&& mask = 0) : (a &&& m) <<< k &&& mask = 0 := by
  rw [UInt32.shiftLeft_and, UInt32.and_assoc, apart, UInt32.and_zero]

/-- A field of a word has all its own bits. -/
theorem field_kept {k : UInt32} (own : m <<< k &&& mask = m <<< k) :
    (a &&& m) <<< k &&& mask = (a &&& m) <<< k := by
  rw [UInt32.shiftLeft_and, UInt32.and_assoc, own]

/-- Two parts without a bit make a word without it. -/
theorem or_free (left : a &&& mask = 0) (right : b &&& mask = 0) : (a ||| b) &&& mask = 0 := by
  rw [or_masked, left, right, UInt32.zero_or]

end Bits

section Chain

variable {writer : Writer} {writes more : List RegWrite} {write : RegWrite} {tm : UInt32}
  {place : Nat}

theorem writeAll_append : writer.writeAll (writes ++ more) = (writer.writeAll writes).writeAll more :=
  List.foldl_append ..

/-- A chain gets two words longer with each write. -/
theorem writeAll_addr : (writer.writeAll writes).addr = writer.addr + 2 * writes.length := by
  -- The first write moves the pointer for the rest.
  induction writes generalizing writer with
  | nil => rfl
  | cons write writes ih =>
    have rest : ((writer.writeChain write 0).writeAll writes).addr = _ := ih
    refine rest.trans ?_
    simp only [Writer.writeChain, List.length_cons]
    omega

/-- Its length grows by eight bytes with each write. -/
theorem writeAll_len : (writer.writeAll writes).len = writer.len + 8 * writes.length.toUInt32 := by
  induction writes generalizing writer with
  | nil => simp [Writer.writeAll]
  | cons write writes ih =>
    have rest : ((writer.writeChain write 0).writeAll writes).len = _ := ih
    refine rest.trans ?_
    have one : (writes.length + 1).toUInt32 = writes.length.toUInt32 + 1 := by
      simp [Nat.toUInt32_eq, UInt32.ofNat_add]
    simp only [Writer.writeChain, List.length_cons, one, UInt32.mul_add, UInt32.mul_one,
      UInt32.add_assoc]
    rw [UInt32.add_comm 8]

/-- A write touches the two words at the pointer. -/
theorem writeChain_outside (outside : place < writer.addr ∨ writer.addr + 2 ≤ place) :
    (writer.writeChain write tm).mem place = writer.mem place := by
  simp only [Writer.writeChain]
  rw [Function.update_of_ne (by omega), Function.update_of_ne (by omega)]

/-- Several writes touch only what is between the two pointers. -/
theorem writeAll_outside
    (outside : place < writer.addr ∨ writer.addr + 2 * writes.length ≤ place) :
    (writer.writeAll writes).mem place = writer.mem place := by
  induction writes generalizing writer with
  | nil => rfl
  | cons write writes ih =>
    rw [List.length_cons] at outside
    have rest : ((writer.writeChain write 0).writeAll writes).mem place =
        (writer.writeChain write 0).mem place := by
      apply ih
      simp only [Writer.writeChain]
      omega
    exact rest.trans (writeChain_outside (by omega))

/-- A replay reads only its own pairs. -/
theorem replay_congr {mem mem' : Nat → UInt32} {addr pairs : Nat}
    (same : ∀ place, addr ≤ place → place < addr + 2 * pairs → mem' place = mem place) :
    replay mem' addr pairs = replay mem addr pairs := by
  induction pairs generalizing addr with
  | zero => rfl
  | succ pairs ih =>
    rw [replay, replay, same addr (by omega) (by omega), same (addr + 1) (by omega) (by omega),
      ih fun place first last => same place (by omega) (by omega)]

/-- A replay of two parts is that of the one and then of the other. -/
theorem replay_add {mem : Nat → UInt32} {addr pairs more : Nat} :
    replay mem addr (pairs + more) = replay mem addr pairs ++ replay mem (addr + 2 * pairs) more := by
  induction pairs generalizing addr with
  | zero => simp [replay]
  | succ pairs ih =>
    have next : addr + 2 + 2 * pairs = addr + 2 * (pairs + 1) := by omega
    rw [Nat.add_right_comm, replay, replay, ih, next, List.cons_append]

/-- One write is replayed as itself, with or without the bit of the last one. -/
theorem replay_writeChain (register : write.reg &&& 0x7FFFFFFF = write.reg)
    (bit : tm <<< 31 &&& 0x7FFFFFFF = 0) :
    replay (writer.writeChain write tm).mem writer.addr 1 = [write] := by
  have value : (writer.writeChain write tm).mem writer.addr = write.val := by
    simp only [Writer.writeChain]
    rw [Function.update_of_ne (by omega), Function.update_self]
  have register' : (writer.writeChain write tm).mem (writer.addr + 1) &&& 0x7FFFFFFF =
      write.reg := by
    simp only [Writer.writeChain, Function.update_self]
    rw [or_masked, bit, register, UInt32.zero_or]
  rw [replay, replay, value, register']

/-- A chain is replayed as the writes it is made of. -/
theorem replay_writeAll (registers : ∀ write ∈ writes, write.reg &&& 0x7FFFFFFF = write.reg) :
    replay (writer.writeAll writes).mem writer.addr writes.length = writes := by
  induction writes generalizing writer with
  | nil => rfl
  | cons write writes ih =>
    have later : replay ((writer.writeChain write 0).writeAll writes).mem (writer.addr + 2)
        writes.length = writes :=
      ih fun other member => registers other (List.mem_cons_of_mem write member)
    -- The later writes leave the first pair alone.
    have first : replay ((writer.writeChain write 0).writeAll writes).mem writer.addr 1 = [write] := by
      refine (replay_congr fun place _ last => ?_).trans
        (@replay_writeChain writer write 0 (registers write List.mem_cons_self) (by decide))
      exact writeAll_outside (.inl (by simp only [Writer.writeChain]; omega))
    have split := @replay_add ((writer.writeChain write 0).writeAll writes).mem writer.addr 1
      writes.length
    rw [List.length_cons, Nat.add_comm]
    exact split.trans (by rw [first, later, List.singleton_append])

end Chain

section Words

variable (cfg : HwOnceCfg)

/-- The addresses of the destination are there for as many boxes as the arrays hold. -/
theorem physDstBases_some (platform : Platform) {boxNum : Nat} (fits : boxNum ≤ 64) :
    ∃ bases, cfg.physDstBases platform boxNum = some bases ∧ bases.length = boxNum := by
  have each : ∀ i ∈ List.range boxNum, ∃ base, (if inside : i < 64 then
      some (platform.physDst cfg.obufcBus (cfg.dstBase ⟨i, inside⟩)) else none) = some base := by
    intro i member
    have inside : i < 64 := by
      have := List.mem_range.mp member
      omega
    exact ⟨_, dif_pos inside⟩
  obtain ⟨bases, found⟩ := Matching.mapM_exists each
  exact ⟨bases, found, by simpa using (Matching.forall₂_mapM found).length_eq.symm⟩

/-- The extreme points are there for as many columns as a box has. -/
theorem extremeWords_some (fits : cfg.dstBoxW ≤ 64) :
    ∃ words, cfg.extremeWords = some words ∧ words.length = (cfg.dstBoxW.toNat + 3) / 4 := by
  have columns : cfg.dstBoxW.toNat ≤ 64 := fits
  have each : ∀ k ∈ List.range ((cfg.dstBoxW.toNat + 3) / 4), ∃ word,
      cfg.extremeWord (4 * k) = some word := by
    intro k member
    have inside : 4 * k + 3 < 64 := by
      have := List.mem_range.mp member
      omega
    exact ⟨_, dif_pos inside⟩
  obtain ⟨words, found⟩ := Matching.mapM_exists each
  exact ⟨words, found, by simpa using (Matching.forall₂_mapM found).length_eq.symm⟩

/-- The mode has room for the gain. -/
theorem modeWord_free : cfg.modeWord &&& 0x70000 = 0 := by
  have flag (b : Bool) (k : UInt32) (low : k = 1 ∨ k = 2) :
      (if b then (1 : UInt32) else 0) <<< k &&& 0x70000 = 0 := by
    rcases low with rfl | rfl <;> cases b <;> decide
  have format : (cfg.srcFormat &&& 1) <<< 0 &&& 0x70000 = 0 := field_free (by decide)
  rw [UInt32.shiftLeft_zero] at format
  unfold HwOnceCfg.modeWord
  exact or_free (or_free (or_free (or_free (or_free format (flag _ _ (.inl rfl)))
    (flag _ _ (.inr rfl))) (field_free (by decide))) (field_free (by decide))) (field_free (by decide))

/-- A gain shows in the mode. -/
theorem modeWord_gained_iff : cfg.modeWord = cfg.gainedMode ↔ cfg.yGainExp &&& 7 = 0 := by
  constructor
  · intro same
    -- The three bits of the gain are looked at.
    have bits := congrArg (· &&& 0x70000) same
    have own := @field_kept cfg.yGainExp 7 0x70000 16 (by decide)
    simp only [HwOnceCfg.gainedMode, or_masked, modeWord_free, own, UInt32.zero_or] at bits
    have small : (cfg.yGainExp &&& 7).toNat ≤ 7 := by
      rw [UInt32.toNat_and]
      exact Nat.and_le_right
    generalize cfg.yGainExp &&& 7 = gain at bits small ⊢
    have shifted := congrArg UInt32.toNat bits
    simp only [UInt32.toNat_shiftLeft, UInt32.reduceToNat, Nat.shiftLeft_eq, Nat.reduceMod,
      Nat.reducePow] at shifted
    rw [← UInt32.toNat_inj]
    change gain.toNat = 0
    omega
  · intro none
    rw [HwOnceCfg.gainedMode, none]
    simp

/-- A destination in the reserved memory shows in a control word that is not masked. -/
theorem ctrlWord_iff {rest : UInt32} (bus : DataLocate) (free : rest &&& 0x2000 = 0) :
    (bus.code &&& 1) <<< 12 ||| rest = bus.code <<< 12 ||| rest ↔ bus ≠ .rmem := by
  cases bus with
  | nmem => exact iff_of_true rfl (by decide)
  | oram => exact iff_of_true rfl (by decide)
  | rmem =>
    refine iff_of_false (fun same => ?_) (by simp)
    have bits := congrArg (· &&& 0x2000) same
    simp only [or_masked, free] at bits
    revert bits
    decide

end Words

/-- The writes in front of the control register, which the chain shares with the registers. -/
def HwOnceCfg.front (cfg : HwOnceCfg) (platform : Platform) (physDstBase : List UInt32)
    (mode : UInt32) (extremes : List UInt32) : List RegWrite :=
  [⟨frmcYbaseSrc, platform.physSrc cfg.ibufcBus cfg.srcBase0⟩,
      ⟨frmcCbaseSrc, platform.physSrc cfg.ibufcBus cfg.srcBase1⟩] ++
    physDstBase.map (⟨frmcBaseDst, ·⟩) ++
    [⟨frmcBoxBase, platform.physBoxes cfg.boxBus cfg.boxesInfo⟩, ⟨frmcMode, mode⟩] ++
    cfg.boxWrites ++ extremes.map (⟨frmcExtremeY, ·⟩)

/-- The registers in front of the control register. -/
def frontRegs : List UInt32 :=
  [frmcYbaseSrc, frmcCbaseSrc, frmcBaseDst, frmcBoxBase, frmcMode, frmcWhSrc, frmcPsSrc, frmcWhDst,
    frmcPsDst, frmcMono, frmcExtremeY] ++ (List.range 11).map fun n => frmcBox n.toUInt32

/-- The control word, with the bits of the destination's bus. -/
def HwOnceCfg.ctrl (cfg : HwOnceCfg) (obufc : UInt32) : RegWrite :=
  ⟨frmcCtrl, obufc <<< 12 ||| (cfg.ibufcBus.code &&& 1) <<< 11 ||| cfg.boxBus.toUInt32 <<< 10 |||
    cfg.irqMask.toUInt32 <<< 9 ||| 1⟩

section Programs

variable {cfg : HwOnceCfg} {platform : Platform} {bases extremes : List UInt32} {mode : UInt32}

/-- The writes of a front, counted. -/
theorem front_length : (cfg.front platform bases mode extremes).length =
    20 + bases.length + extremes.length := by
  simp only [HwOnceCfg.front, HwOnceCfg.boxWrites, List.length_append, List.length_map,
    List.length_cons, List.length_nil]
  omega

/-- The registers that a front writes. -/
theorem front_registers : ∀ write ∈ cfg.front platform bases mode extremes,
    write.reg ∈ frontRegs := by
  simp only [HwOnceCfg.front, HwOnceCfg.boxWrites, List.forall_mem_append, List.forall_mem_map]
  refine ⟨⟨⟨⟨?_, fun _ _ => ?_⟩, ?_⟩, ?_⟩, fun _ _ => ?_⟩
  · simp only [List.forall_mem_cons]
    decide
  · decide
  · simp only [List.forall_mem_cons]
    decide
  · simp only [List.forall_mem_cons]
    decide
  · decide

/-- They leave the bit of the last write free. -/
theorem front_plain : ∀ write ∈ cfg.front platform bases mode extremes,
    write.reg &&& 0x7FFFFFFF = write.reg := by
  intro write member
  have all : frontRegs.all fun reg => reg &&& 0x7FFFFFFF == reg := by decide
  simpa using List.all_eq_true.mp all write.reg (front_registers write member)

/-- Neither the colour order nor a checksum is among them. -/
theorem front_inChain : (cfg.front platform bases mode extremes).filter RegWrite.inChain =
    cfg.front platform bases mode extremes := by
  rw [List.filter_eq_self]
  intro write member
  have all : frontRegs.all fun reg => RegWrite.inChain ⟨reg, 0⟩ := by decide
  exact List.all_eq_true.mp all write.reg (front_registers write member)

/-- Two programs that differ in the mode and in the control word at most. -/
theorem front_inj {mode' : UInt32} {last last' : RegWrite} :
    cfg.front platform bases mode extremes ++ [last] =
        cfg.front platform bases mode' extremes ++ [last'] ↔ mode = mode' ∧ last = last' := by
  simp [HwOnceCfg.front]

/-- Both programs of a configuration that fits the arrays. -/
theorem programs_eq (boxes : cfg.boxNum ≤ 64) (width : cfg.dstBoxW ≤ 64) (platform : Platform)
    (held : UInt32) (mem : Nat → UInt32) (addr : Nat) :
    ∃ bases extremes, bases.length ≤ 64 ∧ extremes.length ≤ 16 ∧
      bscalerFrmcCfg platform held cfg =
        some ([⟨param9, held ||| (cfg.dstFormat >>> 1 &&& 0xF &&& 0xF) <<< 4⟩] ++
          cfg.front platform bases cfg.gainedMode extremes ++
          [⟨frmcIsum, 0⟩, ⟨frmcOsum, 0⟩, cfg.ctrl cfg.obufcBus.code]) ∧
      bscalerFrmcChainCfg platform cfg mem addr =
        some ((Writer.writeAll { mem := mem, addr := addr, len := 0 } (cfg.front platform bases
          (if cfg.SkipsGain then cfg.modeWord else cfg.gainedMode) extremes)).writeChain
          (cfg.ctrl (cfg.obufcBus.code &&& 1)) 1) := by
  have few : cfg.boxNum.toNat ≤ 64 := boxes
  have columns : cfg.dstBoxW.toNat ≤ 64 := width
  -- An `int` holds the same number of boxes.
  have same : cfg.intBoxNum = cfg.chainBoxNum := by
    unfold HwOnceCfg.intBoxNum HwOnceCfg.chainBoxNum
    split
    · rfl
    · have whole : cfg.boxNum.toInt32.toInt = cfg.boxNum.toNat := by
        refine (BitVec.toInt_eq_toNat_bmod cfg.boxNum.toBitVec).trans ?_
        exact Int.bmod_eq_of_le (by simp) (by simp; omega)
      rw [whole, Int.toNat_natCast]
  have fits : cfg.chainBoxNum ≤ 64 := by
    unfold HwOnceCfg.chainBoxNum
    split <;> omega
  obtain ⟨bases, haveBases, count⟩ := physDstBases_some cfg platform fits
  obtain ⟨extremes, haveExtremes, length⟩ := extremeWords_some cfg width
  refine ⟨bases, extremes, by omega, by omega, ?_, ?_⟩
  · simp only [bscalerFrmcCfg, same, haveBases, haveExtremes, Option.bind_eq_bind, Option.bind_some,
      HwOnceCfg.front, HwOnceCfg.ctrl]
    simp
  · simp only [bscalerFrmcChainCfg, haveBases, haveExtremes, Option.bind_eq_bind, Option.bind_some,
      HwOnceCfg.front, HwOnceCfg.ctrl, writeAll_append]

end Programs

/--
A chain has the length that it says, ends where it says, stays within what is reserved for it, and
leaves the memory around it alone.
-/
structure Writer.Fits (chained : Writer) (mem : Nat → UInt32) (addr : Nat) : Prop where
  length : chained.addr = addr + chained.len.toNat / 4
  pairs : chained.len.toNat % 8 = 0
  reserved : chained.len.toNat ≤ bscChainSize
  frame : ∀ place, place < addr ∨ chained.addr ≤ place → chained.mem place = mem place

/-- A chain of writes and the last one has eight bytes for each of them. -/
theorem chained_len {writes : List RegWrite} {last : RegWrite} {mem : Nat → UInt32} {addr : Nat}
    (few : writes.length < 150) :
    ((Writer.writeAll { mem := mem, addr := addr, len := 0 } writes).writeChain last 1).len.toNat =
      8 * (writes.length + 1) := by
  simp only [Writer.writeChain, writeAll_len]
  simp [Nat.toUInt32_eq]
  omega

/-- It stays within what is reserved. -/
theorem chained_fits {writes : List RegWrite} (last : RegWrite) (mem : Nat → UInt32) (addr : Nat)
    (few : writes.length < 150) :
    ((Writer.writeAll { mem := mem, addr := addr, len := 0 } writes).writeChain last 1).Fits
      mem addr := by
  have end' : (Writer.writeAll { mem := mem, addr := addr, len := 0 } writes).addr =
      addr + 2 * writes.length := writeAll_addr
  have len := @chained_len writes last mem addr few
  refine ⟨?_, ?_, ?_, ?_⟩
  · rw [len]
    simp only [Writer.writeChain, end']
    omega
  · omega
  · simp only [bscChainSize]
    omega
  · intro place outside
    simp only [Writer.writeChain, end'] at outside
    have rest := @writeAll_outside { mem := mem, addr := addr, len := 0 } writes place (by
      simp only
      omega)
    refine (writeChain_outside ?_).trans rest
    omega

/-- A chain is replayed as its writes and the last one. -/
theorem replay_chained {writes : List RegWrite} {last : RegWrite}
    (plain : ∀ write ∈ writes, write.reg &&& 0x7FFFFFFF = write.reg)
    (plainLast : last.reg &&& 0x7FFFFFFF = last.reg) (mem : Nat → UInt32) (addr : Nat) :
    replay ((Writer.writeAll { mem := mem, addr := addr, len := 0 } writes).writeChain last 1).mem
      addr (writes.length + 1) = writes ++ [last] := by
  set front := Writer.writeAll { mem := mem, addr := addr, len := 0 } writes
  have end' : front.addr = addr + 2 * writes.length := writeAll_addr
  have first : replay (front.writeChain last 1).mem addr writes.length = writes := by
    have alone : replay front.mem addr writes.length = writes := replay_writeAll plain
    refine (replay_congr fun place _ inside => ?_).trans alone
    exact writeChain_outside (.inl (by rw [end']; exact inside))
  have second : replay (front.writeChain last 1).mem front.addr 1 = [last] :=
    replay_writeChain plainLast (by decide)
  rw [end'] at second
  rw [replay_add, first, second]

/-- The chain of a configuration is replayed as what is written directly. -/
def HwOnceCfg.Replays (cfg : HwOnceCfg) (platform : Platform) (held : UInt32)
    (mem : Nat → UInt32) (addr : Nat) : Prop :=
  ∃ chained direct, bscalerFrmcChainCfg platform cfg mem addr = some chained ∧
    bscalerFrmcCfg platform held cfg = some direct ∧
    replay chained.mem addr (chained.len.toNat / 8) = direct.filter RegWrite.inChain

section Replayed

variable {cfg : HwOnceCfg}

/-- No array is read behind its end, and the chain fits. -/
theorem chain_fits (boxes : cfg.boxNum ≤ 64) (width : cfg.dstBoxW ≤ 64) (platform : Platform)
    (mem : Nat → UInt32) (addr : Nat) :
    ∃ chained, bscalerFrmcChainCfg platform cfg mem addr = some chained ∧ chained.Fits mem addr := by
  obtain ⟨bases, extremes, few, columns, _, chain⟩ := programs_eq boxes width platform 0 mem addr
  refine ⟨_, chain, chained_fits _ mem addr ?_⟩
  rw [front_length]
  omega

/-- The unmasked control word is another one for the reserved memory. -/
theorem ctrl_iff (box : cfg.boxBus = 0) (irq : cfg.irqMask = 1) :
    cfg.ctrl (cfg.obufcBus.code &&& 1) = cfg.ctrl cfg.obufcBus.code ↔ cfg.obufcBus ≠ .rmem := by
  simp only [HwOnceCfg.ctrl, RegWrite.mk.injEq, true_and, box, irq, UInt32.or_assoc]
  refine ctrlWord_iff cfg.obufcBus ?_
  cases cfg.ibufcBus <;> decide

/-- The mode of a chain is another one where it leaves a gain out. -/
theorem mode_iff : (if cfg.SkipsGain then cfg.modeWord else cfg.gainedMode) = cfg.gainedMode ↔
    (cfg.SkipsGain → cfg.yGainExp &&& 7 = 0) := by
  split
  · rename_i skips
    rw [modeWord_gained_iff]
    exact ⟨fun none _ => none, fun none => none skips⟩
  · rename_i keeps
    exact iff_of_true rfl fun skips => (keeps skips).elim

/-- The chain is replayed as what is written directly, but for the gain and the bus. -/
theorem replays_iff (boxes : cfg.boxNum ≤ 64) (width : cfg.dstBoxW ≤ 64) (box : cfg.boxBus = 0)
    (irq : cfg.irqMask = 1) (platform : Platform) (held : UInt32) (mem : Nat → UInt32)
    (addr : Nat) : cfg.Replays platform held mem addr ↔
      cfg.obufcBus ≠ .rmem ∧ (cfg.SkipsGain → cfg.yGainExp &&& 7 = 0) := by
  obtain ⟨bases, extremes, few, columns, direct, chain⟩ :=
    programs_eq boxes width platform held mem addr
  set mode := if cfg.SkipsGain then cfg.modeWord else cfg.gainedMode with chosen
  have length : (cfg.front platform bases mode extremes).length < 150 := by
    rw [front_length]
    omega
  have played := @replay_chained _ (cfg.ctrl (cfg.obufcBus.code &&& 1))
    (@front_plain cfg platform bases extremes mode) (by simp only [HwOnceCfg.ctrl]; decide) mem addr
  have kept : (([⟨param9, held ||| (cfg.dstFormat >>> 1 &&& 0xF &&& 0xF) <<< 4⟩] : List RegWrite) ++
      cfg.front platform bases cfg.gainedMode extremes ++
      [⟨frmcIsum, 0⟩, ⟨frmcOsum, 0⟩, cfg.ctrl cfg.obufcBus.code]).filter RegWrite.inChain =
      cfg.front platform bases cfg.gainedMode extremes ++ [cfg.ctrl cfg.obufcBus.code] := by
    rw [List.filter_append, List.filter_append, front_inChain]
    rfl
  rw [← ctrl_iff box irq, ← mode_iff, ← chosen, and_comm, ← front_inj, ← kept]
  unfold HwOnceCfg.Replays
  rw [chain, direct]
  simp only [Option.some.injEq, exists_and_left, exists_eq_left', chained_len length]
  rw [← played, Nat.mul_div_cancel_left _ (by decide)]

end Replayed

section Emitted

variable {call : CfgCall} {unset cfg : HwOnceCfg} {cfgs : List HwOnceCfg}

/-- The members that all functions set in the same way. -/
structure Uniform (call : CfgCall) (cfg : HwOnceCfg) : Prop where
  boxNum : cfg.boxNum = 1
  boxBus : cfg.boxBus = 0
  irqMask : cfg.irqMask = 1
  obufcBus : cfg.obufcBus = call.dst.locate

/-- The functions that resize do so. -/
theorem resize_uniform {function : CfgFunction}
    (resizes : function = .bsResizeCfgStuff ∨ function = .resizeBoxSplit)
    (emits : call.hwCfgs unset function = some cfgs) (member : cfg ∈ cfgs) : Uniform call cfg := by
  rcases resizes with rfl | rfl
  · obtain ⟨made, emitted, rfl⟩ := Option.map_eq_some_iff.mp emits
    obtain ⟨resize, listed, rfl⟩ := List.mem_map.mp member
    unfold bsResizeCfgStuff at emitted
    split at emitted
    · obtain ⟨gain, _, rfl⟩ := Option.map_eq_some_iff.mp emitted
      rw [List.mem_singleton.mp listed]
      exact ⟨rfl, rfl, rfl, rfl⟩
    · cases emitted
  · obtain ⟨made, emitted, rfl⟩ := Option.map_eq_some_iff.mp emits
    obtain ⟨resize, listed, rfl⟩ := List.mem_map.mp member
    unfold resizeBoxSplit at emitted
    split at emitted
    · obtain ⟨gain, _, pieces⟩ := Option.bind_eq_some_iff.mp emitted
      obtain ⟨cut, mapped, rfl⟩ := Option.map_eq_some_iff.mp pieces
      obtain ⟨box, _, piece⟩ := Matching.forall₂_right (Matching.forall₂_mapM mapped) listed
      split at piece
      · cases piece
        exact ⟨rfl, rfl, rfl, rfl⟩
      · cases piece
    · cases emitted

/-- So do all of them. -/
theorem emitted_uniform (function : CfgFunction) (emits : call.hwCfgs unset function = some cfgs)
    (member : cfg ∈ cfgs) : Uniform call cfg := by
  cases function with
  | bsAffineCfgStuff | affineBoxSplit | bsPerspectiveCfgStuff | perspectiveBoxSplit =>
    -- These members do not depend on what is configured.
    obtain ⟨made, _, rfl⟩ := Option.map_eq_some_iff.mp emits
    obtain ⟨_, _, rfl⟩ := List.mem_map.mp member
    exact ⟨rfl, rfl, rfl, rfl⟩
  | bsResizeCfgStuff => exact resize_uniform (.inl rfl) emits member
  | resizeBoxSplit => exact resize_uniform (.inr rfl) emits member

end Emitted

/--
The chain of an emitted configuration fits what is reserved for it, and is replayed as what is
written directly exactly when the destination is not in the reserved memory and no gain is left out.
-/
theorem frmcChain_iff (call : CfgCall) (unset : HwOnceCfg) (function : CfgFunction)
    {cfgs : List HwOnceCfg} (emits : call.hwCfgs unset function = some cfgs) {cfg : HwOnceCfg}
    (member : cfg ∈ cfgs) (width : cfg.dstBoxW ≤ 64) (platform : Platform) (held : UInt32)
    (mem : Nat → UInt32) (addr : Nat) :
    (∃ chained, bscalerFrmcChainCfg platform cfg mem addr = some chained ∧
        chained.Fits mem addr) ∧
      (cfg.Replays platform held mem addr ↔
        call.dst.locate ≠ .rmem ∧ (cfg.SkipsGain → cfg.yGainExp &&& 7 = 0)) := by
  have uniform := emitted_uniform function emits member
  have boxes : cfg.boxNum ≤ 64 := by
    rw [uniform.boxNum]
    decide
  refine ⟨chain_fits boxes width platform mem addr, ?_⟩
  rw [← uniform.obufcBus]
  exact replays_iff boxes width uniform.boxBus uniform.irqMask platform held mem addr

/-- Members that no function has set. -/
def blank : HwOnceCfg where
  srcBase0 := 0
  srcBase1 := 0
  srcFormat := 0
  srcLineStride := 0
  srcBoxX := 0
  srcBoxY := 0
  srcBoxW := 0
  srcBoxH := 0
  dstFormat := 0
  dstLineStride := 0
  dstBoxX := 0
  dstBoxY := 0
  dstBoxW := 0
  dstBoxH := 0
  affine := false
  boxMode := false
  yGainExp := 0
  zeroPoint := 0
  matrix := fun _ => 0
  boxNum := 0
  dstBase := fun _ => 0
  boxesInfo := 0
  monoX := 0
  monoY := 0
  extremePoint := fun _ => 0
  boxBus := 0
  ibufcBus := .nmem
  obufcBus := .nmem
  irqMask := 0

/-- An affine copy into a memory. -/
def copyInto (locate : DataLocate) : CfgCall :=
  let call := copyCall ⟨2, 2, 8, 8⟩ 0
  { call with dst := { call.dst with locate := locate } }

/-- The configuration of a copy. -/
def copyCfg (locate : DataLocate) : HwOnceCfg :=
  (wholeCfg (copyInto locate).matrix 0 0 (copyInto locate).affineInfo
    (copyInto locate).src.toDataInfo (copyInto locate).dst.toDataInfo (copyInto locate).coef
    (copyInto locate).offset).hw blank (copyInto locate).src (copyInto locate).dst

/-- A copy into the main memory is replayed as it is written. -/
theorem frmcChain_iff_copy : (copyCfg .nmem).Replays .eyerSimEnv 0 (fun _ => 0) 0 :=
  (frmcChain_iff (copyInto .nmem) blank .bsAffineCfgStuff rfl List.mem_cons_self (by decide)
    .eyerSimEnv 0 (fun _ => 0) 0).2.mpr ⟨by decide, fun _ => rfl⟩

/-- A copy into the reserved memory is not: the bit of its bus is masked out of the chain. -/
theorem not_replays_reserved :
    (∃ cfgs, (copyInto .rmem).hwCfgs blank .bsAffineCfgStuff = some cfgs ∧
      copyCfg .rmem ∈ cfgs) ∧ (copyCfg .rmem).dstBoxW ≤ 64 ∧
      ¬(copyCfg .rmem).Replays .eyerSimEnv 0 (fun _ => 0) 0 := by
  refine ⟨⟨_, rfl, List.mem_cons_self⟩, by decide, ?_⟩
  rw [replays_iff (by decide) (by decide) rfl rfl]
  exact fun replays => replays.1 rfl

end Aip.Bscaler
