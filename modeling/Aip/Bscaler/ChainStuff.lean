import Aip.Bscaler.DstTiling
import Aip.Bscaler.FrmcChain
import Aip.Bscaler.Predicts
import Aip.Bscaler.SplitRgb

/-! The chain of a whole call: the programs of all configurations, one behind another. -/

namespace Aip.Bscaler

def frmcChainCtrl : UInt32 := 12 * 4
def frmcChainBase : UInt32 := 13 * 4
def frmcChainLen : UInt32 := 14 * 4
def frmcTimeout : UInt32 := 15 * 4

/-- `BSCALER_PARAM0` to `BSCALER_PARAM8`. -/
def param (n : UInt32) : UInt32 := (48 + n) * 4

/-- `ALPHA`. -/
def alpha : UInt8 := 0

/-- What `bscaler_common_param_cfg` leaves in the last parameter. -/
def commonParam9 (offset : Fin 2 → UInt8) (alpha : UInt8) : UInt32 :=
  (offset 0).toUInt32 <<< 16 ||| (offset 1).toUInt32 <<< 24 ||| alpha.toUInt32 <<< 8

/-- `bscaler_common_param_cfg`. -/
def bscalerCommonParamCfg (coef : Fin 9 → UInt32) (offset : Fin 2 → UInt8) (alpha : UInt8) :
    List RegWrite :=
  [⟨param 0, coef 0⟩, ⟨param 1, coef 1⟩, ⟨param 2, coef 2⟩, ⟨param 3, coef 3⟩, ⟨param 4, coef 4⟩,
    ⟨param 5, coef 5⟩, ⟨param 6, coef 6⟩, ⟨param 7, coef 7⟩, ⟨param 8, coef 8⟩,
    ⟨param9, commonParam9 offset alpha⟩]

/-- `bsc_order_cfg`, for what the register holds. -/
def bscOrderCfg (held orderC : UInt32) : List RegWrite :=
  [⟨param9, held ||| (orderC &&& 0xF) <<< 4⟩]

/-- `bs_chain_cfg_s`. -/
structure BsChainCfg where
  bsChainBase : UInt32
  bsChainLen : UInt32
  bsChainIrqMask : UInt32
  cTimeoutIrqMask : UInt32
  chainBus : UInt32

/-- The physical address of a chain. -/
def Platform.physChain (platform : Platform) (bus base : UInt32) : UInt32 :=
  match platform with
  | eyerSimEnv => base
  | cseSimEnv oram ddr => if bus ≠ 0 then oram base else ddr base
  | chipSimEnv va2pa => va2pa base

/-- `bsc_chain_hw_cfg`; the last write starts the chain. -/
def bscChainHwCfg (platform : Platform) (cfg : BsChainCfg) : List RegWrite :=
  [⟨frmcTimeout, 0xFFFFFFFF⟩, ⟨frmcChainBase, platform.physChain cfg.chainBus cfg.bsChainBase⟩,
    ⟨frmcChainLen, cfg.bsChainLen⟩,
    ⟨frmcChainCtrl, cfg.bsChainIrqMask <<< 3 ||| cfg.cTimeoutIrqMask <<< 5 |||
      cfg.chainBus <<< 1 ||| 1⟩]

/-- The loop of `bs_chain_stuff`, with the length that it adds up. -/
def chainLoop (platform : Platform) : List HwOnceCfg → Writer → Option Writer
  | [], writer => some writer
  | cfg :: cfgs, writer =>
    (bscalerFrmcChainCfg platform cfg writer.mem writer.addr).bind fun back =>
      chainLoop platform cfgs { back with len := writer.len + back.len }

/-- What a call leaves for the hardware: the writes to the registers, and the memory. -/
structure Stuffed where
  writes : List RegWrite
  mem : Nat → UInt32
  bscChainBase : Nat
  bscChainPtr : Nat

/-- `bsc_chain_size`, as a 32-bit machine computes it. -/
def chainBytes (cfgs : List HwOnceCfg) : UInt32 := cfgs.length.toUInt32 * (64 + 64 + 22) * 8

/--
`bs_chain_stuff`, for the word that the buffer starts at, if there is one.

All configurations of a call have its coefficients and its offsets, so they are given once. The
result is `none` where there is no first configuration to look at and where a pointer is wild.
-/
def bsChainStuff (platform : Platform) (coef : Fin 9 → UInt32) (offset : Fin 2 → UInt8)
    (cfgs : List HwOnceCfg) (mem : Nat → UInt32) (malloc : Option Nat) : Option Stuffed :=
  match cfgs with
  | [] => none
  | cfgOnce :: _ => do
    let nv2bgrOrder := cfgOnce.dstFormat >>> 1 &&& 0xF
    -- The message about a buffer that is missing does not end the call.
    let base ← malloc
    let back ← chainLoop platform cfgs { mem := mem, addr := base, len := 0 }
    some {
      writes := bscalerCommonParamCfg coef offset alpha ++
        bscOrderCfg (commonParam9 offset alpha) nv2bgrOrder ++
        bscChainHwCfg platform
          { bsChainBase := (4 * base).toUInt32, bsChainLen := back.len, bsChainIrqMask := 0
            cTimeoutIrqMask := 1, chainBus := 0 }
      mem := back.mem
      bscChainBase := base
      bscChainPtr := back.addr }

/-- A write in front of the first one of several frames, which it belongs to. -/
def inFront (write : RegWrite) : List (List RegWrite) → List (List RegWrite)
  | [] => [[write]]
  | frame :: frames => (write :: frame) :: frames

/-- The frames of a chain: its pairs up to and with each one that has the bit of the last. -/
def frames (mem : Nat → UInt32) : Nat → Nat → List (List RegWrite)
  | _, 0 => []
  | addr, pairs + 1 =>
    let write : RegWrite := ⟨mem (addr + 1) &&& 0x7FFFFFFF, mem addr⟩
    if mem (addr + 1) >>> 31 = 1 then [write] :: frames mem (addr + 2) pairs
    else inFront write (frames mem (addr + 2) pairs)

/-- The value that a register was given last. -/
def lastWritten (writes : List RegWrite) (reg : UInt32) : Option UInt32 :=
  (writes.reverse.find? fun write => write.reg = reg).map RegWrite.val

namespace Stuffed

variable (stuffed : Stuffed)

/-- The frames of the chain that the registers tell the hardware to run. -/
def frames : List (List RegWrite) :=
  Bscaler.frames stuffed.mem stuffed.bscChainBase
    (((lastWritten stuffed.writes frmcChainLen).getD 0).toNat / 8)

/-- The chain runs, frame after frame, what would be written directly for each configuration. -/
def Runs (platform : Platform) (held : UInt32) (cfgs : List HwOnceCfg) : Prop :=
  ∃ direct, cfgs.mapM (bscalerFrmcCfg platform held) = some direct ∧
    stuffed.frames = direct.map (List.filter RegWrite.inChain)

/-- The chain lies in its buffer, and the registers tell where it starts and how long it is. -/
structure Sound (platform : Platform) (cfgs : List HwOnceCfg) (mem : Nat → UInt32) (base : Nat) :
    Prop where
  start : stuffed.bscChainBase = base ∧
    lastWritten stuffed.writes frmcChainBase = some (platform.physChain 0 (4 * base).toUInt32)
  length : ∃ len, lastWritten stuffed.writes frmcChainLen = some len ∧
    base + len.toNat / 4 = stuffed.bscChainPtr ∧ len ≤ chainBytes cfgs
  frame : ∀ place, place < base ∨ stuffed.bscChainPtr ≤ place → stuffed.mem place = mem place
  order : ∃ word, lastWritten stuffed.writes param9 = some word ∧
    cfgs.head?.map (fun first : HwOnceCfg => first.dstFormat >>> 1 &&& 0xF) =
      some (word >>> 4 &&& 0xF)

end Stuffed

section Frames

variable {writer : Writer} {writes : List RegWrite} {write last : RegWrite} {mem : Nat → UInt32}
  {addr pairs : Nat}

/-- A register number leaves the bit of the last write free. -/
theorem mark_free {reg : UInt32} (plain : reg &&& 0x7FFFFFFF = reg) : reg >>> 31 = 0 := by
  have small : reg.toNat ≤ 0x7FFFFFFF := by
    rw [← plain, UInt32.toNat_and]
    exact Nat.and_le_right
  rw [← UInt32.toNat_inj]
  simp only [UInt32.toNat_shiftRight, Nat.shiftRight_eq_div_pow]
  simp
  omega

/-- The first pair of a chain whose memory has what one write has put there. -/
theorem frames_open (plain : write.reg &&& 0x7FFFFFFF = write.reg) (value : mem addr = write.val)
    (number : mem (addr + 1) = (0 : UInt32) <<< 31 ||| write.reg) :
    frames mem addr (pairs + 1) = inFront write (frames mem (addr + 2) pairs) := by
  have bare : mem (addr + 1) = write.reg := by
    rw [number]
    simp
  have other : ¬ mem (addr + 1) >>> 31 = 1 := by
    rw [bare, mark_free plain]
    decide
  rw [frames, if_neg other, bare, value, plain]

/-- The pair that ends a frame. -/
theorem frames_close (plain : write.reg &&& 0x7FFFFFFF = write.reg) (value : mem addr = write.val)
    (number : mem (addr + 1) = (1 : UInt32) <<< 31 ||| write.reg) :
    frames mem addr (pairs + 1) = [write] :: frames mem (addr + 2) pairs := by
  have mark : mem (addr + 1) >>> 31 = 1 := by
    rw [number, UInt32.shiftRight_or, mark_free plain]
    decide
  have masked : (1 : UInt32) <<< 31 &&& 0x7FFFFFFF = 0 := by decide
  have register : mem (addr + 1) &&& 0x7FFFFFFF = write.reg := by
    rw [number, or_masked, plain, masked, UInt32.zero_or]
  rw [frames, if_pos mark, register, value]

/-- What one write has put into its pair. -/
theorem writeChain_pair (tm : UInt32) :
    (writer.writeChain write tm).mem writer.addr = write.val ∧
      (writer.writeChain write tm).mem (writer.addr + 1) = tm <<< 31 ||| write.reg := by
  simp only [Writer.writeChain]
  constructor
  · rw [Function.update_of_ne (by omega), Function.update_self]
  · rw [Function.update_self]

/-- The writes of one configuration are a frame of the chain, in front of what follows. -/
theorem frames_chained (plain : ∀ write ∈ writes, write.reg &&& 0x7FFFFFFF = write.reg)
    (plainLast : last.reg &&& 0x7FFFFFFF = last.reg)
    (same : ∀ place, writer.addr ≤ place → place < writer.addr + 2 * (writes.length + 1) →
      mem place = ((writer.writeAll writes).writeChain last 1).mem place) :
    frames mem writer.addr (writes.length + 1 + pairs) =
      (writes ++ [last]) :: frames mem (writer.addr + 2 * (writes.length + 1)) pairs := by
  -- The first write moves the pointer for the rest.
  induction writes generalizing writer with
  | nil =>
    have pair := @writeChain_pair writer last 1
    have value := (same writer.addr (by omega) (by simp)).trans pair.1
    have number := (same (writer.addr + 1) (by omega) (by simp)).trans pair.2
    rw [List.length_nil, Nat.zero_add, Nat.add_comm 1 pairs]
    exact frames_close plainLast value number
  | cons write writes ih =>
    set next := writer.writeChain write 0 with moved
    have place : next.addr = writer.addr + 2 := rfl
    have rest := @ih next (fun other member => plain other (List.mem_cons_of_mem write member))
      fun spot low high => same spot (by omega) (by
        rw [List.length_cons]
        omega)
    -- The rest of the frame leaves the first pair as it is.
    have kept (spot : Nat) (before : spot < next.addr) :
        ((next.writeAll writes).writeChain last 1).mem spot = next.mem spot := by
      have inner : (next.writeAll writes).mem spot = next.mem spot := writeAll_outside (.inl before)
      refine (writeChain_outside (.inl ?_)).trans inner
      rw [writeAll_addr]
      omega
    have pair := @writeChain_pair writer write 0
    have value : mem writer.addr = write.val :=
      (same writer.addr (by omega) (by simp)).trans ((kept writer.addr (by omega)).trans pair.1)
    have number : mem (writer.addr + 1) = (0 : UInt32) <<< 31 ||| write.reg := by
      have inside : writer.addr + 1 < writer.addr + 2 * ((write :: writes).length + 1) := by omega
      exact (same _ (by omega) inside).trans ((kept _ (by omega)).trans pair.2)
    have count : (write :: writes).length + 1 + pairs = writes.length + 1 + pairs + 1 := by
      rw [List.length_cons]
      omega
    have far : writer.addr + 2 + 2 * (writes.length + 1) =
        writer.addr + 2 * ((write :: writes).length + 1) := by
      rw [List.length_cons]
      omega
    rw [count, frames_open (plain write List.mem_cons_self) value number, ← place, rest, place, far]
    rfl

end Frames

/-- A configuration for one box, whose addresses and extreme points fit the arrays. -/
structure HwOnceCfg.Single (cfg : HwOnceCfg) : Prop where
  boxNum : cfg.boxNum = 1
  width : cfg.dstBoxW ≤ 64
  boxBus : cfg.boxBus = 0
  irqMask : cfg.irqMask = 1

/-- A configuration whose destination is not in the reserved memory and that loses no gain. -/
def HwOnceCfg.Kept (cfg : HwOnceCfg) : Prop :=
  cfg.obufcBus ≠ .rmem ∧ (cfg.SkipsGain → cfg.yGainExp &&& 7 = 0)

/-- The chain of one configuration, with the writes that it has and those that are made directly. -/
structure Chained (platform : Platform) (held : UInt32) (cfg : HwOnceCfg) (mem : Nat → UInt32)
    (addr : Nat) (writes : List RegWrite) (last : RegWrite) (direct : List RegWrite) : Prop where
  chain : bscalerFrmcChainCfg platform cfg mem addr =
    some ((Writer.writeAll { mem := mem, addr := addr, len := 0 } writes).writeChain last 1)
  plain : ∀ write ∈ writes, write.reg &&& 0x7FFFFFFF = write.reg
  plainLast : last.reg &&& 0x7FFFFFFF = last.reg
  few : writes.length < 150
  written : bscalerFrmcCfg platform held cfg = some direct
  same_iff : writes ++ [last] = direct.filter RegWrite.inChain ↔ cfg.Kept

/-- Every configuration for one box has its chain. -/
theorem HwOnceCfg.Single.chained {cfg : HwOnceCfg} (single : cfg.Single) (platform : Platform)
    (held : UInt32) (mem : Nat → UInt32) (addr : Nat) :
    ∃ writes last direct, Chained platform held cfg mem addr writes last direct := by
  have boxes : cfg.boxNum ≤ 64 := by
    rw [single.boxNum]
    decide
  obtain ⟨bases, extremes, few, columns, written, chain⟩ :=
    programs_eq boxes single.width platform held mem addr
  have iff := replays_iff boxes single.width single.boxBus single.irqMask platform held mem addr
  set writes := cfg.front platform bases
    (if cfg.SkipsGain then cfg.modeWord else cfg.gainedMode) extremes
  have short : writes.length < 150 := by
    rw [front_length]
    omega
  have plain : ∀ write ∈ writes, write.reg &&& 0x7FFFFFFF = write.reg := front_plain
  have plainLast : (cfg.ctrl (cfg.obufcBus.code &&& 1)).reg &&& 0x7FFFFFFF =
      (cfg.ctrl (cfg.obufcBus.code &&& 1)).reg := by
    simp only [HwOnceCfg.ctrl]
    decide
  refine ⟨writes, _, _, chain, plain, plainLast, short, written, ?_⟩
  -- The writes of the chain are what it is replayed as.
  refine Iff.trans ?_ iff
  unfold HwOnceCfg.Replays
  rw [chain, written]
  simp only [Option.some.injEq, exists_and_left, exists_eq_left', chained_len short]
  rw [Nat.mul_div_cancel_left _ (by decide), replay_chained plain plainLast]

/-- The chain of several configurations, as the frames that it is and those that are due. -/
structure Looped (platform : Platform) (held : UInt32) (cfgs : List HwOnceCfg)
    (before after : Writer) (pairs : Nat) (programs direct : List (List RegWrite)) : Prop where
  loop : chainLoop platform cfgs before = some after
  written : cfgs.mapM (bscalerFrmcCfg platform held) = some direct
  addr : after.addr = before.addr + 2 * pairs
  len : after.len.toNat = before.len.toNat + 8 * pairs
  reserved : pairs ≤ 150 * cfgs.length
  outside : ∀ place, place < before.addr ∨ after.addr ≤ place → after.mem place = before.mem place
  frames : frames after.mem before.addr pairs = programs
  same_iff : programs = direct.map (List.filter RegWrite.inChain) ↔ ∀ cfg ∈ cfgs, cfg.Kept

section Loop

variable {platform : Platform} {held : UInt32} {cfg : HwOnceCfg} {cfgs : List HwOnceCfg}
  {before after : Writer} {pairs : Nat} {programs direct : List (List RegWrite)}

/-- One more configuration in front of a chain. -/
theorem Looped.cons {writes : List RegWrite} {last : RegWrite} {own : List RegWrite}
    (one : Chained platform held cfg before.mem before.addr writes last own)
    (back : Writer) (made : back = (Writer.writeAll
      { mem := before.mem, addr := before.addr, len := 0 } writes).writeChain last 1)
    (room : before.len.toNat + 8 * (writes.length + 1) < 2 ^ 32)
    (rest : Looped platform held cfgs { back with len := before.len + back.len } after pairs programs
      direct) :
    Looped platform held (cfg :: cfgs) before after (writes.length + 1 + pairs)
      ((writes ++ [last]) :: programs) (own :: direct) := by
  have fits : back.Fits before.mem before.addr := made ▸ chained_fits last before.mem before.addr one.few
  have bytes : back.len.toNat = 8 * (writes.length + 1) := made ▸ chained_len one.few
  have stop : back.addr = before.addr + 2 * (writes.length + 1) := by
    rw [fits.length, bytes]
    omega
  have sum : (before.len + back.len).toNat = before.len.toNat + 8 * (writes.length + 1) := by
    rw [UInt32.toNat_add, bytes, Nat.mod_eq_of_lt room]
  have addr := rest.addr
  have len := rest.len
  simp only [stop, sum] at addr len
  refine ⟨?_, ?_, by omega, by omega, ?_, ?_, ?_, ?_⟩
  · rw [chainLoop, one.chain, Option.bind_some, ← made]
    exact rest.loop
  · simp [one.written, rest.written]
  · have few := one.few
    have reserved := rest.reserved
    rw [List.length_cons]
    omega
  · -- Neither the first chain nor the others write around the whole.
    intro place outside
    have first : back.mem place = before.mem place := fits.frame place (by omega)
    exact (rest.outside place (by simp only [stop]; omega)).trans first
  · -- The other chains leave the first one as it is.
    have same : ∀ place, before.addr ≤ place → place < before.addr + 2 * (writes.length + 1) →
        after.mem place = back.mem place := fun place _ inside =>
      rest.outside place (.inl (by simp only [stop]; omega))
    have frames := rest.frames
    simp only [stop] at frames
    rw [made] at same
    have head := @frames_chained { mem := before.mem, addr := before.addr, len := 0 } writes last
      after.mem pairs one.plain one.plainLast same
    exact head.trans (by rw [← frames])
  · rw [List.map_cons, List.cons.injEq, one.same_iff, rest.same_iff, List.forall_mem_cons]

/-- Every list of configurations for one box each has its chain. -/
theorem looped (single : ∀ cfg ∈ cfgs, cfg.Single)
    (room : before.len.toNat + bscChainSize * cfgs.length < 2 ^ 32) :
    ∃ after pairs programs direct,
      Looped platform held cfgs before after pairs programs direct := by
  -- The induction is on the configurations, for every place that a chain may start at.
  induction cfgs generalizing before with
  | nil =>
    refine ⟨before, 0, [], [], rfl, rfl, rfl, rfl, Nat.zero_le _, fun _ _ => rfl, rfl, ?_⟩
    simp
  | cons cfg cfgs ih =>
    obtain ⟨writes, last, own, one⟩ :=
      (single cfg List.mem_cons_self).chained platform held before.mem before.addr
    set back := (Writer.writeAll { mem := before.mem, addr := before.addr, len := 0 } writes).writeChain
      last 1 with made
    have few := one.few
    have bytes : back.len.toNat = 8 * (writes.length + 1) := made ▸ chained_len one.few
    rw [List.length_cons] at room
    simp only [bscChainSize] at room ih
    have first : before.len.toNat + 8 * (writes.length + 1) < 2 ^ 32 := by omega
    have sum : (before.len + back.len).toNat = before.len.toNat + 8 * (writes.length + 1) := by
      rw [UInt32.toNat_add, bytes, Nat.mod_eq_of_lt first]
    obtain ⟨after, pairs, programs, direct, rest⟩ :=
      @ih { back with len := before.len + back.len }
        (fun other member => single other (List.mem_cons_of_mem cfg member)) (by
          simp only [sum]
          omega)
    exact ⟨after, _, _, _, rest.cons one back made first⟩

end Loop

/-- The order in the last parameter is read back as it was put there. -/
theorem order_back (offset : Fin 2 → UInt8) {order : UInt32} (small : order &&& 0xF = order) :
    (commonParam9 offset alpha ||| (order &&& 0xF) <<< 4) >>> 4 &&& 0xF = order := by
  -- Four bits are looked at, and the offsets and the opacity lie above them.
  have mask : (0xF : UInt32) = (0xF0 : UInt32) >>> 4 := by decide
  have whole (value : UInt32) : value &&& 0xFFFFFFFF = value := UInt32.and_neg_one
  have free : commonParam9 offset alpha &&& 0xF0 = 0 := by
    have first := @field_free (offset 0).toUInt32 0xFFFFFFFF 0xF0 16 (by decide)
    have second := @field_free (offset 1).toUInt32 0xFFFFFFFF 0xF0 24 (by decide)
    have third := @field_free alpha.toUInt32 0xFFFFFFFF 0xF0 8 (by decide)
    rw [whole] at first second third
    exact or_free (or_free first second) third
  have own := @field_kept order 0xF 0xF0 4 (by decide)
  have few : order.toNat ≤ 0xF := by
    rw [← small, UInt32.toNat_and]
    exact Nat.and_le_right
  rw [mask, ← UInt32.shiftRight_and, or_masked, free, ← mask, own, small, UInt32.zero_or,
    ← UInt32.toNat_inj]
  simp only [UInt32.toNat_shiftRight, UInt32.toNat_shiftLeft, Nat.shiftRight_eq_div_pow,
    Nat.shiftLeft_eq, UInt32.reduceToNat, Nat.reduceMod, Nat.reducePow]
  omega

section Stuff

variable {platform : Platform} {cfgs : List HwOnceCfg}

/-- The buffer has room for every configuration, as long as its size is not cut off. -/
theorem chainBytes_toNat (room : bscChainSize * cfgs.length < 2 ^ 32) :
    (chainBytes cfgs).toNat = bscChainSize * cfgs.length := by
  simp only [bscChainSize] at *
  simp [chainBytes, Nat.toUInt32_eq]
  omega

/--
A call with one configuration or more leaves a chain within its buffer, and registers that tell of
it. The chain runs what would be written directly exactly when every configuration is kept.
-/
theorem bsChainStuff_sound (coef : Fin 9 → UInt32) (offset : Fin 2 → UInt8) (held : UInt32)
    (mem : Nat → UInt32) (base : Nat) (some' : cfgs ≠ []) (single : ∀ cfg ∈ cfgs, cfg.Single)
    (room : bscChainSize * cfgs.length < 2 ^ 32) :
    ∃ stuffed, bsChainStuff platform coef offset cfgs mem (some base) = some stuffed ∧
      stuffed.Sound platform cfgs mem base ∧
      (stuffed.Runs platform held cfgs ↔ ∀ cfg ∈ cfgs, cfg.Kept) := by
  obtain ⟨after, pairs, programs, direct, chain⟩ :=
    @looped platform held cfgs { mem := mem, addr := base, len := 0 } single (by simpa using room)
  have addr := chain.addr
  have len := chain.len
  simp only [UInt32.toNat_zero, Nat.zero_add] at addr len
  have bytes := chainBytes_toNat room
  have reserved := chain.reserved
  cases cfgs with
  | nil => exact absurd rfl some'
  | cons first rest =>
    refine ⟨_, by rw [bsChainStuff, Option.bind_eq_bind, Option.bind_some, chain.loop]; rfl, ?_, ?_⟩
    · refine ⟨⟨rfl, rfl⟩, ⟨after.len, rfl, ?_, ?_⟩, chain.outside, _, rfl, ?_⟩
      · simp only [len, addr]
        omega
      · rw [UInt32.le_iff_toNat_le, bytes, len]
        simp only [bscChainSize]
        omega
      · refine congrArg some (order_back offset ?_).symm
        rw [UInt32.and_assoc, UInt32.and_self]
    · -- The register tells as many bytes as the pairs have.
      rw [← chain.same_iff]
      have number : after.len.toNat / 8 = pairs := by omega
      constructor
      · rintro ⟨direct', written, same⟩
        cases chain.written.symm.trans written
        rw [← chain.frames, ← same, ← number]
        rfl
      · intro same
        refine ⟨direct, chain.written, ?_⟩
        rw [← same, ← chain.frames, ← number]
        rfl

end Stuff

/-- A box of a call, with what the functions compute from its floating-point matrix. -/
structure WarpBox where
  matrix : Matrix
  guides : BoxInfo → Guides
  leftover : Int
  box : BoxInfo
  zeroPoint : UInt32

/-- The coefficients and the offsets of a call. -/
abbrev Coefs := (Fin 9 → UInt32) × (Fin 2 → UInt32)

/-- What the functions are given for a box. -/
def WarpBox.call (box : WarpBox) (src dst : ImageInfo) (coefs : Coefs) : CfgCall :=
  { matrix := box.matrix, guides := box.guides, leftover := box.leftover, nv2bgrAlpha := alpha
    box := box.box, zeroPoint := box.zeroPoint, src := src, dst := dst, coef := coefs.1
    offset := coefs.2 }

/-- The configurations that one of the functions adds for a box. -/
def addCfgs (unset : HwOnceCfg) (function : CfgFunction) (bsCfgs : List HwOnceCfg) (box : WarpBox)
    (src dst : ImageInfo) (coefs : Coefs) : Option (List HwOnceCfg) :=
  ((box.call src dst coefs).hwCfgs unset function).map (bsCfgs ++ ·)

/-- The functions for a box, given the two that no box is sorted to. -/
def warpStuffing (unset : HwOnceCfg) (unreached : Stuffing WarpBox HwOnceCfg Coefs) :
    Stuffing WarpBox HwOnceCfg Coefs :=
  { unreached with
    affineBoxSplit := addCfgs unset .affineBoxSplit
    bsAffineCfgStuff := addCfgs unset .bsAffineCfgStuff
    perspectiveBoxSplit := addCfgs unset .perspectiveBoxSplit
    bsPerspectiveCfgStuff := addCfgs unset .bsPerspectiveCfgStuff }

/-- The functions that start the frame converter. -/
inductive StartFunction where
  | bsAffineStart
  | bsPerspectiveStart
  | bsResizeStart
  deriving DecidableEq, Repr

/-- A call of one of them. -/
structure StartCall where
  src : ImageInfo
  boxes : List (WarpBox × ImageInfo)
  coefs : Coefs

namespace StartCall

variable (call : StartCall)

/-- The boxes of a resize call. -/
def resizeBoxes : List ResizeBox :=
  call.boxes.map fun (box, dst) => ({ box := box.box, zeroPoint := box.zeroPoint }, dst)

/-- The configurations that a call stuffs into its chain. -/
def bsCfgs (unset : HwOnceCfg) (unreached : Stuffing WarpBox HwOnceCfg Coefs) :
    StartFunction → Option (List HwOnceCfg)
  | .bsAffineStart =>
    bsAffineStart (warpStuffing unset unreached) call.src call.boxes call.coefs
  | .bsPerspectiveStart =>
    bsPerspectiveStart (warpStuffing unset unreached) call.src call.boxes call.coefs
  | .bsResizeStart =>
    (bsResizeStart call.src call.resizeBoxes call.coefs.1 call.coefs.2).map
      (List.map (ResizeCfg.hw unset))

end StartCall

section Started

variable {unset cfg : HwOnceCfg} {unreached : Stuffing WarpBox HwOnceCfg Coefs} {call : CfgCall}
  {cfgs : List HwOnceCfg} {box : BoxInfo}

/-- A width that an array of 64 entries has room for. -/
theorem ofInt_le {width : Int} (least : 0 ≤ width) (most : width ≤ 64) :
    UInt32.ofInt width ≤ 64 := by
  rw [UInt32.le_iff_toNat_le, UInt32.ofInt, UInt32.toNat_ofNat']
  simp only [UInt32.reduceToNat]
  omega

/-- The pieces of a destination are narrow enough. -/
theorem dstSbox_width {dst : DataInfo} (member : box ∈ dstSboxes dst) :
    UInt32.ofInt box.w ≤ 64 := by
  obtain ⟨_, _, ⟨least, most⟩, _⟩ := sbox_within member
  exact ofInt_le (by omega) most

/-- So are those of a resize box. -/
theorem resizeSbox_width {src dst : ImageInfo} (member : box ∈ resizeSboxes src dst) :
    UInt32.ofInt box.w ≤ 64 := by
  obtain ⟨left, top⟩ := limits_pos .resizeBoxSplit src
  have limits : Limits bsResizeW (sboxHMax src) := ⟨left, top⟩
  rw [← gridBoxes_resize] at member
  obtain ⟨_, ⟨least, most⟩, _⟩ := limits.box_within member
  exact ofInt_le (by omega) most

/-- A function that cuts a box, or that is given one which needs no cut. -/
def CfgCall.Narrow (call : CfgCall) : CfgFunction → Prop
  | .affineBoxSplit | .perspectiveBoxSplit | .resizeBoxSplit => True
  | .bsAffineCfgStuff | .bsPerspectiveCfgStuff | .bsResizeCfgStuff =>
    0 ≤ call.dst.width ∧ call.dst.width ≤ 64

/-- What such a function emits is narrow enough. -/
theorem emitted_width (function : CfgFunction) (narrow : call.Narrow function)
    (emits : call.hwCfgs unset function = some cfgs) (member : cfg ∈ cfgs) : cfg.dstBoxW ≤ 64 := by
  -- Each case goes back to the destination box that the configuration is made for.
  cases function with
  | bsAffineCfgStuff =>
    obtain ⟨made, given, rfl⟩ := Option.map_eq_some_iff.mp emits
    obtain ⟨warp, listed, rfl⟩ := List.mem_map.mp member
    unfold bsAffineCfgStuff at given
    split at given
    · cases given
      rw [List.mem_singleton.mp listed]
      exact ofInt_le narrow.1 narrow.2
    · cases given
  | bsPerspectiveCfgStuff =>
    obtain ⟨made, given, rfl⟩ := Option.map_eq_some_iff.mp emits
    obtain ⟨warp, listed, rfl⟩ := List.mem_map.mp member
    unfold bsPerspectiveCfgStuff at given
    split at given
    · cases given
      rw [List.mem_singleton.mp listed]
      exact ofInt_le narrow.1 narrow.2
    · cases given
  | affineBoxSplit =>
    obtain ⟨made, given, rfl⟩ := Option.map_eq_some_iff.mp emits
    obtain ⟨warp, listed, rfl⟩ := List.mem_map.mp member
    obtain ⟨box, among, sub, _, rfl⟩ := Matching.forall₂_right (affineBoxSplit_parts given) listed
    exact dstSbox_width among
  | perspectiveBoxSplit =>
    obtain ⟨made, given, rfl⟩ := Option.map_eq_some_iff.mp emits
    obtain ⟨warp, listed, rfl⟩ := List.mem_map.mp member
    unfold perspectiveBoxSplit at given
    split at given
    · cases given
      obtain ⟨box, among, found⟩ := List.mem_filterMap.mp listed
      dsimp only at found
      split at found
      · cases found
        exact dstSbox_width among
      · cases found
    · cases given
  | bsResizeCfgStuff =>
    obtain ⟨made, given, rfl⟩ := Option.map_eq_some_iff.mp emits
    obtain ⟨resize, listed, rfl⟩ := List.mem_map.mp member
    unfold bsResizeCfgStuff at given
    split at given
    · obtain ⟨gain, _, rfl⟩ := Option.map_eq_some_iff.mp given
      rw [List.mem_singleton.mp listed]
      exact ofInt_le narrow.1 narrow.2
    · cases given
  | resizeBoxSplit =>
    obtain ⟨made, given, rfl⟩ := Option.map_eq_some_iff.mp emits
    obtain ⟨resize, listed, rfl⟩ := List.mem_map.mp member
    unfold resizeBoxSplit at given
    split at given
    · obtain ⟨gain, _, pieces⟩ := Option.bind_eq_some_iff.mp given
      obtain ⟨cut, mapped, rfl⟩ := Option.map_eq_some_iff.mp pieces
      obtain ⟨box, among, piece⟩ := Matching.forall₂_right (Matching.forall₂_mapM mapped) listed
      split at piece
      · cases piece
        exact resizeSbox_width among
      · cases piece
    · cases given

/-- What such a function emits is for one box, and has the bus of the destination. -/
theorem emitted_single (function : CfgFunction) (narrow : call.Narrow function)
    (emits : call.hwCfgs unset function = some cfgs) (member : cfg ∈ cfgs) :
    cfg.Single ∧ cfg.obufcBus = call.dst.locate := by
  have uniform := emitted_uniform function emits member
  exact ⟨⟨uniform.boxNum, emitted_width function narrow emits member, uniform.boxBus,
    uniform.irqMask⟩, uniform.obufcBus⟩

/-- A loop over the boxes has the configurations that a function emits for one of them. -/
theorem classLoop_member {src : ImageInfo} {coefs : Coefs} {boxes : List (WarpBox × ImageInfo)}
    {boxSplit cfgStuff : CfgFunction}
    (looped : classLoop splitsAbove64 (addCfgs unset boxSplit) (addCfgs unset cfgStuff) src coefs []
      boxes = some cfgs) (member : cfg ∈ cfgs) :
    ∃ box ∈ boxes, ∃ emitted, (box.1.call src box.2 coefs).hwCfgs unset
      (if splitsAbove64 box then boxSplit else cfgStuff) = some emitted ∧ cfg ∈ emitted := by
  -- The loop appends what is emitted for each box.
  have appends : ∀ (bsCfgs : List HwOnceCfg) (box : WarpBox × ImageInfo),
      (if splitsAbove64 box then addCfgs unset boxSplit bsCfgs box.1 src box.2 coefs
        else addCfgs unset cfgStuff bsCfgs box.1 src box.2 coefs) =
      ((box.1.call src box.2 coefs).hwCfgs unset
        (if splitsAbove64 box then boxSplit else cfgStuff)).map (bsCfgs ++ ·) := by
    intro bsCfgs box
    split <;> rfl
  rw [classLoop, Groups.foldlM_appends appends] at looped
  obtain ⟨lists, mapped, rfl⟩ := Option.map_eq_some_iff.mp looped
  obtain ⟨emitted, listed, inside⟩ := List.mem_flatten.mp member
  obtain ⟨box, among, emits⟩ := Matching.forall₂_right (Matching.forall₂_mapM mapped) listed
  exact ⟨box, among, emitted, emits, inside⟩

/-- So they are for one box each, if no destination has a negative width. -/
theorem looped_single {src : ImageInfo} {coefs : Coefs} {boxes : List (WarpBox × ImageInfo)}
    {boxSplit cfgStuff : CfgFunction} (cuts : ∀ call : CfgCall, call.Narrow boxSplit)
    (takes : ∀ call : CfgCall, 0 ≤ call.dst.width → call.dst.width ≤ 64 → call.Narrow cfgStuff)
    (sized : ∀ box ∈ boxes, 0 ≤ box.2.width)
    (looped : classLoop splitsAbove64 (addCfgs unset boxSplit) (addCfgs unset cfgStuff) src coefs []
      boxes = some cfgs) (member : cfg ∈ cfgs) :
    cfg.Single ∧ ∃ box ∈ boxes, cfg.obufcBus = box.2.locate := by
  obtain ⟨box, among, emitted, given, inside⟩ := classLoop_member looped member
  have narrow : (box.1.call src box.2 coefs).Narrow
      (if splitsAbove64 box then boxSplit else cfgStuff) := by
    split
    · exact cuts _
    · rename_i whole
      simp only [splitsAbove64, decide_eq_true_eq] at whole
      exact takes _ (sized box among) (by simp only [WarpBox.call]; omega)
  obtain ⟨single, bus⟩ := emitted_single _ narrow given inside
  exact ⟨single, box, among, bus⟩

/-- The configurations of a resize call are those of one of its boxes. -/
theorem resized_single (call : StartCall) (sized : ∀ box ∈ call.boxes, 0 ≤ box.2.width)
    {made : List ResizeCfg}
    (starts : bsResizeStart call.src call.resizeBoxes call.coefs.1 call.coefs.2 = some made)
    {resize : ResizeCfg} (member : resize ∈ made) :
    (resize.hw unset).Single ∧ ∃ box ∈ call.boxes, (resize.hw unset).obufcBus = box.2.locate := by
  rw [bsResizeStart, resize_loops] at starts
  obtain ⟨pieces, cut, rest⟩ := Option.bind_eq_some_iff.mp starts
  obtain ⟨wholes, stuffed, rfl⟩ := Option.map_eq_some_iff.mp rest
  rcases List.mem_append.mp member with piece | whole
  · obtain ⟨list, listed, inside⟩ := List.mem_flatten.mp piece
    obtain ⟨box, among, given⟩ := Matching.forall₂_right (Matching.forall₂_mapM cut) listed
    obtain ⟨⟨warp, dst⟩, own, rfl⟩ := List.mem_map.mp (List.mem_filter.mp among).1
    have emits : (warp.call call.src dst call.coefs).hwCfgs unset .resizeBoxSplit =
        some (list.map (ResizeCfg.hw unset)) := congrArg (Option.map (List.map _)) given
    obtain ⟨single, bus⟩ := emitted_single .resizeBoxSplit trivial emits
      (List.mem_map.mpr ⟨resize, inside, rfl⟩)
    exact ⟨single, _, own, bus⟩
  · obtain ⟨list, listed, inside⟩ := List.mem_flatten.mp whole
    obtain ⟨box, among, given⟩ := Matching.forall₂_right (Matching.forall₂_mapM stuffed) listed
    obtain ⟨kept, small⟩ := List.mem_filter.mp among
    obtain ⟨⟨warp, dst⟩, own, rfl⟩ := List.mem_map.mp kept
    have emits : (warp.call call.src dst call.coefs).hwCfgs unset .bsResizeCfgStuff =
        some (list.map (ResizeCfg.hw unset)) := congrArg (Option.map (List.map _)) given
    -- A box that is not cut is at most as wide as the line buffer.
    have width : dst.width ≤ 64 := by
      have none : ¬ (bsResizeW < dst.width ∨ sboxHMax call.src < dst.height) := by
        simpa [startSplits] using small
      simp only [bsResizeW] at none
      omega
    obtain ⟨single, bus⟩ := emitted_single .bsResizeCfgStuff ⟨sized _ own, width⟩ emits
      (List.mem_map.mpr ⟨resize, inside, rfl⟩)
    exact ⟨single, _, own, bus⟩

/-- All configurations of a call are for one box each, if no destination has a negative width. -/
theorem started_single (call : StartCall) (function : StartFunction)
    (sized : ∀ box ∈ call.boxes, 0 ≤ box.2.width)
    (emits : call.bsCfgs unset unreached function = some cfgs) (member : cfg ∈ cfgs) :
    cfg.Single ∧ ∃ box ∈ call.boxes, cfg.obufcBus = box.2.locate := by
  cases function with
  | bsAffineStart =>
    have looped : classLoop splitsAbove64 (addCfgs unset .affineBoxSplit)
        (addCfgs unset .bsAffineCfgStuff) call.src call.coefs [] call.boxes = some cfgs := by
      simpa [StartCall.bsCfgs, bsAffineStart, warpStuffing, classLoop] using emits
    refine looped_single ?_ ?_ sized looped member
    · exact fun _ => trivial
    · exact fun _ least most => ⟨least, most⟩
  | bsPerspectiveStart =>
    have looped : classLoop splitsAbove64 (addCfgs unset .perspectiveBoxSplit)
        (addCfgs unset .bsPerspectiveCfgStuff) call.src call.coefs [] call.boxes = some cfgs := by
      simpa [StartCall.bsCfgs, bsPerspectiveStart, warpStuffing, classLoop] using emits
    refine looped_single ?_ ?_ sized looped member
    · exact fun _ => trivial
    · exact fun _ least most => ⟨least, most⟩
  | bsResizeStart =>
    obtain ⟨made, starts, rfl⟩ := Option.map_eq_some_iff.mp emits
    obtain ⟨resize, listed, rfl⟩ := List.mem_map.mp member
    exact resized_single call sized starts listed

end Started

/--
However many boxes a call has, its chain stays within its buffer and the registers tell the hardware
all of it; it runs, frame after frame, what would be written directly for each configuration exactly
when no destination is in the reserved memory and no gain is left out.
-/
theorem bsChainStuff_started (call : StartCall) (function : StartFunction) (unset : HwOnceCfg)
    (unreached : Stuffing WarpBox HwOnceCfg Coefs) {cfgs : List HwOnceCfg}
    (sized : ∀ box ∈ call.boxes, 0 ≤ box.2.width)
    (emits : call.bsCfgs unset unreached function = some cfgs) (some' : cfgs ≠ [])
    (room : bscChainSize * cfgs.length < 2 ^ 32) (platform : Platform) (held : UInt32)
    (mem : Nat → UInt32) (base : Nat) :
    ∃ stuffed, bsChainStuff platform call.coefs.1 (fun i => (call.coefs.2 i).toUInt8) cfgs mem
        (some base) = some stuffed ∧
      stuffed.Sound platform cfgs mem base ∧
      (stuffed.Runs platform held cfgs ↔ ∀ cfg ∈ cfgs, cfg.Kept) :=
  bsChainStuff_sound _ _ held mem base some'
    (fun _ member => (started_single call function sized emits member).1) room

/-- Two copies of a square into the main memory. -/
def copyTwice : StartCall :=
  let call := copyInto .nmem
  let box : WarpBox := { matrix := call.matrix, guides := call.guides, leftover := 0
                         box := call.box, zeroPoint := call.zeroPoint }
  { src := call.src, boxes := [(box, call.dst), (box, call.dst)], coefs := (call.coef, call.offset) }

/-- Their chain has two frames. -/
theorem bsChainStuff_started_twice : ∃ stuffed, bsChainStuff .eyerSimEnv copyTwice.coefs.1
      (fun i => (copyTwice.coefs.2 i).toUInt8) [copyCfg .nmem, copyCfg .nmem] (fun _ => 0) (some 0) =
        some stuffed ∧ stuffed.Runs .eyerSimEnv 0 [copyCfg .nmem, copyCfg .nmem] := by
  have sized : ∀ box ∈ copyTwice.boxes, 0 ≤ box.2.width := by decide
  have unreached : Stuffing WarpBox HwOnceCfg Coefs :=
    let none _ _ _ _ _ := none
    ⟨none, none, none, none, none, none⟩
  have emits : copyTwice.bsCfgs blank unreached .bsAffineStart =
      some [copyCfg .nmem, copyCfg .nmem] := rfl
  obtain ⟨stuffed, made, _, runs⟩ := bsChainStuff_started copyTwice .bsAffineStart blank unreached
    sized emits (by simp) (by decide) .eyerSimEnv 0 (fun _ => 0) 0
  refine ⟨stuffed, made, runs.mpr ?_⟩
  intro cfg member
  have copy : cfg = copyCfg .nmem := by simpa using member
  rw [copy]
  exact ⟨by decide, fun _ => rfl⟩

end Aip.Bscaler
