import Aip.Bscaler.Planes

/-! The registers of the frame converter, written one by one or put into a chain. -/

namespace Aip.Bscaler

def frmcCtrl : UInt32 := 0 * 4
def frmcMode : UInt32 := 1 * 4
def frmcYbaseSrc : UInt32 := 2 * 4
def frmcCbaseSrc : UInt32 := 3 * 4
def frmcWhSrc : UInt32 := 4 * 4
def frmcPsSrc : UInt32 := 5 * 4
def frmcBaseDst : UInt32 := 6 * 4
def frmcWhDst : UInt32 := 7 * 4
def frmcPsDst : UInt32 := 8 * 4
def frmcBoxBase : UInt32 := 9 * 4
def frmcMono : UInt32 := 10 * 4
def frmcExtremeY : UInt32 := 11 * 4

/-- `BSCALER_FRMC_BOX0` to `BSCALER_FRMC_BOX10`. -/
def frmcBox (n : UInt32) : UInt32 := (16 + n) * 4

def param9 : UInt32 := 57 * 4
def frmcIsum : UInt32 := 62 * 4
def frmcOsum : UInt32 := 63 * 4

/-- The value of a location in the enumeration. -/
def DataLocate.code : DataLocate → UInt32
  | nmem => 0 | oram => 1 | rmem => 2

/-- `bsc_hw_once_cfg_s`, with its formats as numbers and without what only the model reads. -/
structure HwOnceCfg where
  srcBase0 : UInt32
  srcBase1 : UInt32
  srcFormat : UInt32
  srcLineStride : UInt32
  srcBoxX : UInt32
  srcBoxY : UInt32
  srcBoxW : UInt32
  srcBoxH : UInt32
  dstFormat : UInt32
  dstLineStride : UInt32
  dstBoxX : UInt32
  dstBoxY : UInt32
  dstBoxW : UInt32
  dstBoxH : UInt32
  affine : Bool
  boxMode : Bool
  yGainExp : UInt32
  zeroPoint : UInt8
  matrix : Matrix
  boxNum : UInt32
  dstBase : Fin 64 → UInt32
  boxesInfo : UInt32
  monoX : UInt8
  monoY : UInt8
  extremePoint : Fin 64 → Int8
  boxBus : UInt8
  ibufcBus : DataLocate
  obufcBus : DataLocate
  irqMask : UInt8

/-- The builds, each with what it translates addresses by. -/
inductive Platform where
  | eyerSimEnv
  | cseSimEnv (aieGetOramPaddr aieGetDdrPaddr : UInt32 → UInt32)
  | chipSimEnv (pfVa2Pa : UInt32 → UInt32)

/-- The physical address of a plane of the source. -/
def Platform.physSrc (platform : Platform) (bus : DataLocate) (base : UInt32) : UInt32 :=
  match platform with
  | eyerSimEnv => base
  | cseSimEnv oram ddr =>
    match bus with
    | .oram => oram base
    | .nmem => ddr base
    -- The address is already physical.
    | .rmem => base
  | chipSimEnv va2pa => va2pa base

/-- The physical address of a plane of the destination. -/
def Platform.physDst (platform : Platform) (bus : DataLocate) (base : UInt32) : UInt32 :=
  match platform with
  | eyerSimEnv => base
  | cseSimEnv oram ddr => if bus.code ≠ 0 then oram base else ddr base
  | chipSimEnv va2pa => va2pa base

/-- The physical address of the box information. -/
def Platform.physBoxes (platform : Platform) (bus : UInt8) (base : UInt32) : UInt32 :=
  match platform with
  | eyerSimEnv => base
  | cseSimEnv oram ddr => if bus ≠ 0 then oram base else ddr base
  | chipSimEnv va2pa => va2pa base

/-- A value for a register. -/
structure RegWrite where
  reg : UInt32
  val : UInt32
  deriving DecidableEq, Repr

namespace HwOnceCfg

variable (cfg : HwOnceCfg)

def bppMode : UInt32 := cfg.srcFormat >>> 5 &&& 3

/-- The addresses of the first planes of the destination, with `none` behind the end of the array. -/
def physDstBases (platform : Platform) (boxNum : Nat) : Option (List UInt32) :=
  (List.range boxNum).mapM fun i =>
    if inside : i < 64 then some (platform.physDst cfg.obufcBus (cfg.dstBase ⟨i, inside⟩)) else none

/-- Four extreme points from a column on, with `none` behind the end of the array. -/
def extremeWord (i : Nat) : Option UInt32 :=
  if inside : i + 3 < 64 then
    let point (k : Fin 64) : UInt32 := (cfg.extremePoint k).toInt32.toUInt32
    some (point ⟨i, by omega⟩ ||| point ⟨i + 1, by omega⟩ <<< 8 ||| point ⟨i + 2, by omega⟩ <<< 16 |||
      point ⟨i + 3, inside⟩ <<< 24)
  else none

/-- The words of all columns, four at a time. -/
def extremeWords : Option (List UInt32) :=
  (List.range ((cfg.dstBoxW.toNat + 3) / 4)).mapM fun k => cfg.extremeWord (4 * k)

/-- The mode without the gain. -/
def modeWord : UInt32 :=
  let srcFormat := cfg.srcFormat &&& 1
  let dstFormat := cfg.dstFormat &&& 1
  let affine : UInt32 := if cfg.affine then 1 else 0
  let boxMode : UInt32 := if cfg.boxMode then 1 else 0
  srcFormat ||| affine <<< 1 ||| boxMode <<< 2 ||| dstFormat <<< 3 ||| (cfg.bppMode &&& 3) <<< 4 |||
    (cfg.zeroPoint.toUInt32 &&& 0xff) <<< 8

/-- The mode with the gain. -/
def gainedMode : UInt32 := cfg.modeWord ||| (cfg.yGainExp &&& 7) <<< 16

/-- The writes between the mode and the extreme points. -/
def boxWrites : List RegWrite :=
  [⟨frmcWhSrc, cfg.srcBoxH <<< 16 ||| cfg.srcBoxW⟩,
    ⟨frmcPsSrc, cfg.srcLineStride⟩,
    ⟨frmcWhDst, cfg.dstBoxH <<< 16 ||| cfg.dstBoxW⟩,
    ⟨frmcPsDst, cfg.dstLineStride &&& 0xffff⟩,
    ⟨frmcBox 0, cfg.srcBoxY <<< 16 ||| cfg.srcBoxX⟩,
    ⟨frmcBox 1, cfg.dstBoxY <<< 16 ||| cfg.dstBoxX⟩,
    ⟨frmcBox 2, (cfg.matrix 0).toUInt32⟩,
    ⟨frmcBox 3, (cfg.matrix 1).toUInt32⟩,
    ⟨frmcBox 4, (cfg.matrix 2).toUInt32⟩,
    ⟨frmcBox 5, (cfg.matrix 3).toUInt32⟩,
    ⟨frmcBox 6, (cfg.matrix 4).toUInt32⟩,
    ⟨frmcBox 7, (cfg.matrix 5).toUInt32⟩,
    ⟨frmcBox 8, (cfg.matrix 6).toUInt32⟩,
    ⟨frmcBox 9, (cfg.matrix 7).toUInt32⟩,
    ⟨frmcBox 10, (cfg.matrix 8).toUInt32⟩,
    ⟨frmcMono, cfg.monoX.toUInt32 ||| cfg.monoY.toUInt32 <<< 16⟩]

/-- The `int` that bounds the loop over the destinations when the registers are written directly. -/
def intBoxNum : Nat := if cfg.dstFormat &&& 1 = 0 then 2 else cfg.boxNum.toInt32.toInt.toNat

/-- The `uint32_t` that bounds it when a chain is made. -/
def chainBoxNum : Nat := if cfg.dstFormat &&& 1 = 0 then 2 else cfg.boxNum.toNat

end HwOnceCfg

/--
`bscaler_frmc_cfg`: the writes to the registers, in order, for what the colour register holds.

The result is `none` where an array is read behind its end.
-/
def bscalerFrmcCfg (platform : Platform) (held : UInt32) (cfg : HwOnceCfg) :
    Option (List RegWrite) := do
  let nv2bgrOrder := cfg.dstFormat >>> 1 &&& 0xF
  let physDstBase ← cfg.physDstBases platform cfg.intBoxNum
  let extremes ← cfg.extremeWords
  some ([⟨param9, held ||| (nv2bgrOrder &&& 0xF) <<< 4⟩,
      ⟨frmcYbaseSrc, platform.physSrc cfg.ibufcBus cfg.srcBase0⟩,
      ⟨frmcCbaseSrc, platform.physSrc cfg.ibufcBus cfg.srcBase1⟩] ++
    physDstBase.map (⟨frmcBaseDst, ·⟩) ++
    [⟨frmcBoxBase, platform.physBoxes cfg.boxBus cfg.boxesInfo⟩, ⟨frmcMode, cfg.gainedMode⟩] ++
    cfg.boxWrites ++ extremes.map (⟨frmcExtremeY, ·⟩) ++
    [⟨frmcIsum, 0⟩, ⟨frmcOsum, 0⟩,
      ⟨frmcCtrl, cfg.obufcBus.code <<< 12 ||| (cfg.ibufcBus.code &&& 1) <<< 11 |||
        cfg.boxBus.toUInt32 <<< 10 ||| cfg.irqMask.toUInt32 <<< 9 ||| 1⟩])

/-- A chain while it is made: the memory of words, the pointer into it and the length in bytes. -/
structure Writer where
  mem : Nat → UInt32
  addr : Nat
  len : UInt32

/-- `write_chain`, with the length that the caller adds up. -/
def Writer.writeChain (writer : Writer) (write : RegWrite) (tm : UInt32) : Writer :=
  let mem := Function.update writer.mem writer.addr write.val
  { mem := Function.update mem (writer.addr + 1) (tm <<< 31 ||| write.reg)
    addr := writer.addr + 2
    len := writer.len + 8 }

/-- Several writes that are not the last one. -/
def Writer.writeAll (writer : Writer) (writes : List RegWrite) : Writer :=
  writes.foldl (fun writer write => writer.writeChain write 0) writer

/-- The test for the mode without the gain. -/
def HwOnceCfg.SkipsGain (cfg : HwOnceCfg) : Prop :=
  2 * 65536 ≤ (cfg.matrix mscaley).toInt ∧ cfg.srcBoxY = 0 ∧ cfg.srcBoxX = 0 ∧ cfg.bppMode ≠ 0 ∧
    cfg.dstBoxY = 0 ∧ cfg.dstBoxX = 0

instance (cfg : HwOnceCfg) : Decidable cfg.SkipsGain := inferInstanceAs (Decidable (_ ∧ _))

/-- `bscaler_frmc_chain_cfg`, with `none` where an array is read behind its end. -/
def bscalerFrmcChainCfg (platform : Platform) (cfg : HwOnceCfg) (mem : Nat → UInt32) (addr : Nat) :
    Option Writer := do
  let physDstBase ← cfg.physDstBases platform cfg.chainBoxNum
  let extremes ← cfg.extremeWords
  let writer : Writer := { mem := mem, addr := addr, len := 0 }
  let writer := writer.writeAll [⟨frmcYbaseSrc, platform.physSrc cfg.ibufcBus cfg.srcBase0⟩,
    ⟨frmcCbaseSrc, platform.physSrc cfg.ibufcBus cfg.srcBase1⟩]
  let writer := writer.writeAll (physDstBase.map (⟨frmcBaseDst, ·⟩))
  let writer := writer.writeAll
    [⟨frmcBoxBase, platform.physBoxes cfg.boxBus cfg.boxesInfo⟩,
      ⟨frmcMode, if cfg.SkipsGain then cfg.modeWord else cfg.gainedMode⟩]
  let writer := writer.writeAll cfg.boxWrites
  let writer := writer.writeAll (extremes.map (⟨frmcExtremeY, ·⟩))
  some (writer.writeChain
    ⟨frmcCtrl, (cfg.obufcBus.code &&& 1) <<< 12 ||| (cfg.ibufcBus.code &&& 1) <<< 11 |||
      cfg.boxBus.toUInt32 <<< 10 ||| cfg.irqMask.toUInt32 <<< 9 ||| 1⟩ 1)

/-- The bytes that `bs_chain_stuff` reserves for each configuration. -/
def bscChainSize : Nat := (64 + 64 + 22) * 8

/-- The writes that a chain is replayed as, pair after pair, without the bit of the last one. -/
def replay (mem : Nat → UInt32) : Nat → Nat → List RegWrite
  | _, 0 => []
  | addr, pairs + 1 =>
    ⟨mem (addr + 1) &&& 0x7FFFFFFF, mem addr⟩ :: replay mem (addr + 2) pairs

/-- The writes that a chain has to make: neither the colour order nor the checksums. -/
def RegWrite.inChain (write : RegWrite) : Bool :=
  write.reg ≠ param9 ∧ write.reg ≠ frmcIsum ∧ write.reg ≠ frmcOsum

section Produced

/-- A member that a function may leave as it was. -/
def ofMatrix (unset : Matrix) (matrix : Fin 9 → Option Int32) : Matrix :=
  fun i => (matrix i).getD (unset i)

/-- The destination planes, of which the functions set the first ones. -/
def ofBases (unset : Fin 64 → UInt32) (base0 : Int) (base1 : Option Int) : Fin 64 → UInt32 :=
  fun i => if i = 0 then UInt32.ofInt base0
    else if i = 1 then (base1.map UInt32.ofInt).getD (unset i) else unset i

/-- An affine configuration in the members of the hardware. -/
def BscHwOnceCfg.hw (unset : HwOnceCfg) (src dst : ImageInfo) (cfg : BscHwOnceCfg) : HwOnceCfg :=
  { unset with
    srcBase0 := UInt32.ofInt cfg.srcBase0
    srcBase1 := UInt32.ofInt cfg.srcBase1
    srcFormat := cfg.srcFormat.code.toUInt32
    srcLineStride := UInt32.ofInt cfg.srcLineStride
    srcBoxX := UInt32.ofInt cfg.srcBoxX
    srcBoxY := UInt32.ofInt cfg.srcBoxY
    srcBoxW := UInt32.ofInt cfg.srcBoxW
    srcBoxH := UInt32.ofInt cfg.srcBoxH
    dstFormat := cfg.dstFormat.code.toUInt32
    dstLineStride := UInt32.ofInt cfg.dstLineStride
    dstBoxX := UInt32.ofInt cfg.dstBoxX
    dstBoxY := UInt32.ofInt cfg.dstBoxY
    dstBoxW := UInt32.ofInt cfg.dstBoxW
    dstBoxH := UInt32.ofInt cfg.dstBoxH
    affine := true
    boxMode := true
    yGainExp := 0
    zeroPoint := cfg.zeroPoint
    matrix := cfg.matrix
    boxNum := 1
    dstBase := ofBases unset.dstBase cfg.dstBase0 (some cfg.dstBase1)
    boxesInfo := 0
    boxBus := 0
    ibufcBus := src.locate
    obufcBus := dst.locate
    irqMask := 1 }

/-- A perspective configuration in the members of the hardware. -/
def PerspectiveCfg.hw (unset : HwOnceCfg) (src dst : ImageInfo) (cfg : PerspectiveCfg) :
    HwOnceCfg :=
  { cfg.toBscHwOnceCfg.hw unset src dst with
    monoX := cfg.guides.monoX
    monoY := cfg.guides.monoY
    extremePoint := fun i => cfg.guides.extremePoint i }

/-- A resize configuration in the members of the hardware. -/
def ResizeCfg.hw (unset : HwOnceCfg) (cfg : ResizeCfg) : HwOnceCfg :=
  { unset with
    srcBase0 := UInt32.ofInt cfg.srcBase0
    srcBase1 := UInt32.ofInt cfg.srcBase1
    srcFormat := cfg.srcFormat.code.toUInt32
    srcLineStride := UInt32.ofInt cfg.srcLineStride
    srcBoxX := UInt32.ofInt cfg.srcBox.x
    srcBoxY := UInt32.ofInt cfg.srcBox.y
    srcBoxW := UInt32.ofInt cfg.srcBox.w
    srcBoxH := UInt32.ofInt cfg.srcBox.h
    dstFormat := cfg.dstFormat.code.toUInt32
    dstLineStride := UInt32.ofInt cfg.dstLineStride
    dstBoxX := UInt32.ofInt cfg.dstBox.x
    dstBoxY := UInt32.ofInt cfg.dstBox.y
    dstBoxW := UInt32.ofInt cfg.dstBox.w
    dstBoxH := UInt32.ofInt cfg.dstBox.h
    affine := cfg.affine
    boxMode := cfg.boxMode
    yGainExp := cfg.yGainExp.toUInt32
    zeroPoint := cfg.zeroPoint
    matrix := ofMatrix unset.matrix cfg.matrix
    boxNum := cfg.boxNum.toUInt32
    dstBase := ofBases unset.dstBase cfg.dstBase0 cfg.dstBase1
    boxesInfo := UInt32.ofInt cfg.boxesInfo
    boxBus := cfg.boxBus.toUInt8
    ibufcBus := cfg.ibufcBus
    obufcBus := cfg.obufcBus
    irqMask := cfg.irqMask.toUInt8 }

/-- The configurations that a function emits, with what an unset member holds. -/
def CfgCall.hwCfgs (call : CfgCall) (unset : HwOnceCfg) : CfgFunction → Option (List HwOnceCfg)
  | .bsAffineCfgStuff =>
    (bsAffineCfgStuff call.matrix call.leftover call.nv2bgrAlpha call.affineInfo call.src.toDataInfo
      call.dst.toDataInfo call.coef call.offset).map
      (List.map (BscHwOnceCfg.hw unset call.src call.dst))
  | .affineBoxSplit =>
    (affineBoxSplit call.matrix call.nv2bgrAlpha call.affineInfo call.src.toDataInfo
      call.dst.toDataInfo call.coef call.offset).map
      (List.map (BscHwOnceCfg.hw unset call.src call.dst))
  | .bsPerspectiveCfgStuff =>
    (bsPerspectiveCfgStuff call.matrix
      (call.guides { x := 0, y := 0, w := call.dst.width, h := call.dst.height }) call.leftover
      call.nv2bgrAlpha call.affineInfo call.src.toDataInfo call.dst.toDataInfo call.coef
      call.offset).map (List.map (PerspectiveCfg.hw unset call.src call.dst))
  | .perspectiveBoxSplit =>
    (perspectiveBoxSplit call.matrix call.guides call.nv2bgrAlpha call.affineInfo
      call.src.toDataInfo call.dst.toDataInfo call.coef call.offset).map
      (List.map (PerspectiveCfg.hw unset call.src call.dst))
  | .bsResizeCfgStuff =>
    (bsResizeCfgStuff [] call.resizeInfo call.src call.dst call.coef call.offset).map
      (List.map (ResizeCfg.hw unset))
  | .resizeBoxSplit =>
    (resizeBoxSplit [] call.resizeInfo call.src call.dst call.coef call.offset).map
      (List.map (ResizeCfg.hw unset))

end Produced

end Aip.Bscaler
