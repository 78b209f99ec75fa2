import Aip.Bscaler.Im2col
import Aip.Bscaler.Isum
import Aip.Bscaler.Nv12

/-! `bst_mdl`: an image converted to another format, with the sums of what it reads and writes. -/

namespace Aip.Bscaler

/-- `bst_hw_data_format_e`. -/
inductive BstFormat where
  | nv12 | bgra | gbra | rbga | brga | grba | rgba | abgr | agbr | arbg | abrg | agrb | argb
  | vbgr | vrgb
  deriving DecidableEq, Repr

/-- The value of a format in the enumeration. -/
def BstFormat.code : BstFormat → Nat
  | nv12 => 0x00 | bgra => 0x01 | gbra => 0x11 | rbga => 0x21 | brga => 0x31 | grba => 0x41
  | rgba => 0x51 | abgr => 0x81 | agbr => 0x91 | arbg => 0xA1 | abrg => 0xB1 | agrb => 0xC1
  | argb => 0xD1 | vbgr => 0x03 | vrgb => 0x53

/-- `bs_format_to_bst`, with `none` where it asserts. -/
def bsFormatToBst : DataFormat → Option BstFormat
  | .nv12 => some .nv12
  | .bgra => some .bgra
  | .gbra => some .gbra
  | .rbga => some .rbga
  | .brga => some .brga
  | .grba => some .grba
  | .rgba => some .rgba
  | .abgr => some .abgr
  | .agbr => some .agbr
  | .arbg => some .arbg
  | .abrg => some .abrg
  | .agrb => some .agrb
  | .argb => some .argb
  | .vbgr => some .vbgr
  | .vrgb => some .vrgb
  | .fmu2 | .fmu4 | .fmu8 => none

/-- `bst_format_is_bgr`. -/
def bstFormatIsBgr (format : BstFormat) : Bool := format.code &&& 0x3 == 0x1

/-- `bst_hw_once_cfg_s`, without what only the hardware reads. -/
structure BstHwOnceCfg where
  srcFormat : BstFormat
  srcW : UInt16
  srcH : UInt16
  srcBase0 : Int
  srcBase1 : Int
  srcLineStride : UInt32
  dstFormat : BstFormat
  dstW : UInt16
  dstH : UInt16
  dstBase0 : Int
  dstBase1 : Int
  dstLineStride : UInt32
  dstPlaneStride : UInt32
  kernelSize : UInt8
  kernelXstride : UInt8
  kernelYstride : UInt8
  zeroPoint : UInt32
  padLeft : UInt8
  padRight : UInt8
  padTop : UInt8
  padBottom : UInt8
  nv2bgrAlpha : UInt8
  nv2bgrCoef : Fin 9 → UInt32
  nv2bgrOfst : Fin 2 → UInt8

/-- `order`. -/
def BstHwOnceCfg.order (cfg : BstHwOnceCfg) : Nat := cfg.dstFormat.code >>> 4 &&& 0xF

/-- The address of an element; pointers and what is added to them have 32 bits. -/
def cell (pointer index : Int) : Int := (pointer + index) % 4294967296

/-- The stores of consecutive elements. -/
def cellStores (pointer index : Int) (bytes : List UInt8) : List (Int × UInt8) :=
  bytes.mapIdx fun k byte => (cell pointer (index + k), byte)

/-- The stores of `bst_nv2bgr` for the four pixels that share one pair of chroma bytes. -/
def bstBlock (mem : Memory) (srcY srcC : Int) (srcS : UInt32) (dst : Int) (dstS : UInt32)
    (order : Nat) (coef : Fin 9 → UInt32) (ofst : Fin 2 → UInt8) (alpha : UInt8) (x y : Int) :
    List (Int × UInt8) :=
  let s : Int := srcS.toNat
  let d : Int := dstS.toNat
  let pixY0 := mem (cell srcY (s * y + x))
  let pixY1 := mem (cell srcY (s * y + x + 1))
  let pixY2 := mem (cell srcY (s * (y + 1) + x))
  let pixY3 := mem (cell srcY (s * (y + 1) + (x + 1)))
  -- The product has 32 bits when it is halved.
  let pixU := mem (cell srcC (u32 (s * y) / 2 + x))
  let pixV := mem (cell srcC (u32 (s * y) / 2 + x + 1))
  let rgba := fun pixY => yuv2rgb pixY pixU pixV coef ofst alpha order
  let dstPtr := d * y + x * 4
  cellStores dst dstPtr (rgba pixY0) ++ cellStores dst (dstPtr + 4) (rgba pixY1) ++
    cellStores dst (dstPtr + d) (rgba pixY2) ++ cellStores dst (dstPtr + d + 4) (rgba pixY3)

/-- The corners of the blocks, row after row. -/
def blocks (width height : Int) : List (Int × Int) :=
  (evens height).flatMap fun y => (evens width).map fun x => (x, y)

/-- `bst_nv2bgr`. -/
def bstNv2bgr (mem : Memory) (srcY srcC : Int) (srcS : UInt32) (dst : Int) (dstS : UInt32)
    (width height : Int) (order : Nat) (coef : Fin 9 → UInt32) (ofst : Fin 2 → UInt8)
    (alpha : UInt8) : Memory :=
  (blocks width height).foldl (fun mem corner =>
    Paint.paint mem (bstBlock mem srcY srcC srcS dst dstS order coef ofst alpha corner.1 corner.2))
    mem

/-- `memcpy` between two elements. -/
def memcpy (mem : Memory) (dst dstOffset src srcOffset : Int) (size : Nat) : Memory :=
  Paint.paint mem ((List.range size).map fun i : Nat =>
    (cell dst (dstOffset + i), mem (cell src (srcOffset + i))))

/-- What the loop of `bst_nv12_to_nv12` holds. -/
structure Nv12Copy where
  mem : Memory
  srcYOffset : Int
  srcCOffset : Int
  dstYOffset : Int
  dstCOffset : Int

/-- Copies a luma line. -/
def Nv12Copy.lumaLine (dstY srcY : Int) (dstLineStride srcLineStride : UInt32) (width : Nat)
    (s : Nv12Copy) : Nv12Copy :=
  { s with
    mem := memcpy s.mem dstY s.dstYOffset srcY s.srcYOffset width
    dstYOffset := s.dstYOffset + dstLineStride.toNat
    srcYOffset := s.srcYOffset + srcLineStride.toNat }

/-- Copies a chroma line. -/
def Nv12Copy.chromaLine (dstC srcC : Int) (dstLineStride srcLineStride : UInt32) (width : Nat)
    (s : Nv12Copy) : Nv12Copy :=
  { s with
    mem := memcpy s.mem dstC s.dstCOffset srcC s.srcCOffset width
    dstCOffset := s.dstCOffset + dstLineStride.toNat
    srcCOffset := s.srcCOffset + srcLineStride.toNat }

/-- One pass of the loop: an even and an odd luma line, and the chroma line that they share. -/
def Nv12Copy.pass (srcY srcC : Int) (srcLineStride : UInt32) (dstY dstC : Int)
    (dstLineStride : UInt32) (width : Nat) (s : Nv12Copy) : Nv12Copy :=
  let s := s.lumaLine dstY srcY dstLineStride srcLineStride width
  let s := s.lumaLine dstY srcY dstLineStride srcLineStride width
  s.chromaLine dstC srcC dstLineStride srcLineStride width

/-- `bst_nv12_to_nv12`. -/
def bstNv12ToNv12 (mem : Memory) (srcY srcC : Int) (srcLineStride : UInt32) (dstY dstC : Int)
    (dstLineStride : UInt32) (width height : Nat) : Memory :=
  let start : Nv12Copy :=
    { mem := mem, srcYOffset := 0, srcCOffset := 0, dstYOffset := 0, dstCOffset := 0 }
  ((List.range (height / 2)).foldl (fun s _ =>
    s.pass srcY srcC srcLineStride dstY dstC dstLineStride width) start).mem

/-- The rows, columns and bytes of an image of four-byte pixels, in the order of three loops. -/
def bytePasses (w h : Nat) : List (Nat × Nat × Nat) :=
  List.range h ×ˢ List.range w ×ˢ List.range 4

/-- The index of a byte of such an image. -/
def byteIndex (stride : UInt32) (at' : Nat × Nat × Nat) : Int :=
  at'.1 * stride.toNat + at'.2.1 * 4 + at'.2.2

/-- The byte of a pixel that `bst_bgr_to_bgr` gives the opacity to. -/
def isAlpha (nv2bgrOrder k : Nat) : Bool :=
  if nv2bgrOrder &&& 0x8 ≠ 0 then k == 0 else k == 3

/-- `bst_bgr_to_bgr`. -/
def bstBgrToBgr (mem : Memory) (src : Int) (srcLineStride : UInt32) (dst : Int)
    (dstLineStride : UInt32) (width height nv2bgrOrder : Nat) (nv2bgrAlpha : UInt8) : Memory :=
  (bytePasses width height).foldl (fun mem at' =>
    Paint.paint mem [(cell dst (byteIndex dstLineStride at'),
      if isAlpha nv2bgrOrder at'.2.2 then nv2bgrAlpha
      else mem (cell src (byteIndex srcLineStride at')))]) mem

/-- The planes of an NV12 image as the sums read them. -/
def nv12Planes (mem : Memory) (yBase cBase : Int) : SrcByte → UInt8
  | .luma offset => mem (cell yBase offset)
  | .chroma offset => mem (cell cBase offset)

/-- `bst_nv12_isum` and `bst_nv12_osum`, which differ in the sum that they add to. -/
def bstNv12Sum (mem : Memory) (yBase cBase : Int) (w h : Nat) (stride sum : UInt32) : UInt32 :=
  (bstNv12Isum (nv12Planes mem yBase cBase) w h stride
    { sum := sum, byteNum := 0, read := [] }).sum

/-- `bst_bgr_isum` and `bst_bgr_osum`, which differ in the same way. -/
def bstBgrSum (mem : Memory) (base : Int) (w h : Nat) (stride sum : UInt32) : UInt32 :=
  (bytePasses w h).foldl (fun sum at' => sum + (mem (cell base (byteIndex stride at'))).toUInt32) sum

/-- What `bst_mdl` changes: the memory, `bst_isum` and `bst_osum`. -/
structure BstMdl where
  mem : Memory
  bstIsum : UInt32
  bstOsum : UInt32

/-- The arguments of `normal2kernel`, with `none` where a stride is zero. -/
def BstHwOnceCfg.kernelArgs (cfg : BstHwOnceCfg) (srcLineStride : UInt32) : Option KernelArgs :=
  if strides : 0 < cfg.kernelXstride.toNat ∧ 0 < cfg.kernelYstride.toNat then
    some {
      width := cfg.srcW.toUInt32
      height := cfg.srcH.toUInt32
      kernelSize := cfg.kernelSize
      kernelXstride := cfg.kernelXstride
      kernelYstride := cfg.kernelYstride
      zeroPoint := cfg.zeroPoint
      padLeft := cfg.padLeft
      padRight := cfg.padRight
      padTop := cfg.padTop
      padBottom := cfg.padBottom
      srcLineStride := srcLineStride
      dstLineStride := cfg.dstLineStride
      dstPlaneStride := cfg.dstPlaneStride
      strides := strides }
  else none

/-- `normal2kernel` between two places of one memory. -/
def kernelInto (args : KernelArgs) (src dst : Int) (s : BstMdl) : BstMdl :=
  let stores := args.stores fun index => s.mem (cell src index)
  { s with
    mem := Paint.paint s.mem (stores.map fun store => (cell dst store.1, store.2))
    bstOsum := s.bstOsum + UInt32.ofNat (stores.map fun store => store.2.toNat).sum }

/-- The first part of `bst_mdl`, with `none` where it asserts. -/
def bstIsumPart (cfg : BstHwOnceCfg) (s : BstMdl) : Option BstMdl :=
  if cfg.srcFormat = .nv12 then
    let sum := bstNv12Sum s.mem cfg.srcBase0 cfg.srcBase1 cfg.srcW.toNat cfg.srcH.toNat
      cfg.srcLineStride s.bstIsum
    some { s with bstIsum := sum }
  else if bstFormatIsBgr cfg.srcFormat then
    let sum := bstBgrSum s.mem cfg.srcBase0 cfg.srcW.toNat cfg.srcH.toNat cfg.srcLineStride
      s.bstIsum
    some { s with bstIsum := sum }
  else none

/-- The second part of `bst_mdl`, for the buffer that `malloc` gives to the virtual channels. -/
def bstSelect (cfg : BstHwOnceCfg) (malloc : Int) (s : BstMdl) : Option BstMdl :=
  if cfg.srcFormat = .nv12 ∧ cfg.dstFormat = .nv12 then
    let mem := bstNv12ToNv12 s.mem cfg.srcBase0 cfg.srcBase1 cfg.srcLineStride cfg.dstBase0
      cfg.dstBase1 cfg.dstLineStride cfg.srcW.toNat cfg.srcH.toNat
    some { s with mem := mem }
  else if bstFormatIsBgr cfg.srcFormat ∧ bstFormatIsBgr cfg.dstFormat then
    let mem := bstBgrToBgr s.mem cfg.srcBase0 cfg.srcLineStride cfg.dstBase0 cfg.dstLineStride
      cfg.srcW.toNat cfg.srcH.toNat cfg.order cfg.nv2bgrAlpha
    some { s with mem := mem }
  else if cfg.srcFormat = .nv12 ∧ bstFormatIsBgr cfg.dstFormat then
    let mem := bstNv2bgr s.mem cfg.srcBase0 cfg.srcBase1 cfg.srcLineStride cfg.dstBase0
      cfg.dstLineStride cfg.srcW.toNat cfg.srcH.toNat cfg.order cfg.nv2bgrCoef cfg.nv2bgrOfst
      cfg.nv2bgrAlpha
    some { s with mem := mem }
  else if cfg.dstFormat = .vbgr ∨ cfg.dstFormat = .vrgb then
    if bstFormatIsBgr cfg.srcFormat then
      (cfg.kernelArgs cfg.srcLineStride).map fun args =>
        kernelInto args cfg.srcBase0 cfg.dstBase0 s
    else
      -- The pixels have four bytes in the buffer, without anything between the lines.
      let stride : UInt32 := cfg.srcW.toUInt32 * 4
      let mem := bstNv2bgr s.mem cfg.srcBase0 cfg.srcBase1 cfg.srcLineStride malloc stride
        cfg.srcW.toNat cfg.srcH.toNat cfg.order cfg.nv2bgrCoef cfg.nv2bgrOfst cfg.nv2bgrAlpha
      (cfg.kernelArgs stride).map fun args =>
        kernelInto args malloc cfg.dstBase0 { s with mem := mem }
  else
    -- From four bytes to NV12 nothing is converted.
    some s

/-- The third part of `bst_mdl`. -/
def bstOsumPart (cfg : BstHwOnceCfg) (s : BstMdl) : BstMdl :=
  if cfg.dstFormat = .nv12 then
    let sum := bstNv12Sum s.mem cfg.dstBase0 cfg.dstBase1 cfg.dstW.toNat cfg.dstH.toNat
      cfg.dstLineStride s.bstOsum
    { s with bstOsum := sum }
  else if cfg.dstFormat.code &&& 0x1 = 1 then
    let sum := bstBgrSum s.mem cfg.dstBase0 cfg.dstW.toNat cfg.dstH.toNat cfg.dstLineStride
      s.bstOsum
    { s with bstOsum := sum }
  else s

/-- `bst_mdl` behind its messages, with `none` where it asserts and where it divides by zero. -/
def bstMdl (cfg : BstHwOnceCfg) (malloc : Int) (s : BstMdl) : Option BstMdl :=
  (bstIsumPart cfg s).bind fun s => (bstSelect cfg malloc s).map (bstOsumPart cfg)

/-- `task_info_s`, as far as it is read. -/
structure TaskInfo where
  zeroPoint : UInt32
  planeStride : UInt32

/-- The second plane of an image, with `NULL` as address zero. -/
def covertBase1 (image : DataInfo) : Int :=
  if image.format = .nv12 then
    if image.base1 = 0 then image.base + image.height * image.lineStride else image.base1
  else 0

/-- The configuration of `bs_covert_mdl`, with what the size of the kernel happens to be. -/
def covertCfg (src dst : DataInfo) (coef : Fin 9 → UInt32) (offset : Fin 2 → UInt32)
    (task : TaskInfo) (kernelSize : UInt8) : Option BstHwOnceCfg := do
  let srcFormat ← bsFormatToBst src.format
  let dstFormat ← bsFormatToBst dst.format
  some {
    srcFormat := srcFormat
    srcW := UInt16.ofInt src.width
    srcH := UInt16.ofInt src.height
    srcBase0 := src.base
    srcBase1 := covertBase1 src
    srcLineStride := UInt32.ofInt src.lineStride
    dstFormat := dstFormat
    dstW := UInt16.ofInt dst.width
    dstH := UInt16.ofInt dst.height
    dstBase0 := dst.base
    dstBase1 := covertBase1 dst
    dstLineStride := UInt32.ofInt dst.lineStride
    dstPlaneStride := task.planeStride
    kernelSize := kernelSize
    kernelXstride := 0
    kernelYstride := 0
    zeroPoint := task.zeroPoint
    padLeft := 0
    padRight := 0
    padTop := 0
    padBottom := 0
    nv2bgrAlpha := 0
    nv2bgrCoef := coef
    nv2bgrOfst := fun i => (offset i).toUInt8 }

/-- `bs_covert_mdl`, with `none` where an assertion fails. -/
def bsCovertMdl (src dst : DataInfo) (coef : Fin 9 → UInt32) (offset : Fin 2 → UInt32)
    (task : TaskInfo) (kernelSize : UInt8) (malloc : Int) (s : BstMdl) : Option BstMdl :=
  if src.format ∉ [.fmu2, .fmu4, .fmu8, .vbgr, .vrgb] then
    (covertCfg src dst coef offset task kernelSize).bind fun cfg => bstMdl cfg malloc s
  else none

end Aip.Bscaler
