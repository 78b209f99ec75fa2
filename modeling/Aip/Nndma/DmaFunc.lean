import Aip.Lib.Gather

/-! The functions of `dma_func.c` that set up transfers, with the cache flushes they make. -/

namespace Aip

/-- `NNA_CACHED`. -/
def nnaCached : Nat := 4

/-- `L2C_SIZE`. -/
def l2cSize : Nat := 128 * 1024

/-- `ORAM_SIZE`. -/
def oramSize : Nat := 1024 * 1024 - l2cSize

/-- The memories as `__aie_mmap` has mapped them, in whole pages. -/
structure NnaMmap where
  ddrVbase : Nat
  ddrPbase : Nat
  ddrMemSize : Nat
  ddrVbaseCacheAttr : Nat
  oramVbase : Nat
  nndmaDesramVbase : Nat
  pages : ddrVbase % 4096 = 0 ∧ ddrPbase % 4096 = 0
  visible : 0 < ddrVbase ∧ ddrVbase + ddrMemSize ≤ 2 ^ 32
  physical : ddrPbase + ddrMemSize ≤ 2 ^ 32
  oram : oramVbase + oramSize < 2 ^ 32

namespace NnaMmap

/-- `__aie_get_ddr_paddr`. -/
def aieGetDdrPaddr (nna : NnaMmap) (ddrVaddr : Nat) : Nat :=
  (nna.ddrPbase + (ddrVaddr + 2 ^ 32 - nna.ddrVbase)) % 2 ^ 32

/-- `__aie_get_oram_offset`. -/
def aieGetOramOffset (nna : NnaMmap) (oramVaddr : Nat) : Nat :=
  (l2cSize + (oramVaddr + 2 ^ 32 - nna.oramVbase)) % 2 ^ 32

/-- `__aie_get_desram_ptr`. -/
def aieGetDesramPtr (nna : NnaMmap) (desram : Nat) : Nat :=
  (desram + 2 ^ 32 - nna.nndmaDesramVbase) % 2 ^ 32 / 8

/-- `is_ddr_cahced`. -/
def isDdrCached (nna : NnaMmap) : Bool := nna.ddrVbaseCacheAttr &&& nnaCached ≠ 0

end NnaMmap

/-- `size_64m1`: the number of units, less one. -/
def size64m1 (size : Nat) : Nat := (size / 64 + (2 ^ 32 - 1)) % 2 ^ 32

/-- The second word of a descriptor. -/
def desWord1 (oramAddr size : Nat) : Nat := (size64m1 size <<< 20) % 2 ^ 32 ||| oramAddr >>> 6

/-- What `__aie_push_nndma_node` writes. -/
def aieNndmaNode (oramAddr ddrAddr size : Nat) : Nat × Nat :=
  (ddrAddr ||| 1, desWord1 oramAddr size)

/-- What `__aie_push_nndma_node_maylast` writes. -/
def aieNndmaNodeMaylast (last : Bool) (oramAddr ddrAddr size : Nat) : Nat × Nat :=
  (ddrAddr ||| (if last then 0 else 1), desWord1 oramAddr size)

/-- What `__aie_push_nndma_bignode_maylast` writes. -/
def aieNndmaBignodeMaylast (last : Bool) (oramAddr ddrAddr size : Nat) : Nat × Nat :=
  (ddrAddr ||| (size64m1 size >>> 11 &&& 0x3E) ||| (if last then 0 else 1), desWord1 oramAddr size)

/--
The memory that a descriptor names: bits 31 to 6 of its first word are the address, and bits 31 to
20 of the second one with bits 5 to 1 of the first one are the number of units, less one.
-/
def nndmaDesBytes (des : Nat × Nat) : Region where
  start := des.1 / 64 * 64
  size := (des.1 / 2 % 2 ^ 5 * 2 ^ 12 + des.2 / 2 ^ 20 % 2 ^ 12 + 1) * 64

/-- The variables of a function that sets up transfers, and what it has done so far. -/
structure DmaSetup where
  desAddr : Nat
  des : List (Nat × Nat) := []
  desEntry : List Nat := []
  totalSize : Nat := 0
  ddrLinked : Nat := 1
  startFlushDdrPtr : Nat := 0
  flushed : List Region := []
  deriving DecidableEq, Repr

namespace DmaSetup

/-- A descriptor is written at `des_addr`. -/
def push (s : DmaSetup) (des : Nat × Nat) : DmaSetup :=
  { s with desAddr := (s.desAddr + 8) % 2 ^ 32, des := s.des ++ [des] }

/-- The entry number of the next chain is noted. -/
def noteEntry (s : DmaSetup) (nna : NnaMmap) : DmaSetup :=
  { s with desEntry := s.desEntry ++ [nna.aieGetDesramPtr s.desAddr] }

/-- `__aie_flushcache`. -/
def aieFlushcache (s : DmaSetup) (ptr size : Nat) : DmaSetup :=
  { s with flushed := s.flushed ++ [⟨ptr, size⟩] }

/-- What the flushes of linked blocks start from again. -/
def unlink (s : DmaSetup) : DmaSetup :=
  { s with totalSize := 0, ddrLinked := 0, startFlushDdrPtr := 0 }

/--
The test for the next pointer, if the pass has one. With an unsigned size the whole difference is
unsigned, on 32 bits.
-/
def linked (next : Option Nat) (ptr blockSize : Nat) : Prop :=
  match next with
  | none => False
  | some next => ((next : Int) - ptr - blockSize) % 2 ^ 32 ≤ 0

instance (next : Option Nat) (ptr blockSize : Nat) : Decidable (linked next ptr blockSize) := by
  unfold linked
  cases next <;> infer_instance

/-- `DDR_FLUSH_CACHE`, and the same steps in `w_d2o_orasetrun`. -/
def ddrFlushCache (s : DmaSetup) (next : Option Nat) (ptr blockSize : Nat) : DmaSetup :=
  if linked next ptr blockSize then
    -- A linked block only adds to the bytes to be flushed.
    { s with
      totalSize := (s.totalSize + blockSize) % 2 ^ 32
      ddrLinked := 1
      startFlushDdrPtr := if s.startFlushDdrPtr = 0 then ptr else s.startFlushDdrPtr }
  else if s.ddrLinked ≠ 0 ∧ s.startFlushDdrPtr ≠ 0 ∧ 0 < s.totalSize then
    -- The blocks before are flushed, without this one, which has not been added.
    (s.aieFlushcache s.startFlushDdrPtr s.totalSize).unlink
  else (s.aieFlushcache ptr blockSize).unlink

end DmaSetup

/-- What the calls that these functions make give them: `malloc`, and `oram_memalign` each time. -/
structure DmaAnswers where
  malloc : Bool
  oramMemalign : Nat → Nat

/-! The blocks of `w_d2o_orasetrun`. -/

/-- One block: the elements of the three arrays at its place. -/
structure WBlock where
  ddrPtr : Nat
  orPtr : Nat
  size : Nat
  deriving DecidableEq, Repr

/-- The arguments of `w_d2o_orasetrun`. -/
structure WArgs where
  doOralloc : Bool
  blocks : List WBlock
  deriving DecidableEq, Repr

namespace WArgs

/-- `or_ptr` of a block after the allocation at its place. -/
def orPtr (args : WArgs) (answers : DmaAnswers) (i : Nat) (block : WBlock) : Nat :=
  if args.doOralloc then answers.oramMemalign i else block.orPtr

/-- The loop of `w_d2o_orasetrun` from a block on. -/
def loop (args : WArgs) (nna : NnaMmap) (answers : DmaAnswers) :
    Nat → List WBlock → DmaSetup → DmaSetup
  | _, [], s => s
  | i, block :: rest, s =>
    let ddrPaddr := nna.aieGetDdrPaddr block.ddrPtr
    let orOffset := nna.aieGetOramOffset (args.orPtr answers i block)
    let s := s.push (aieNndmaBignodeMaylast rest.isEmpty orOffset ddrPaddr block.size)
    let s := if nna.isDdrCached then
        s.ddrFlushCache (rest.head?.map (·.ddrPtr)) block.ddrPtr block.size
      else s
    args.loop nna answers (i + 1) rest s

end WArgs

/-- `w_d2o_orasetrun`: the chain, and the word that runs it. -/
def wD2oOrasetrun (nna : NnaMmap) (answers : DmaAnswers) (args : WArgs) : DmaSetup × Nat :=
  let desAddr := (nna.nndmaDesramVbase + 4 * 1024) % 2 ^ 32
  (args.loop nna answers 0 args.blocks { desAddr := desAddr },
    2 ^ 31 ||| nna.aieGetDesramPtr desAddr)

/-! The planes of `if_d2rbo_oraset`. -/

/-- One plane: the elements of the two arrays at its place. -/
structure Plane where
  ddrPtr : Nat
  orPtr : Nat
  deriving DecidableEq, Repr

/-- The arguments of `if_d2rbo_oraset`; the numbers of lines and of planes are not negative. -/
structure IfArgs where
  doOralloc : Bool
  lineSize : Nat
  blkLnum : Nat
  blk0LnumMore : Nat
  orbufLnum : Nat
  totalLnum : Nat
  qifpNum : Nat
  planes : List Plane
  deriving DecidableEq, Repr

/-- The variables that the macros of `if_d2rbo_oraset` name with and without a `q` in front. -/
structure PlaneKind where
  lineSize : Nat
  blkLnum : Nat
  blk0LnumMore : Nat
  totalLnum : Nat
  orbufSize : Nat
  desNum : Nat
  deriving DecidableEq, Repr

/-- `done_size` and `orbuf_offset` of one kind of planes. -/
structure PlaneState where
  doneSize : Nat := 0
  orbufOffset : Nat := 0
  deriving DecidableEq, Repr

/-- What `SET_SIZE` computes. -/
structure BlockSizes where
  blockSize : Nat
  sizeBefRb : Nat
  offset : Nat
  size : Nat
  deriving DecidableEq, Repr

/-- The number of chains; a division by zero is a crash. -/
def chainCount (totalLnum blk0LnumMore blkLnum : Nat) : Option Nat :=
  if totalLnum ≤ blk0LnumMore then some 1
  -- From here on the code divides by `blk_lnum`.
  else if blkLnum = 0 then none
  else some ((totalLnum - blk0LnumMore) / blkLnum +
    if (totalLnum - blk0LnumMore) % blkLnum ≠ 0 then 1 else 0)

namespace PlaneKind

/-- `block_size`, in `SET_SIZE`. -/
def blockSize (kind : PlaneKind) (iDc : Nat) (st : PlaneState) : Nat :=
  -- The first block has more lines, and the last one what is left.
  if iDc = 0 then kind.lineSize * (kind.blkLnum + kind.blk0LnumMore) % 2 ^ 32
  else if iDc + 1 = kind.desNum then
    (kind.lineSize * kind.totalLnum % 2 ^ 32 + 2 ^ 32 - st.doneSize) % 2 ^ 32
  else kind.lineSize * kind.blkLnum % 2 ^ 32

/-- `SET_SIZE`. -/
def setSize (kind : PlaneKind) (iDc : Nat) (st : PlaneState) : BlockSizes :=
  let blockSize := kind.blockSize iDc st
  if kind.orbufSize < (st.orbufOffset + blockSize) % 2 ^ 32 then
    -- The block goes beyond the end of the buffer, and rolls back to its start.
    let sizeBefRb := (kind.orbufSize + 2 ^ 32 - st.orbufOffset) % 2 ^ 32
    ⟨blockSize, sizeBefRb, 0, (blockSize + 2 ^ 32 - sizeBefRb) % 2 ^ 32⟩
  else ⟨blockSize, 0, st.orbufOffset, blockSize⟩

/-- `SIZE_UPDATE`. -/
def sizeUpdate (kind : PlaneKind) (blockSize : Nat) (st : PlaneState) : PlaneState :=
  let orbufOffset := (st.orbufOffset + blockSize) % 2 ^ 32
  { doneSize := (st.doneSize + blockSize) % 2 ^ 32
    orbufOffset := if kind.orbufSize ≤ orbufOffset then orbufOffset - kind.orbufSize
      else orbufOffset }

end PlaneKind

namespace DmaSetup

/-- `GEN_DMA_DES`. -/
def genDmaDes (s : DmaSetup) (nna : NnaMmap) (st : PlaneState) (sizes : BlockSizes) (last : Bool)
    (plane : Plane) : DmaSetup :=
  -- The part in front of the roll back has a descriptor of its own.
  let before := if sizes.sizeBefRb ≠ 0 then
      s.push (aieNndmaNode
        (nna.aieGetOramOffset ((plane.orPtr + st.orbufOffset) % 2 ^ 32))
        (nna.aieGetDdrPaddr ((plane.ddrPtr + st.doneSize) % 2 ^ 32)) sizes.sizeBefRb)
    else s
  before.push (aieNndmaNodeMaylast last
    (nna.aieGetOramOffset ((plane.orPtr + sizes.offset) % 2 ^ 32))
    (nna.aieGetDdrPaddr ((plane.ddrPtr + st.doneSize + sizes.sizeBefRb) % 2 ^ 32)) sizes.size)

/-- The loop over the planes of one kind, from a plane on; `last` is about the last one of them. -/
def planeLoop (nna : NnaMmap) (flushes last : Bool) (st : PlaneState) (sizes : BlockSizes) :
    List Plane → DmaSetup → DmaSetup
  | [], s => s
  | plane :: rest, s =>
    let s := s.genDmaDes nna st sizes (rest.isEmpty && last) plane
    let s := if flushes then
        s.ddrFlushCache (rest.head?.map (·.ddrPtr)) plane.ddrPtr sizes.blockSize
      else s
    planeLoop nna flushes last st sizes rest s

end DmaSetup

/-- The variables that change from one chain of `if_d2rbo_oraset` to the next. -/
structure IfState where
  setup : DmaSetup
  st : PlaneState := {}
  qst : PlaneState := {}
  deriving DecidableEq, Repr

namespace IfArgs

/-- `ifp_num`. -/
def ifpNum (args : IfArgs) : Nat := args.planes.length

/-- The planes of the first loop. -/
def normal (planes : List Plane) (qifpNum : Nat) : List Plane :=
  planes.take (planes.length - qifpNum)

/-- The planes of the second loop. -/
def quarter (planes : List Plane) (qifpNum : Nat) : List Plane :=
  planes.drop (planes.length - qifpNum)

/-- `orbuf_size`. -/
def orbufSize (args : IfArgs) : Nat := args.lineSize * args.orbufLnum % 2 ^ 32

/-- `qline_size`. -/
def qlineSize (args : IfArgs) : Nat := (args.lineSize / 2 + 63) / 64 * 64 % 2 ^ 32

/-- `qorbuf_size`. -/
def qorbufSize (args : IfArgs) : Nat := args.qlineSize * ((args.orbufLnum + 2) / 2) % 2 ^ 32

/-- `total_tranfer_size`. -/
def totalTranferSize (args : IfArgs) : Nat :=
  (args.qifpNum * (args.qorbufSize + args.qlineSize) +
    (args.ifpNum - args.qifpNum) * args.orbufSize) % 2 ^ 32

/-- `b_flush_all`. -/
def bFlushAll (args : IfArgs) : Bool := decide (l2cSize ≤ args.totalTranferSize)

/-- The variables of the normal planes. -/
def kind (args : IfArgs) (desNum : Nat) : PlaneKind where
  lineSize := args.lineSize
  blkLnum := args.blkLnum
  blk0LnumMore := args.blk0LnumMore
  totalLnum := args.totalLnum
  orbufSize := args.orbufSize
  desNum := desNum

/-- The variables of the quarter planes. -/
def qkind (args : IfArgs) (qdesNum : Nat) : PlaneKind where
  lineSize := args.qlineSize
  blkLnum := args.blkLnum / 2
  blk0LnumMore := (args.blk0LnumMore + 1) / 2
  totalLnum := args.totalLnum / 2
  orbufSize := args.qorbufSize
  desNum := qdesNum

/-- `des_num`. -/
def desNum (args : IfArgs) : Option Nat :=
  chainCount args.totalLnum args.blk0LnumMore args.blkLnum

/-- `qdes_num`. -/
def qdesNum (args : IfArgs) : Option Nat :=
  if args.qifpNum = 0 then some 0
  else chainCount (args.totalLnum / 2) ((args.blk0LnumMore + 1) / 2) (args.blkLnum / 2)

/-- The planes with the ORAM handed out to them one behind the other, the quarter ones last. -/
def allocated (args : IfArgs) (ptr : Nat) : List Plane :=
  args.planes.mapIdx fun i plane =>
    let normal := args.ifpNum - args.qifpNum
    { plane with
      orPtr := if i < normal then (ptr + i * args.orbufSize) % 2 ^ 32
        else (ptr + normal * args.orbufSize +
          (i - normal) * (args.qorbufSize + args.qlineSize)) % 2 ^ 32 }

/-- The planes with their `or_ptr`; without memory the program ends. -/
def placed (args : IfArgs) (answers : DmaAnswers) : Option (List Plane) :=
  if args.doOralloc then
    if answers.oramMemalign 0 = 0 then none else some (args.allocated (answers.oramMemalign 0))
  else some args.planes

/-- One round of the loop over the chains. -/
def chain (args : IfArgs) (nna : NnaMmap) (planes : List Plane) (desNum qdesNum : Nat)
    (s : IfState) (iDc : Nat) : IfState :=
  let flushes := nna.isDdrCached && !args.bFlushAll
  -- The loop over the normal planes, and after it the one over the quarter planes.
  let normal := normal planes args.qifpNum
  let setup := s.setup.noteEntry nna
  let sizes := (args.kind desNum).setSize iDc s.st
  -- The last normal plane ends the chain when no quarter plane follows.
  let last := args.qifpNum = 0 || qdesNum ≤ iDc
  let setup := setup.planeLoop nna flushes last s.st sizes normal
  let st := if normal.isEmpty then s.st else (args.kind desNum).sizeUpdate sizes.blockSize s.st
  let qsizes := (args.qkind qdesNum).setSize iDc s.qst
  let setup := if iDc < qdesNum then
      setup.planeLoop nna flushes true s.qst qsizes (quarter planes args.qifpNum)
    else setup
  let qst := if args.qifpNum = 0 then s.qst
    else (args.qkind qdesNum).sizeUpdate qsizes.blockSize s.qst
  ⟨setup, st, qst⟩

end IfArgs

/-- `if_d2rbo_oraset`: what it has set up, and the number of chains; `none` if the program ends. -/
def ifD2rboOraset (nna : NnaMmap) (answers : DmaAnswers) (args : IfArgs) :
    Option (DmaSetup × Nat) :=
  args.desNum.bind fun desNum => args.qdesNum.bind fun qdesNum =>
    if answers.malloc then
      (args.placed answers).map fun planes =>
        let start : IfState := ⟨{ desAddr := nna.nndmaDesramVbase }, {}, {}⟩
        let setup := ((List.range desNum).foldl (args.chain nna planes desNum qdesNum) start).setup
        -- One flush of the whole transfer, from the first plane on.
        let setup := if nna.isDdrCached && args.bFlushAll then
            setup.aieFlushcache ((planes.head?.map (·.ddrPtr)).getD 0) args.totalTranferSize
          else setup
        -- `return ifp_num-qifp_num ? des_num : qdes_num`
        (setup, if args.ifpNum - args.qifpNum ≠ 0 then desNum else qdesNum)
    else none

/-! The planes of `of_o2d_oraset`, which lie one behind the other. -/

/-- The arguments of `of_o2d_oraset`; the numbers of lines, blocks and planes are not negative. -/
structure OfArgs where
  doOralloc : Bool
  lineSize : Nat
  blkLnum : Nat
  bufBnum : Nat
  totalLnum : Nat
  ofpNum : Nat
  ddrPtr : Nat
  orPtr : Nat
  deriving DecidableEq, Repr

/-- The variables that change from one chain of `of_o2d_oraset` to the next. -/
structure OfState where
  setup : DmaSetup
  iBb : Nat := 0
  doneSize : Nat := 0
  deriving DecidableEq, Repr

namespace OfArgs

/-- `blk_size`. -/
def blkSize (args : OfArgs) : Nat := args.lineSize * args.blkLnum % 2 ^ 32

/-- `ofp_size`. -/
def ofpSize (args : OfArgs) : Nat := args.lineSize * args.totalLnum % 2 ^ 32

/-- `orbuf_size`. -/
def orbufSize (args : OfArgs) : Nat := args.blkSize * args.bufBnum % 2 ^ 32

/-- `blklast_lnum`. -/
def blklastLnum (args : OfArgs) : Nat := args.totalLnum % args.blkLnum

/-- `des_num`; a division by zero is a crash. -/
def desNum (args : OfArgs) : Option Nat :=
  if args.blkLnum = 0 then none
  else some (args.totalLnum / args.blkLnum + if args.blklastLnum ≠ 0 then 1 else 0)

/-- `or_ptr` after the allocation; without memory the program ends. -/
def placed (args : OfArgs) (answers : DmaAnswers) : Option Nat :=
  if args.doOralloc then
    if answers.oramMemalign 0 = 0 then none else some (answers.oramMemalign 0)
  else some args.orPtr

/-- One descriptor of a chain, for a plane. -/
def node (args : OfArgs) (nna : NnaMmap) (orPtr orbufOffset doneSize size iFp : Nat) : Nat × Nat :=
  aieNndmaNodeMaylast (iFp + 1 == args.ofpNum)
    (nna.aieGetOramOffset ((orPtr + iFp * args.orbufSize + orbufOffset) % 2 ^ 32))
    (nna.aieGetDdrPaddr ((args.ddrPtr + iFp * args.ofpSize + doneSize) % 2 ^ 32)) size

/-- One round of the loop over the chains. -/
def chain (args : OfArgs) (nna : NnaMmap) (orPtr desNum : Nat) (s : OfState) (iDc : Nat) :
    OfState :=
  let setup := s.setup.noteEntry nna
  let orbufOffset := s.iBb * args.blkSize % 2 ^ 32
  let size := if iDc + 1 = desNum ∧ args.blklastLnum ≠ 0 then
      args.lineSize * args.blklastLnum % 2 ^ 32
    else args.blkSize
  let nodes := (List.range args.ofpNum).map (args.node nna orPtr orbufOffset s.doneSize size)
  { setup := nodes.foldl DmaSetup.push setup
    iBb := if s.iBb + 1 = args.bufBnum then 0 else s.iBb + 1
    doneSize := (s.doneSize + size) % 2 ^ 32 }

end OfArgs

/-- `of_o2d_oraset`: what it has set up, and the number of chains; `none` if the program ends. -/
def ofO2dOraset (nna : NnaMmap) (answers : DmaAnswers) (args : OfArgs) : Option (DmaSetup × Nat) :=
  args.desNum.bind fun desNum =>
    if answers.malloc then
      (args.placed answers).map fun orPtr =>
        let start : OfState := { setup := { desAddr := (nna.nndmaDesramVbase + 8 * 1024) % 2 ^ 32 } }
        let last := (List.range desNum).foldl (args.chain nna orPtr desNum) start
        (if nna.isDdrCached then last.setup.aieFlushcache args.ddrPtr last.doneSize
          else last.setup, desNum)
    else none

/-- A call of one of the three functions. -/
inductive DmaCall where
  | w (args : WArgs)
  | ifp (args : IfArgs)
  | ofp (args : OfArgs)
  deriving DecidableEq, Repr

/-- What the call has set up when it returns. -/
def DmaCall.setup (nna : NnaMmap) (answers : DmaAnswers) : DmaCall → Option DmaSetup
  | .w args => some (wD2oOrasetrun nna answers args).1
  | .ifp args => (ifD2rboOraset nna answers args).map (·.1)
  | .ofp args => (ofO2dOraset nna answers args).map (·.1)

end Aip
