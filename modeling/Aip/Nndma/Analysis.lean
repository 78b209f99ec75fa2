import Mathlib.Algebra.Order.Ring.Int
import Mathlib.Algebra.Order.Ring.Nat
import Mathlib.Data.List.Basic

/-! The descriptors of the T40 driver for lists of transfers, `nna_des_analysis`. -/

namespace Aip

/-- A transfer that the user asks for, `nndma_cmd_buf`. -/
structure NndmaCmdBuf where
  dVaStAddr : UInt32
  oVaStAddr : UInt32
  oVaMlcAddr : UInt32
  oMlcBytes : UInt32
  dataBytes : UInt32
  desLink : UInt32
  deriving DecidableEq, Repr

/-- Where the memories lie for the processor and for the bus. -/
structure NndmaMemory where
  nndmaBaseVaddr : UInt32
  nndmaBasePaddr : UInt32
  ddrBaseVaddr : UInt32
  ddrBasePaddr : UInt32
  deriving DecidableEq, Repr

namespace NndmaMemory

/-- `nndma_oram_vir_to_phy`. -/
def oramVirToPhy (memory : NndmaMemory) (vaddr : UInt32) : UInt32 :=
  memory.nndmaBasePaddr + (vaddr - memory.nndmaBaseVaddr)

/-- `nndma_ddr_vir_to_phy`. -/
def ddrVirToPhy (memory : NndmaMemory) (vaddr : UInt32) : UInt32 :=
  memory.ddrBasePaddr + (vaddr - memory.ddrBaseVaddr)

end NndmaMemory

namespace NndmaCmdBuf

variable (memory : NndmaMemory) (cmd : NndmaCmdBuf)

/-- `d_pa_st_addr` of a command. -/
def dPaStAddr : UInt32 := memory.ddrVirToPhy cmd.dVaStAddr

/-- `o_pa_st_addr` of a command. -/
def oPaStAddr : UInt32 := memory.oramVirToPhy cmd.oVaStAddr

/-- `o_mlc_st_addr`, the start of the ring. -/
def oMlcStAddr : UInt32 := memory.oramVirToPhy cmd.oVaMlcAddr

/-- `o_mlc_ed_addr`, the end of the ring. -/
def oMlcEdAddr : UInt32 := cmd.oMlcStAddr memory + cmd.oMlcBytes

/-- `c64k_num`, the number of parts of at most 64 KiB; no bytes at all wrap around. -/
def c64kNum : UInt32 := ((cmd.dataBytes - 1) >>> 16) + 1

end NndmaCmdBuf

/-- What the describe loop carries from one part of a transfer to the next. -/
structure DesCursor where
  dPaStAddr : UInt32
  oPaStAddr : UInt32
  bytesRemain : UInt32
  deriving DecidableEq, Repr

/-- The two words of a descriptor. -/
def desWords (dPaAddr oPaAddr dataLength cfgFlag : UInt32) : List UInt32 :=
  [dPaAddr, (cfgFlag &&& 0x1) <<< 31 ||| (dataLength &&& 0x3FF) <<< 16 ||| (oPaAddr &&& 0x3FFF)]

namespace DesCursor

/-- `trans_bytes`, which the last part takes from what remains. -/
def transBytes (cur : DesCursor) (lastDes : Bool) : UInt32 :=
  if lastDes then cur.bytesRemain else 65536

/-- One round of the describe loop: the words written, and the variables for the next round. -/
def describe (oMlcStAddr oMlcEdAddr desLink : UInt32) (lastDes : Bool) (cur : DesCursor) :
    List UInt32 × DesCursor :=
  let transBytes := cur.transBytes lastDes
  -- The flag links a descriptor to the next one.
  let cfgFlag : UInt32 := if lastDes = false ∨ desLink = 1 then 1 else 0
  if cur.oPaStAddr + transBytes ≤ oMlcEdAddr then
    (desWords cur.dPaStAddr (cur.oPaStAddr >>> 6) (transBytes / 64 - 1) cfgFlag,
      ⟨cur.dPaStAddr + transBytes, cur.oPaStAddr + transBytes, cur.bytesRemain - transBytes⟩)
  else
    -- The part is cut at the end of the ring, and its second half starts the ring again.
    let curTransBytes := oMlcEdAddr - cur.oPaStAddr
    (desWords cur.dPaStAddr (cur.oPaStAddr >>> 6) (curTransBytes / 64 - 1) 1 ++
      desWords (cur.dPaStAddr + curTransBytes) (oMlcStAddr >>> 6)
        ((transBytes - curTransBytes) / 64 - 1) cfgFlag,
      ⟨cur.dPaStAddr + transBytes, oMlcStAddr + (transBytes - curTransBytes),
        cur.bytesRemain - transBytes⟩)

/-- The describe loop for a number of parts. -/
def describeLoop (oMlcStAddr oMlcEdAddr desLink : UInt32) (cur : DesCursor) : Nat → List UInt32
  | 0 => []
  | parts + 1 =>
    let round := cur.describe oMlcStAddr oMlcEdAddr desLink (parts = 0)
    round.1 ++ round.2.describeLoop oMlcStAddr oMlcEdAddr desLink parts

end DesCursor

/-- What the describe loop of a command starts with. -/
def NndmaCmdBuf.cursor (memory : NndmaMemory) (cmd : NndmaCmdBuf) : DesCursor where
  dPaStAddr := cmd.dPaStAddr memory
  oPaStAddr := cmd.oPaStAddr memory
  bytesRemain := cmd.dataBytes

/-- The words that a command puts into `des_data`. -/
def NndmaCmdBuf.words (memory : NndmaMemory) (cmd : NndmaCmdBuf) : List UInt32 :=
  (cmd.cursor memory).describeLoop (cmd.oMlcStAddr memory) (cmd.oMlcEdAddr memory) cmd.desLink
    cmd.c64kNum.toNat

/-- What `des_info` records of one chain. -/
structure DesChain where
  desNum : Nat
  totalBytes : UInt32
  chainStIdx : Nat
  deriving DecidableEq, Repr

/-- The part of `des_info` that has been written so far, and the chain that is being analysed. -/
structure DesInfo where
  desData : List UInt32
  chains : List DesChain
  desNum : Nat
  totalBytes : UInt32
  chainStIdx : Nat
  deriving DecidableEq, Repr

namespace DesInfo

/-- The number of entries of each array of `des_info`, `2048*2`. -/
def capacity : Nat := 2048 * 2

/-- One command of `nna_des_analysis`; a write behind an array has no result. -/
def analyse (memory : NndmaMemory) (info : DesInfo) (cmdIdx : Nat) (cmd : NndmaCmdBuf) :
    Option DesInfo :=
  let words := cmd.words memory
  if info.desData.length + words.length ≤ capacity then
    let info := { info with
      desData := info.desData ++ words
      desNum := info.desNum + words.length
      totalBytes := info.totalBytes + cmd.dataBytes }
    -- A command without a link ends the chain, which is recorded.
    if cmd.desLink = 1 then some info
    else if info.chains.length < capacity then
      some { info with
        chains := info.chains ++ [⟨info.desNum, info.totalBytes, info.chainStIdx⟩]
        desNum := 0
        totalBytes := 0
        chainStIdx := cmdIdx + 1 }
    else none
  else none

/-- The loop of `nna_des_analysis` over the commands from an index on. -/
def analyseFrom (memory : NndmaMemory) : DesInfo → Nat → List NndmaCmdBuf → Option DesInfo
  | info, _, [] => some info
  | info, cmdIdx, cmd :: cmds =>
    (info.analyse memory cmdIdx cmd).bind fun next => next.analyseFrom memory (cmdIdx + 1) cmds

end DesInfo

/-- `nna_des_analysis` of a list of commands from `cmd_st_idx` on. -/
def nnaDesAnalysis (memory : NndmaMemory) (cmds : List NndmaCmdBuf) (cmdStIdx : Nat) :
    Option DesInfo :=
  DesInfo.analyseFrom memory ⟨[], [], 0, 0, cmdStIdx⟩ cmdStIdx (cmds.drop cmdStIdx)

end Aip
