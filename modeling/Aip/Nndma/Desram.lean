import Aip.Lib.Segment
import Aip.Nndma.Analysis

/-! Loading chains of descriptors into the DESRAM, `nna_desram_update` and `nna_dma_driver`. -/

namespace Aip

/-- What a call tells its user, `des_gen_result`. -/
structure DesGenResult where
  rcmdStIdx : Nat
  wcmdStIdx : Nat
  dmaCmdNum : Nat
  finish : Nat
  deriving DecidableEq, Repr

/-- The variables of the loop in `nna_desram_update`, and the memories that it writes. -/
structure DesramUpdate where
  desram : List UInt32
  dmaCmdBuf : List UInt32
  rdDesWptr : Nat
  desramRemain : Nat
  desRdBufStPtr : Nat
  desWrBufStPtr : Nat
  finishChainNum : Nat
  deriving DecidableEq, Repr

/-- What a call of the driver leaves behind. -/
structure DmaLoad where
  desram : List UInt32
  dmaCmdBuf : List UInt32
  result : DesGenResult
  deriving DecidableEq, Repr

/-- The command word of a chain whose descriptors start at a word of the DESRAM. -/
def dmaCmd (totalBytes : UInt32) (desWptr : Nat) : UInt32 :=
  (totalBytes &&& 0x3FFF) <<< 12 ||| (UInt32.ofNat (desWptr / 2) &&& 0xFFF)

namespace DesramUpdate

/-- One chain of each list is copied; a write behind the DESRAM has no result. -/
def load (rdData wrData : List UInt32) (rd wr : DesChain) (s : DesramUpdate) :
    Option DesramUpdate :=
  let wrDesWptr := s.rdDesWptr + rd.desNum
  (Segment.write s.desram s.rdDesWptr ((rdData.drop s.desRdBufStPtr).take rd.desNum)).bind
    fun desram =>
      (Segment.write desram wrDesWptr ((wrData.drop s.desWrBufStPtr).take wr.desNum)).map
        fun desram =>
          { desram := desram
            dmaCmdBuf := s.dmaCmdBuf ++
              [dmaCmd rd.totalBytes s.rdDesWptr, dmaCmd wr.totalBytes wrDesWptr]
            rdDesWptr := wrDesWptr + wr.desNum
            desramRemain := s.desramRemain - (rd.desNum + wr.desNum)
            desRdBufStPtr := s.desRdBufStPtr + rd.desNum
            desWrBufStPtr := s.desWrBufStPtr + wr.desNum
            finishChainNum := s.finishChainNum + 1 }

/-- The loop of `nna_desram_update` over the chains of the read list. -/
def loop (rdData wrData : List UInt32) :
    List DesChain → List DesChain → DesramUpdate → Option DmaLoad
  | [], _, s => some ⟨s.desram, s.dmaCmdBuf, ⟨0, 0, s.finishChainNum, 1⟩⟩
  -- Behind the chains of the write list its arrays have not been written.
  | _ :: _, [], _ => none
  | rd :: rds, wr :: wrs, s =>
    if rd.desNum + wr.desNum ≤ s.desramRemain then
      (s.load rdData wrData rd wr).bind fun next => loop rdData wrData rds wrs next
    else
      some ⟨s.desram, s.dmaCmdBuf, ⟨rd.chainStIdx, wr.chainStIdx, s.finishChainNum, 0⟩⟩

end DesramUpdate

/-- `nna_desram_update`. -/
def nnaDesramUpdate (desRdBuf desWrBuf : DesInfo) (desram : List UInt32) : Option DmaLoad :=
  DesramUpdate.loop desRdBuf.desData desWrBuf.desData desRdBuf.chains desWrBuf.chains
    ⟨desram, [], 0, 4096, 0, 0, 0⟩

/-- `nna_dma_driver` for a list of read and one of write commands, each from an index on. -/
def nnaDmaDriver (memory : NndmaMemory) (rcmds wcmds : List NndmaCmdBuf) (rcmdStIdx wcmdStIdx : Nat)
    (desram : List UInt32) : Option DmaLoad :=
  (nnaDesAnalysis memory rcmds rcmdStIdx).bind fun desRdBuf =>
    (nnaDesAnalysis memory wcmds wcmdStIdx).bind fun desWrBuf =>
      nnaDesramUpdate desRdBuf desWrBuf desram

/-- The calls of a user who goes on where the last call stopped, until one of them is the last. -/
def nnaDmaCalls (memory : NndmaMemory) (rcmds wcmds : List NndmaCmdBuf) :
    Nat → Nat → Nat → List UInt32 → Option (List DmaLoad)
  -- The number of calls is bounded by the first argument.
  | 0, _, _, _ => none
  | calls + 1, rcmdStIdx, wcmdStIdx, desram =>
    (nnaDmaDriver memory rcmds wcmds rcmdStIdx wcmdStIdx desram).bind fun load =>
      if load.result.finish = 1 then some [load]
      else (nnaDmaCalls memory rcmds wcmds calls load.result.rcmdStIdx load.result.wcmdStIdx
        load.desram).map (load :: ·)

end Aip
