import Aip.Nndma.Channels
import Aip.Nndma.Transfers

/-! What the chains of `of_o2d_oraset` move out of the on-chip memory. -/

namespace Aip

namespace OfArgs

/--
Arguments that pass the checks of a build with `__AIE_VALID_CHECK__`, for planes in the shared
memory and an aligned buffer in the on-chip memory.
-/
structure Accepted (nna : NnaMmap) (answers : DmaAnswers) (args : OfArgs) : Prop
    extends args.Valid nna answers where
  planes : 0 < args.ofpNum
  limit : args.blkSize ≤ 2 ^ 18
  buffer : ∀ orPtr, args.placed answers = some orPtr → orPtr % 64 = 0
  mapped : nna.Mapped

/-- The bytes of one plane. -/
def planeBytes (args : OfArgs) : Nat := args.lineSize * args.totalLnum

/-- The bytes of a slot, which is as large as a block. -/
def slotBytes (args : OfArgs) : Nat := args.lineSize * args.blkLnum

/-- A descriptor of a block: where it takes the block from, where it moves it to, and its link. -/
structure Block (args : OfArgs) (nna : NnaMmap) (orPtr i iFp : Nat) (des : NndmaDes) : Prop where
  ddr : des.ddrStart = nna.aieGetDdrPaddr args.ddrPtr + (iFp * args.planeBytes + i * args.slotBytes)
  oram : des.oramStart = nna.aieGetOramOffset orPtr +
    (iFp * (args.slotBytes * args.bufBnum) + i % args.bufBnum * args.slotBytes)
  size : des.size ≤ args.slotBytes
  link : des.linkFlag = if iFp + 1 = args.ofpNum then 0 else 1

/--
Each byte of the planes is moved once, block after block out of the slots in turn, by chains of one
descriptor for each plane, and each entry is the first descriptor of its chain.
-/
structure MovesOnce (args : OfArgs) (nna : NnaMmap) (orPtr : Nat) (result : DmaSetup × Nat) :
    Prop where
  once : (result.1.des.flatMap fun des => (NndmaDes.decode des).ddrBytes).Perm
    ((List.range (args.ofpNum * args.planeBytes)).map (nna.aieGetDdrPaddr args.ddrPtr + ·))
  count : result.1.des.length = result.2 * args.ofpNum
  block : ∀ i < result.2, ∀ iFp < args.ofpNum, ∃ des,
    result.1.des[i * args.ofpNum + iFp]? = some des ∧
      args.Block nna orPtr i iFp (NndmaDes.decode des)
  entry : ∀ i < result.2, ∃ entry, result.1.desEntry[i]? = some entry ∧
    result.1.PointsTo nna entry (i * args.ofpNum)

variable {nna : NnaMmap} {answers : DmaAnswers} {args : OfArgs} {desNum orPtr k n iFp : Nat}

/-- The slots are taken in turn. -/
theorem slotOf_eq (buffers : 0 < args.bufBnum) (k : Nat) : args.slotOf k = k % args.bufBnum := by
  -- The slot goes back to the first one behind the last.
  induction k with
  | zero => simp [slotOf]
  | succ k ih =>
    have less := Nat.mod_lt k buffers
    rw [slotOf, ih, ← Nat.mod_add_mod k args.bufBnum 1]
    split
    · rename_i last
      rw [last, Nat.mod_self]
    · exact (Nat.mod_eq_of_lt (by omega)).symm

/-- The lines in front of a chain are those of the blocks before it. -/
theorem doneOf_eq (counted : args.desNum = some desNum) (small : args.planeBytes < 2 ^ 32)
    (upTo : k ≤ desNum) : args.doneOf desNum k = args.lineSize * args.linesAt k := by
  -- Each chain adds the bytes of its own block.
  induction k with
  | zero => simp [doneOf, linesAt]
  | succ k ih =>
    have inside := Nat.mul_le_mul_left args.lineSize
      (show args.linesAt (k + 1) ≤ args.totalLnum by rw [linesAt]; omega)
    rw [planeBytes] at small
    rw [doneOf, ih (by omega), blockOf, size_eq counted (by omega) small, sizeAt_add,
      Nat.mod_eq_of_lt (by omega)]

/-- What a descriptor of a chain asks for. -/
theorem Accepted.asks_node (accepted : args.Accepted nna answers)
    (placed : args.placed answers = some orPtr) (below : iFp < args.ofpNum)
    (left : k * args.blkLnum < args.totalLnum) :
    (NndmaDes.decode (args.node nna orPtr (k % args.bufBnum * args.blkSize % 2 ^ 32)
      (args.lineSize * args.linesAt k) (args.sizeAt k) iFp)).Asks (iFp + 1 == args.ofpNum)
        (nna.aieGetDdrPaddr args.ddrPtr + (iFp * args.planeBytes + args.lineSize * args.linesAt k))
        (nna.aieGetOramOffset orPtr +
          (iFp * (args.slotBytes * args.bufBnum) + k % args.bufBnum * args.slotBytes))
        (nodeBytes (args.sizeAt k)) := by
  obtain ⟨⟨small, plane⟩, block, buffer⟩ := accepted.sizes placed below
  obtain ⟨behind, aligned⟩ := accepted.maps_block below left
  have within := accepted.oram orPtr placed
  have limit := accepted.limit
  have ddr := accepted.aligned
  have whole : ∀ n, args.lineSize * n % 64 = 0 := fun n => by
    rw [Nat.mul_mod, accepted.lines, Nat.zero_mul]
  -- The slot is inside the part of the buffer that the plane has.
  have part := Nat.mul_le_mul_right (args.lineSize * args.blkLnum * args.bufBnum)
    (show iFp + 1 ≤ args.ofpNum from below)
  have slot := Nat.mul_le_mul_right (args.lineSize * args.blkLnum)
    (show k % args.bufBnum + 1 ≤ args.bufBnum from Nat.mod_lt k accepted.buffers)
  rw [Nat.mul_comm args.bufBnum] at slot
  rw [Nat.succ_mul] at part slot
  -- Slots are whole lines, so they are aligned.
  have slots : (iFp * (args.lineSize * args.blkLnum * args.bufBnum) +
      k % args.bufBnum * (args.lineSize * args.blkLnum)) % 64 = 0 := by
    have first := whole (iFp * (args.blkLnum * args.bufBnum))
    have second := whole (k % args.bufBnum * args.blkLnum)
    rw [Nat.mul_left_comm] at first second
    rw [Nat.mul_assoc args.lineSize]
    omega
  have memory := nna.oram
  have top := within.2
  rw [node, plane, block, buffer, Nat.add_assoc, Nat.add_assoc,
    Nat.mod_eq_of_lt (a := k % args.bufBnum * _) (by omega)]
  rw [Nat.add_assoc] at behind aligned
  exact nna.asks_node _ _ accepted.mapped accepted.maps behind within (by omega)
    ⟨ddr, by omega⟩ ⟨accepted.buffer orPtr placed, slots⟩

/-- A block is a slot or less, and it is not empty. -/
theorem Accepted.sizeAt_le (accepted : args.Accepted nna answers) (lines : 0 < args.lineSize)
    (placed : args.placed answers = some orPtr) (left : k * args.blkLnum < args.totalLnum) :
    nodeBytes (args.sizeAt k) = args.sizeAt k ∧ args.sizeAt k ≤ args.slotBytes := by
  obtain ⟨_, block, _⟩ := accepted.sizes placed accepted.planes
  have limit := accepted.limit
  have aligned : args.sizeAt k % 64 = 0 := by
    rw [sizeAt, Nat.mul_mod, accepted.lines, Nat.zero_mul]
  -- Even the last block has a line.
  have more : 0 < args.linesAt (k + 1) - args.linesAt k ∧
      args.linesAt (k + 1) - args.linesAt k ≤ args.blkLnum := by
    have step := accepted.block
    simp only [linesAt]
    rw [Nat.succ_mul]
    omega
  -- The hardware takes a length of 0 for the largest one, which does not occur.
  have some : 0 < args.sizeAt k := Nat.mul_pos lines more.1
  have less : args.sizeAt k ≤ args.slotBytes := Nat.mul_le_mul_left _ more.2
  rw [slotBytes, ← block] at less ⊢
  rw [nodeBytes_eq aligned (by omega), if_neg (by omega)]
  exact ⟨rfl, less⟩

/-- The chains take the planes apart: in whichever order, their bytes are those of the planes. -/
theorem blocks_perm (args : OfArgs) (base : Nat) (last : args.linesAt desNum = args.totalLnum) :
    ((List.range desNum).flatMap fun k => (List.range args.ofpNum).flatMap fun iFp =>
      (List.range (args.sizeAt k)).map fun y =>
        base + (iFp * args.planeBytes + (args.lineSize * args.linesAt k + y))).Perm
      ((List.range (args.ofpNum * args.planeBytes)).map (base + ·)) := by
  refine (Pieces.flatMap_perm _ _ _).trans (List.Perm.of_eq ?_)
  -- The blocks of one plane are the plane.
  have plane : ∀ iFp, ((List.range desNum).flatMap fun k => (List.range (args.sizeAt k)).map fun y =>
      base + (iFp * args.planeBytes + (args.lineSize * args.linesAt k + y))) =
      (List.range args.planeBytes).map fun y => base + (iFp * args.planeBytes + y) := by
    intro iFp
    have whole : args.planeBytes = args.lineSize * args.linesAt desNum := by rw [last, planeBytes]
    rw [Pieces.flatMap_pieces (fun y => base + (iFp * args.planeBytes + y))
      (fun k => args.lineSize * args.linesAt k) (by simp [linesAt])
      (fun k _ => (sizeAt_add args k).symm), whole]
  simp only [plane]
  exact Pieces.flatMap_pieces (base + ·) (· * args.planeBytes) (Nat.zero_mul _)
    fun k _ => Nat.succ_mul k _

/--
A call that returns moves each byte of the planes once, if their lines are not empty: an empty block
would be one of the largest for the hardware.
-/
theorem movesOnce {result : DmaSetup × Nat} (accepted : args.Accepted nna answers)
    (lines : 0 < args.lineSize) (returned : ofO2dOraset nna answers args = some result) :
    ∃ orPtr, args.placed answers = some orPtr ∧ args.MovesOnce nna orPtr result := by
  obtain ⟨desNum, orPtr, counted, placed, chained, number⟩ := returned_chained returned
  have chains := (desNum_eq counted).2
  have small := (accepted.sizes placed accepted.planes).1.1
  refine ⟨orPtr, placed, ?_⟩
  -- The chains in closed form.
  have chain : ∀ k ∈ List.range desNum, args.chainDes nna orPtr desNum k =
      (List.range args.ofpNum).map (args.node nna orPtr (k % args.bufBnum * args.blkSize % 2 ^ 32)
        (args.lineSize * args.linesAt k) (args.sizeAt k)) := by
    intro k member
    have below := List.mem_range.mp member
    rw [chainDes, slotOf_eq accepted.buffers, doneOf_eq counted small (Nat.le_of_lt below), blockOf,
      size_eq counted below small]
  have des := chained.des.trans (List.flatMap_congr chain)
  refine ⟨?_, ?_, fun i below iFp plane => ?_, fun i below => ?_⟩
  · have last : args.linesAt desNum = args.totalLnum := by
      have none := mt (chains desNum).mpr (Nat.lt_irrefl _)
      rw [linesAt]
      omega
    rw [des]
    refine List.Perm.trans (List.Perm.of_eq ?_) (blocks_perm args _ last)
    rw [List.flatMap_assoc]
    refine List.flatMap_congr fun k member => ?_
    rw [List.flatMap_map]
    refine List.flatMap_congr fun iFp plane => ?_
    -- One descriptor moves one block of one plane.
    have left := (chains k).mp (List.mem_range.mp member)
    have asks := accepted.asks_node placed (List.mem_range.mp plane) left
    rw [NndmaDes.ddrBytes, asks.ddr, asks.size, (accepted.sizeAt_le lines placed left).1]
    refine List.map_congr_left fun y _ => ?_
    omega
  · -- A chain has one descriptor for each plane.
    rw [des, number, List.length_flatMap]
    simp
  · -- The descriptor of a block of a plane is found by its two numbers.
    rw [number] at below
    have left := (chains i).mp below
    have asks := accepted.asks_node placed plane left
    obtain ⟨whole, less⟩ := accepted.sizeAt_le lines placed left
    refine ⟨_, by rw [des]; exact Pieces.getElem?_rows below plane _, ?_, asks.oram, ?_, ?_⟩
    · have start : args.lineSize * args.linesAt i = i * args.slotBytes := by
        rw [linesAt, Nat.min_eq_left (Nat.le_of_lt left), slotBytes, Nat.mul_left_comm]
      rw [asks.ddr, start]
    · rw [asks.size, whole]
      exact less
    · rw [asks.link]
      simp
  · rw [number] at below
    have begins : (nna.nndmaDesramVbase + 8 * 1024) % 2 ^ 32 % 2 ^ 32 =
        (nna.nndmaDesramVbase + DesramArea.output.base) % 2 ^ 32 := Nat.mod_mod _ _
    obtain ⟨entry, noted, points⟩ := chained.entry begins accepted.mapped.desram below
    -- The chains before have as many descriptors as planes each.
    have place : ((List.range i).flatMap (args.chainDes nna orPtr desNum)).length =
        i * args.ofpNum := by
      simp [List.length_flatMap, chainDes]
    exact ⟨entry, noted, place ▸ points⟩

/-- Two planes of nine lines, sent in blocks of two out of three slots. -/
theorem movesOnce_nine : ∃ result, ofO2dOraset DmaCall.sampleMmap DmaCall.sampleAnswers
    ⟨false, 64, 2, 3, 9, 2, 0x40000000, 0x30000000⟩ = some result ∧
      ∃ orPtr, (⟨false, 64, 2, 3, 9, 2, 0x40000000, 0x30000000⟩ : OfArgs).placed
        DmaCall.sampleAnswers = some orPtr ∧
      (⟨false, 64, 2, 3, 9, 2, 0x40000000, 0x30000000⟩ : OfArgs).MovesOnce DmaCall.sampleMmap orPtr
        result := by
  -- The last block of each plane has one line.
  have accepted : (⟨false, 64, 2, 3, 9, 2, 0x40000000, 0x30000000⟩ : OfArgs).Accepted
      DmaCall.sampleMmap DmaCall.sampleAnswers := by
    refine ⟨⟨rfl, by decide, by decide, rfl, by decide, by decide, ?_⟩, by decide, by decide, ?_,
      ⟨rfl, by decide⟩⟩
    · intro orPtr placed
      obtain rfl := Option.some.inj placed
      decide
    · intro orPtr placed
      obtain rfl := Option.some.inj placed
      rfl
  exact ⟨_, rfl, movesOnce accepted (by decide) rfl⟩

/-- A line of no bytes still has a descriptor, which moves more than its slot has. -/
theorem not_movesOnce_empty :
    (⟨false, 0, 1, 1, 1, 1, 0x40000000, 0x30000000⟩ : OfArgs).Accepted DmaCall.sampleMmap
        DmaCall.sampleAnswers ∧
      ∃ result, ofO2dOraset DmaCall.sampleMmap DmaCall.sampleAnswers
        ⟨false, 0, 1, 1, 1, 1, 0x40000000, 0x30000000⟩ = some result ∧
      ¬ ∃ orPtr, (⟨false, 0, 1, 1, 1, 1, 0x40000000, 0x30000000⟩ : OfArgs).placed
        DmaCall.sampleAnswers = some orPtr ∧
      (⟨false, 0, 1, 1, 1, 1, 0x40000000, 0x30000000⟩ : OfArgs).MovesOnce DmaCall.sampleMmap orPtr
        result := by
  refine ⟨⟨⟨rfl, by decide, by decide, rfl, by decide, by decide, ?_⟩, by decide, by decide, ?_,
    ⟨rfl, by decide⟩⟩, _, rfl, ?_⟩
  · intro orPtr placed
    obtain rfl := Option.some.inj placed
    decide
  · intro orPtr placed
    obtain rfl := Option.some.inj placed
    rfl
  · -- The length field of a size of 0 is the largest one.
    rintro ⟨orPtr, _, moves⟩
    obtain ⟨des, _, block⟩ := moves.block 0 (by decide) 0 (by decide)
    have small := block.size
    simp only [NndmaDes.size, slotBytes] at small
    omega

end OfArgs

end Aip
