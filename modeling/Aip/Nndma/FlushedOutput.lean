import Aip.Nndma.FlushedBlocks
import Aip.Nndma.FlushedInput

/-! When `of_o2d_oraset` flushes all that it transfers, and when each of the three functions does. -/

namespace Aip

open Region

namespace OfArgs

/-- The lines of a plane in front of a chain. -/
def linesAt (args : OfArgs) (k : Nat) : Nat := min (k * args.blkLnum) args.totalLnum

/-- The bytes of a plane that a chain moves. -/
def sizeAt (args : OfArgs) (k : Nat) : Nat :=
  args.lineSize * (args.linesAt (k + 1) - args.linesAt k)

/--
Arguments that pass the checks of a build with `__AIE_VALID_CHECK__`, with planes in the shared
memory and buffers in the on-chip memory.
-/
structure Valid (nna : NnaMmap) (answers : DmaAnswers) (args : OfArgs) : Prop where
  lines : args.lineSize % 64 = 0
  block : 0 < args.blkLnum
  buffers : 0 < args.bufBnum
  aligned : args.ddrPtr % 64 = 0
  maps : nna.Maps args.ddrPtr
  within : nna.Holds args.ddrPtr (args.ofpNum * (args.lineSize * args.totalLnum))
  oram : ∀ orPtr, args.placed answers = some orPtr →
    nna.InOram orPtr (args.ofpNum * (args.lineSize * args.blkLnum * args.bufBnum))

/-- What `of_o2d_oraset` flushes suffices: there is at most one plane, and its lines are not empty. -/
def Suffices (args : OfArgs) : Prop :=
  args.ofpNum = 0 ∨ args.totalLnum = 0 ∨ args.ofpNum = 1 ∧ 0 < args.lineSize

variable {nna : NnaMmap} {answers : DmaAnswers} {args : OfArgs} {desNum orPtr k v x : Nat}
  {s : OfState}

/-- The chains are just as many as the lines need. -/
theorem desNum_eq (counted : args.desNum = some desNum) :
    desNum = args.totalLnum / args.blkLnum + (if args.blklastLnum ≠ 0 then 1 else 0) ∧
      ∀ k, k < desNum ↔ k * args.blkLnum < args.totalLnum := by
  rw [OfArgs.desNum] at counted
  split at counted
  · cases counted
  · rename_i block
    obtain rfl := Option.some.inj counted
    refine ⟨rfl, fun k => ?_⟩
    have whole := Nat.div_add_mod args.totalLnum args.blkLnum
    have part := Nat.mod_lt args.totalLnum (Nat.pos_of_ne_zero block)
    rw [blklastLnum]
    generalize args.totalLnum / args.blkLnum = q at whole ⊢
    rw [Nat.mul_comm] at whole
    -- A rest takes one more chain.
    split
    · rw [Nat.lt_succ_iff]
      constructor
      · intro le
        have := Nat.mul_le_mul_right args.blkLnum le
        omega
      · intro less
        refine Nat.lt_succ_iff.mp (Nat.lt_of_mul_lt_mul_right (a := args.blkLnum) ?_)
        rw [Nat.succ_mul]
        omega
    · rw [Nat.add_zero]
      constructor
      · intro less
        have := Nat.mul_lt_mul_of_pos_right less (Nat.pos_of_ne_zero block)
        omega
      · intro less
        exact Nat.lt_of_mul_lt_mul_right (a := args.blkLnum) (by omega)

/-- A chain moves a block, or the lines that are left. -/
theorem size_eq (counted : args.desNum = some desNum) (below : k < desNum)
    (small : args.lineSize * args.totalLnum < 2 ^ 32) :
    (if k + 1 = desNum ∧ args.blklastLnum ≠ 0 then
      args.lineSize * args.blklastLnum % 2 ^ 32 else args.blkSize) = args.sizeAt k := by
  obtain ⟨count, chains⟩ := desNum_eq counted
  have here := (chains k).mp below
  have whole := Nat.div_add_mod args.totalLnum args.blkLnum
  rw [Nat.mul_comm] at whole
  rw [sizeAt, linesAt, linesAt, Nat.min_eq_left (Nat.le_of_lt here)]
  split
  · rename_i last
    have behind := mt (chains (k + 1)).mpr (by omega)
    rw [if_pos last.2] at count
    obtain rfl : k = args.totalLnum / args.blkLnum := by omega
    rw [Nat.min_eq_right (by omega)]
    have rest : args.totalLnum - args.totalLnum / args.blkLnum * args.blkLnum =
        args.blklastLnum := by
      rw [blklastLnum]
      omega
    have less := Nat.mul_le_mul_left args.lineSize (show args.blklastLnum ≤ args.totalLnum by omega)
    rw [rest, Nat.mod_eq_of_lt (by omega)]
  · rename_i inner
    -- The next block begins among the lines, or right behind them.
    have fits : (k + 1) * args.blkLnum ≤ args.totalLnum := by
      by_cases last : k + 1 = desNum
      · have none : args.blklastLnum = 0 := by
          by_contra some
          exact inner ⟨last, some⟩
        rw [if_neg (by simp [none]), Nat.add_zero] at count
        rw [last, count]
        omega
      · exact Nat.le_of_lt ((chains (k + 1)).mp (by omega))
    have step : (k + 1) * args.blkLnum - k * args.blkLnum = args.blkLnum := by
      rw [Nat.succ_mul]
      omega
    have less := Nat.mul_le_mul_left args.lineSize
      (show args.blkLnum ≤ args.totalLnum by rw [Nat.succ_mul] at fits; omega)
    rw [Nat.min_eq_left fits, step, blkSize, Nat.mod_eq_of_lt (by omega)]

/-- The chains move the lines one behind the other. -/
theorem sizeAt_add (args : OfArgs) (k : Nat) : args.lineSize * args.linesAt k + args.sizeAt k =
    args.lineSize * args.linesAt (k + 1) := by
  rw [sizeAt, ← Nat.mul_add]
  congr 1
  have step : k * args.blkLnum ≤ (k + 1) * args.blkLnum := Nat.mul_le_mul_right _ (by omega)
  simp only [linesAt]
  omega

/-- A descriptor names no bytes behind its plane. -/
theorem moved_inside (lines : args.lineSize % 64 = 0) (some : 0 < args.lineSize)
    (block : 0 < args.blkLnum) (left : k * args.blkLnum < args.totalLnum)
    (small : args.lineSize * args.totalLnum < 2 ^ 32) :
    args.lineSize * args.linesAt k + nodeBytes (args.sizeAt k) ≤
      args.lineSize * args.totalLnum := by
  have sum := sizeAt_add args k
  have last := Nat.mul_le_mul_left args.lineSize
    (show args.linesAt (k + 1) ≤ args.totalLnum by rw [linesAt]; omega)
  have aligned : args.sizeAt k % 64 = 0 := by
    rw [sizeAt, Nat.mul_mod, lines, Nat.zero_mul]
  have more : 0 < args.sizeAt k := by
    apply Nat.mul_pos some
    simp only [linesAt]
    rw [Nat.succ_mul]
    omega
  -- The node rounds the size up to units of 64 bytes, of which the lines are made.
  have whole := nodeBytes_le aligned more (by omega)
  omega

/-- A byte that the descriptor of a plane names in a chain. -/
def Named (args : OfArgs) (k iFp v : Nat) : Prop :=
  Holds ⟨args.ddrPtr + iFp * (args.lineSize * args.totalLnum) + args.lineSize * args.linesAt k,
    nodeBytes (args.sizeAt k)⟩ v

/-- The sizes of a call that has planes do not wrap around. -/
theorem Valid.sizes (valid : args.Valid nna answers) (placed : args.placed answers = some orPtr)
    {iFp : Nat} (below : iFp < args.ofpNum) :
    (args.lineSize * args.totalLnum < 2 ^ 32 ∧ args.ofpSize = args.lineSize * args.totalLnum) ∧
      args.blkSize = args.lineSize * args.blkLnum ∧
      args.orbufSize = args.lineSize * args.blkLnum * args.bufBnum := by
  have visible := nna.visible
  have within := valid.within
  have oram := valid.oram orPtr placed
  simp only [NnaMmap.Holds, NnaMmap.InOram, oramSize, l2cSize] at within oram
  -- One plane is a part of all planes, and these are within the memory.
  have plane : args.lineSize * args.totalLnum ≤
      args.ofpNum * (args.lineSize * args.totalLnum) := Nat.le_mul_of_pos_left _ (by omega)
  have buffer : args.lineSize * args.blkLnum * args.bufBnum ≤
      args.ofpNum * (args.lineSize * args.blkLnum * args.bufBnum) :=
    Nat.le_mul_of_pos_left _ (by omega)
  have block : args.lineSize * args.blkLnum ≤ args.lineSize * args.blkLnum * args.bufBnum :=
    Nat.le_mul_of_pos_right _ valid.buffers
  have same : args.blkSize = args.lineSize * args.blkLnum := Nat.mod_eq_of_lt (by omega)
  refine ⟨⟨by omega, Nat.mod_eq_of_lt (by omega)⟩, same, ?_⟩
  rw [orbufSize, same, Nat.mod_eq_of_lt (by omega)]

/-- A block of a plane begins in the shared memory, at a multiple of a unit. -/
theorem Valid.maps_block (valid : args.Valid nna answers) {iFp : Nat} (below : iFp < args.ofpNum)
    (left : k * args.blkLnum < args.totalLnum) :
    nna.Maps (args.ddrPtr + iFp * (args.lineSize * args.totalLnum) +
        args.lineSize * args.linesAt k) ∧
      (args.ddrPtr + iFp * (args.lineSize * args.totalLnum) +
        args.lineSize * args.linesAt k) % 64 = 0 := by
  have maps := valid.maps
  have within := valid.within
  have whole : ∀ n, args.lineSize * n % 64 = 0 := fun n => by
    rw [Nat.mul_mod, valid.lines, Nat.zero_mul]
  have first := whole (iFp * args.totalLnum)
  rw [Nat.mul_left_comm] at first
  have second := whole (args.linesAt k)
  have aligned := valid.aligned
  refine ⟨?_, by omega⟩
  simp only [NnaMmap.Maps, NnaMmap.Holds] at maps within ⊢
  rcases Nat.eq_zero_or_pos args.lineSize with none | some
  · rw [none]
    omega
  · -- The block begins before the end of its plane, which is not behind the last one.
    have inside : args.lineSize * args.linesAt k < args.lineSize * args.totalLnum :=
      Nat.mul_lt_mul_of_pos_left (by rw [linesAt]; omega) some
    have planes := Nat.mul_le_mul_right (args.lineSize * args.totalLnum)
      (show iFp + 1 ≤ args.ofpNum from below)
    rw [Nat.succ_mul] at planes
    omega

/-- The descriptor of a plane in a chain. -/
theorem Valid.names_node (valid : args.Valid nna answers)
    (placed : args.placed answers = some orPtr) {iFp iBb : Nat} (below : iFp < args.ofpNum)
    (ring : iBb < args.bufBnum) (left : k * args.blkLnum < args.totalLnum) :
    (nndmaDesBytes (args.node nna orPtr (iBb * args.blkSize % 2 ^ 32)
        (args.lineSize * args.linesAt k) (args.sizeAt k) iFp)).Holds x ↔
      ∃ v, args.Named k iFp v ∧ x + nna.ddrVbase = v + nna.ddrPbase := by
  obtain ⟨⟨small, plane⟩, block, buffer⟩ := valid.sizes placed below
  obtain ⟨maps, aligned⟩ := valid.maps_block below left
  have oram := valid.oram orPtr placed
  have visible := nna.visible
  have top := nna.oram
  have range := maps
  simp only [NnaMmap.InOram, NnaMmap.Maps] at oram range
  -- The place in the buffer is inside what has been given for all of them.
  have buffers := Nat.mul_le_mul_right (args.lineSize * args.blkLnum * args.bufBnum)
    (show iFp + 1 ≤ args.ofpNum from below)
  have inside := Nat.mul_le_mul_right (args.lineSize * args.blkLnum) (Nat.le_of_lt ring)
  rw [Nat.mul_comm args.bufBnum] at inside
  rw [Nat.succ_mul] at buffers
  have offset : nna.aieGetOramOffset ((orPtr + iFp * args.orbufSize +
      iBb * args.blkSize % 2 ^ 32) % 2 ^ 32) < 2 ^ 26 := by
    rw [block, buffer, Nat.mod_eq_of_lt (a := iBb * _) (by omega), Nat.mod_eq_of_lt (by omega)]
    exact NnaMmap.offset_small ⟨by omega, by omega⟩
  rw [node, plane, Nat.mod_eq_of_lt (a := args.ddrPtr + _ + _) (by omega),
    bytes_nodeMaylast (NnaMmap.paddr_aligned maps aligned) offset, NnaMmap.holds_paddr maps]
  rfl

/-- What the first chains have set up. -/
structure Ran (args : OfArgs) (nna : NnaMmap) (n : Nat) (s : OfState) : Prop where
  names : ∀ x, s.setup.Names x ↔ ∃ k < n, ∃ iFp < args.ofpNum, ∃ v, args.Named k iFp v ∧
    x + nna.ddrVbase = v + nna.ddrPbase
  done : 0 < args.ofpNum → s.doneSize = args.lineSize * args.linesAt n
  ring : s.iBb < args.bufBnum
  silent : s.setup.flushed = []

/-- One more chain. -/
theorem Ran.step {n : Nat} (ran : Ran args nna n s) (valid : args.Valid nna answers)
    (counted : args.desNum = some desNum) (placed : args.placed answers = some orPtr)
    (below : n < desNum) : Ran args nna (n + 1) (args.chain nna orPtr desNum s n) := by
  have left := ((desNum_eq counted).2 n).mp below
  have ring := ran.ring
  refine ⟨fun x => ?_, fun some => ?_, ?_, ?_⟩
  · rw [chain]
    dsimp only
    have flat : (s.setup.noteEntry nna).Names x ↔ s.setup.Names x := Iff.rfl
    -- The names so far, and those of the planes of this chain.
    rw [DmaSetup.names_pushes, flat, ran.names]
    simp only [Nat.lt_succ_iff_lt_or_eq, or_and_right, exists_or, exists_eq_left, List.mem_map,
      List.mem_range, exists_exists_and_eq_and]
    refine or_congr Iff.rfl (exists_congr fun iFp => and_congr_right fun plane => ?_)
    rw [size_eq counted below (valid.sizes placed plane).1.1, ran.done (by omega)]
    exact valid.names_node placed plane ring left
  · obtain ⟨⟨small, _⟩, _⟩ := valid.sizes placed some
    show (s.doneSize + _) % 2 ^ 32 = _
    have inside := Nat.mul_le_mul_left args.lineSize
      (show args.linesAt (n + 1) ≤ args.totalLnum by rw [linesAt]; omega)
    rw [size_eq counted below small, ran.done some, sizeAt_add, Nat.mod_eq_of_lt (by omega)]
  · show (if s.iBb + 1 = args.bufBnum then 0 else s.iBb + 1) < args.bufBnum
    split <;> omega
  · rw [chain]
    dsimp only
    rw [DmaSetup.flushed_pushes]
    exact ran.silent

/-- What all the chains have set up. -/
theorem ran {n : Nat} (valid : args.Valid nna answers) (counted : args.desNum = some desNum)
    (placed : args.placed answers = some orPtr) (upTo : n ≤ desNum) :
    Ran args nna n ((List.range n).foldl (args.chain nna orPtr desNum)
      { setup := { desAddr := (nna.nndmaDesramVbase + 8 * 1024) % 2 ^ 32 } }) := by
  induction n with
  | zero =>
    refine ⟨fun x => ?_, fun _ => ?_, valid.buffers, rfl⟩
    · simp [DmaSetup.Names, Covers]
    · simp [linesAt]
  | succ n ih =>
    rw [List.range_succ, List.foldl_append]
    exact (ih (by omega)).step valid counted placed (by omega)

/-- A call that returns has run all the chains, and it flushes as many bytes as one plane has. -/
theorem returned_ran {result : DmaSetup × Nat} (cached : nna.isDdrCached = true)
    (valid : args.Valid nna answers) (returned : ofO2dOraset nna answers args = some result) :
    (∀ x, result.1.Names x ↔ ∃ v, (∃ k, k * args.blkLnum < args.totalLnum ∧
        ∃ iFp < args.ofpNum, args.Named k iFp v) ∧ x + nna.ddrVbase = v + nna.ddrPbase) ∧
      (0 < args.ofpNum → ∀ v, Covers result.1.flushed v ↔
        Holds ⟨args.ddrPtr, args.lineSize * args.totalLnum⟩ v) := by
  obtain ⟨desNum, counted, returned⟩ := Option.bind_eq_some_iff.mp returned
  rw [Option.ite_none_right_eq_some] at returned
  obtain ⟨orPtr, placed, rfl⟩ := Option.map_eq_some_iff.mp returned.2
  have ran := ran valid counted placed (Nat.le_refl desNum)
  have chains := (desNum_eq counted).2
  dsimp only
  rw [if_pos cached]
  constructor
  · intro x
    apply (ran.names x).trans
    simp only [chains]
    constructor
    · rintro ⟨k, left, iFp, below, v, named, same⟩
      exact ⟨v, ⟨k, left, iFp, below, named⟩, same⟩
    · rintro ⟨v, ⟨k, left, iFp, below, named⟩, same⟩
      exact ⟨k, left, iFp, below, v, named, same⟩
  · intro some v
    -- Behind the last chain no lines are left.
    have all : args.linesAt desNum = args.totalLnum := by
      have last := mt (chains desNum).mpr (Nat.lt_irrefl _)
      rw [linesAt]
      omega
    dsimp only [DmaSetup.aieFlushcache]
    rw [ran.silent, List.nil_append, covers_cons, ran.done some, all]
    simp [covers_nil]

/-- The number of planes tells when all that is transferred is flushed. -/
theorem flushed_iff {result : DmaSetup × Nat} (cached : nna.isDdrCached = true)
    (valid : args.Valid nna answers) (returned : ofO2dOraset nna answers args = some result) :
    result.1.Flushed nna ↔ args.Suffices := by
  obtain ⟨names, covers⟩ := returned_ran cached valid returned
  have maps := valid.maps
  have within := valid.within
  simp only [NnaMmap.Maps, NnaMmap.Holds] at maps within
  rw [DmaSetup.flushed_iff _ names]
  · constructor
    · intro all
      by_contra missing
      simp only [Suffices, not_or, not_and, Nat.not_lt] at missing
      obtain ⟨planes, lines, empty⟩ := missing
      have some : 0 < args.ofpNum := by omega
      -- The first bytes of the second plane, or of an empty one, are not flushed.
      have first : ∀ iFp < args.ofpNum, args.Named 0 iFp
          (args.ddrPtr + iFp * (args.lineSize * args.totalLnum)) := by
        intro iFp _
        have pos := nodeBytes_pos (args.sizeAt 0)
        simp only [Named, Holds, linesAt, Nat.zero_mul, Nat.zero_min, Nat.mul_zero]
        omega
      have sent : ∀ iFp < args.ofpNum, Holds ⟨args.ddrPtr, args.lineSize * args.totalLnum⟩
          (args.ddrPtr + iFp * (args.lineSize * args.totalLnum)) := fun iFp below =>
        (covers some _).mp (all _ ⟨0, by omega, iFp, below, first iFp below⟩).2
      by_cases one : args.ofpNum = 1
      · have none : args.lineSize = 0 := by
          have := empty one
          omega
        have holds := (sent 0 some).2
        simp only [none] at holds
        omega
      · have holds := (sent 1 (by omega)).2
        dsimp only at holds
        omega
    · rintro enough v ⟨k, left, iFp, below, named⟩
      obtain ⟨one, lines⟩ : args.ofpNum = 1 ∧ 0 < args.lineSize := by
        rcases enough with none | none | one
        · omega
        · omega
        · exact one
      obtain rfl : iFp = 0 := by omega
      obtain ⟨low, high⟩ := named
      dsimp only at low high
      rw [one] at within
      have plane := moved_inside valid.lines lines valid.block left (by have := nna.visible; omega)
      refine ⟨by simp only [NnaMmap.Maps]; omega, (covers (by omega) v).mpr ?_⟩
      simp only [Holds]
      omega
  · rintro v ⟨k, _, iFp, _, low, _⟩
    dsimp only at low
    omega

end OfArgs

namespace DmaCall

/-- The arguments are valid, and what they name lies in the memories. -/
def Valid (nna : NnaMmap) (answers : DmaAnswers) : DmaCall → Prop
  | .w args => args.Valid nna answers
  | .ifp args => args.Valid nna answers
  | .ofp args => args.Valid nna answers

/-- What the function flushes is enough for these arguments. -/
def Suffices : DmaCall → Prop
  | .w args => args.Suffices
  | .ifp args => args.Suffices
  | .ofp args => args.Suffices

variable {nna : NnaMmap} {answers : DmaAnswers} {call : DmaCall} {setup : DmaSetup}

/--
A call that returns has flushed every byte that its descriptors name just when its arguments are
such that the ranges it flushes suffice.
-/
theorem setup_flushed_iff (cached : nna.isDdrCached = true) (valid : call.Valid nna answers)
    (returned : call.setup nna answers = some setup) : setup.Flushed nna ↔ call.Suffices := by
  cases call with
  | w args =>
    obtain rfl := Option.some.inj returned
    exact WArgs.flushed_iff cached valid
  | ifp args =>
    obtain ⟨result, ran, rfl⟩ := Option.map_eq_some_iff.mp returned
    exact IfArgs.flushed_iff cached valid ran
  | ofp args =>
    obtain ⟨result, ran, rfl⟩ := Option.map_eq_some_iff.mp returned
    exact OfArgs.flushed_iff cached valid ran

/-- A cached mapping of 16 MiB. -/
def sampleMmap : NnaMmap where
  ddrVbase := 0x40000000
  ddrPbase := 0x4000000
  ddrMemSize := 0x1000000
  ddrVbaseCacheAttr := nnaCached
  oramVbase := 0x30000000
  nndmaDesramVbase := 0x20000000
  pages := by decide
  visible := by decide
  physical := by decide
  oram := by decide

/-- Answers of calls that are not made, and of a `malloc` that finds memory. -/
def sampleAnswers : DmaAnswers := ⟨true, fun _ => 0⟩

/-- One output plane of nine lines, sent in blocks of two. -/
theorem setup_flushed_plane : ∃ setup,
    (ofp ⟨false, 64, 2, 3, 9, 1, 0x40000000, 0x30000000⟩).setup sampleMmap sampleAnswers =
      some setup ∧ setup.Flushed sampleMmap := by
  have valid : (ofp ⟨false, 64, 2, 3, 9, 1, 0x40000000, 0x30000000⟩).Valid sampleMmap
      sampleAnswers := by
    refine ⟨rfl, by decide, by decide, rfl, by decide, by decide, ?_⟩
    intro orPtr placed
    obtain rfl := Option.some.inj placed
    decide
  exact ⟨_, rfl, (setup_flushed_iff rfl valid rfl).mpr (Or.inr (Or.inr ⟨rfl, by decide⟩))⟩

/-- Of two blocks, the second one right behind the first one, only the first one is flushed. -/
theorem second_block_not_flushed :
    (w ⟨false, [⟨0x40000000, 0x30000000, 64⟩, ⟨0x40000040, 0x30000040, 64⟩]⟩).Valid sampleMmap
      sampleAnswers ∧ sampleMmap.isDdrCached = true ∧ ∃ setup,
    (w ⟨false, [⟨0x40000000, 0x30000000, 64⟩, ⟨0x40000040, 0x30000040, 64⟩]⟩).setup sampleMmap
      sampleAnswers = some setup ∧ ¬ setup.Flushed sampleMmap := by
  refine ⟨⟨?_, ?_⟩, rfl, _, rfl, fun flushed => ?_⟩
  · intro block member
    simp only [List.mem_cons, List.not_mem_nil, or_false] at member
    rcases member with rfl | rfl
    · exact ⟨rfl, rfl, by decide, by decide, by decide⟩
    · exact ⟨rfl, rfl, by decide, by decide, by decide⟩
  · intro i block found
    rcases i with _ | _ | i
    · obtain rfl := Option.some.inj found
      decide
    · obtain rfl := Option.some.inj found
      decide
    · cases found
  · -- The first byte of the second block is named, and 64 bytes behind what is sent.
    obtain ⟨v, maps, same, covers⟩ := flushed 0x4000040 (by decide)
    have back := NnaMmap.paddr_maps maps
    have sent : Covers [⟨0x40000000, 64⟩] v := covers
    simp only [covers_cons, covers_nil, or_false, Holds] at sent
    have bases : sampleMmap.ddrVbase = 0x40000000 ∧ sampleMmap.ddrPbase = 0x4000000 := ⟨rfl, rfl⟩
    omega

end DmaCall

end Aip
