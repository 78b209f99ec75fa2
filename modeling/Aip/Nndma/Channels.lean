import Aip.Lib.Paint
import Aip.Nndma.Chains
import Aip.Nndma.FlushedOutput

/-! Where in the DESRAM the functions of `dma_func.c` write, and when they keep to their channel. -/

namespace Aip

/-- The areas of the three channels, each of 4K. -/
inductive DesramArea where
  | input
  | weights
  | output
  deriving DecidableEq, Repr

/-- Where an area begins: `__aie_get_desram_IF_ping` and the two like it. -/
def DesramArea.base : DesramArea → Nat
  | input => 0
  | weights => 4 * 1024
  | output => 8 * 1024

/-- A word of 32 bits at an address lies in an area of the DESRAM. -/
def NnaMmap.InArea (nna : NnaMmap) (area : DesramArea) (address : Nat) : Prop :=
  area.base ≤ ((address : Int) - nna.nndmaDesramVbase) % 2 ^ 32 ∧
    ((address : Int) - nna.nndmaDesramVbase) % 2 ^ 32 + 4 ≤ area.base + 4 * 1024

instance (nna : NnaMmap) (area : DesramArea) (address : Nat) :
    Decidable (nna.InArea area address) :=
  inferInstanceAs (Decidable (_ ∧ _))

namespace PlaneKind

/-- The descriptors that a chain has for one plane: two when the block is split. -/
def nodes (kind : PlaneKind) (k : Nat) : Nat :=
  if (kind.setSize k (kind.stepped k)).sizeBefRb ≠ 0 then 2 else 1

/-- Where the ring holds the largest block, the blocks that go beyond its end are split. -/
theorem Fits.nodes_eq {kind : PlaneKind} {k : Nat} (fits : kind.Fits) (below : k < kind.desNum) :
    kind.nodes k = if kind.Straddles k then 2 else 1 := by
  rw [nodes, fits.stepped_eq below, fits.setSize_stateAt below]
  -- A block that straddles has a part in front of the end, so that there are two.
  by_cases beyond : kind.Straddles k
  · have wide : kind.orbufSize < kind.offsetAt k + kind.blockAt k := beyond
    have before : kind.orbufSize - kind.offsetAt k ≠ 0 := by
      rcases fits.offsetAt_lt k with less | ⟨none, place, empty⟩ <;> omega
    rw [if_pos beyond, if_pos beyond, if_pos before]
  · rw [if_neg beyond, if_neg beyond, if_neg (by simp)]

end PlaneKind

namespace DmaSetup

variable {nna : NnaMmap} {area : DesramArea} {s : DmaSetup} {i word : Nat}

/-- The address of a word of a descriptor; the descriptors end where the next one would begin. -/
def wordAt (s : DmaSetup) (i word : Nat) : Nat :=
  (((s.desAddr : Int) - 8 * (s.des.length - i) + 4 * word) % 2 ^ 32).toNat

/-- The words of the descriptors with their addresses, in the order in which they are written. -/
def words (s : DmaSetup) : List (Nat × Nat) :=
  s.des.zipIdx.flatMap fun des => [(s.wordAt des.2 0, des.1.1), (s.wordAt des.2 1, des.1.2)]

/-- All words are written inside an area, so that the words elsewhere stay what they are. -/
structure KeepsTo (nna : NnaMmap) (area : DesramArea) (s : DmaSetup) : Prop where
  inside : ∀ word ∈ s.words, nna.InArea area word.1
  others : ∀ (desram : Nat → Nat) (address : Nat), ¬ nna.InArea area address →
    Paint.paint desram s.words address = desram address

/-- The descriptors lie one behind the other from the start of an area on. -/
def From (nna : NnaMmap) (area : DesramArea) (s : DmaSetup) : Prop :=
  s.desAddr % 2 ^ 32 = (nna.nndmaDesramVbase + area.base + 8 * s.des.length) % 2 ^ 32

/-- The place of a word, from the start of the DESRAM. -/
theorem From.place (begins : s.From nna area) (i word : Nat) :
    ((s.wordAt i word : Int) - nna.nndmaDesramVbase) % 2 ^ 32 =
      ((area.base : Int) + 8 * i + 4 * word) % 2 ^ 32 := by
  rw [From] at begins
  rw [wordAt]
  omega

/-- An area has room for 512 descriptors. -/
theorem From.keeps_iff (begins : s.From nna area) :
    s.KeepsTo nna area ↔ s.des.length ≤ 512 := by
  have base : area.base ≤ 8 * 1024 := by cases area <;> decide
  constructor
  · intro keeps
    by_contra more
    -- The first word behind the 512th descriptor is the first one behind the area.
    have beyond : 512 < s.des.length := by omega
    have member : (s.wordAt 512 0, s.des[512].1) ∈ s.words := by
      refine List.mem_flatMap.mpr ⟨(s.des[512], 512), ?_, by simp⟩
      rw [List.mem_zipIdx_iff_getElem?]
      exact List.getElem?_eq_getElem beyond
    obtain ⟨low, high⟩ := keeps.inside _ member
    rw [begins.place] at low high
    omega
  · intro few
    have inside : ∀ word ∈ s.words, nna.InArea area word.1 := by
      intro word member
      obtain ⟨⟨des, i⟩, among, here⟩ := List.mem_flatMap.mp member
      -- A word is one of the two of a descriptor, whose number is below 512.
      have below : i < s.des.length := by
        rw [List.mem_zipIdx_iff_getElem?] at among
        exact (List.getElem?_eq_some_iff.mp among).1
      have within : ∀ word < 2, nna.InArea area (s.wordAt i word) := by
        intro word least
        rw [NnaMmap.InArea, begins.place]
        omega
      simp only [List.mem_cons, List.not_mem_nil, or_false] at here
      rcases here with rfl | rfl
      · exact within 0 (by decide)
      · exact within 1 (by decide)
    refine ⟨inside, fun desram address outside => ?_⟩
    -- Nothing is written to an address elsewhere.
    have none : s.words.filter (fun word => word.1 = address) = [] := by
      rw [List.filter_eq_nil_iff]
      intro word member here
      have same : word.1 = address := by simpa using here
      exact outside (same ▸ inside word member)
    rw [Paint.paint_at, none, Paint.paint_nil]

/-- A loop over planes writes the same number of descriptors for each of them. -/
theorem length_loopDes (kind : PlaneKind) (k : Nat) (last : Bool) (planes : List Plane) :
    (loopDes nna last (kind.stepped k) (kind.setSize k (kind.stepped k)) planes).length =
      planes.length * kind.nodes k := by
  -- The planes share the variables, and with them the split.
  induction planes with
  | nil => simp [loopDes]
  | cons plane rest ih =>
    -- Whether it ends a chain does not change how many there are.
    have one : ∀ last, (genDes nna (kind.stepped k) (kind.setSize k (kind.stepped k)) last
        plane).length = kind.nodes k := by
      intro last
      rw [genDes, PlaneKind.nodes]
      split <;> rfl
    rw [loopDes, List.length_append, ih, one, List.length_cons, Nat.succ_mul, Nat.add_comm]

/-- Chains from the start of an area on. -/
theorem Chained.starts {start n : Nat} {chain : Nat → List (Nat × Nat)}
    (chained : s.Chained nna start chain n)
    (begins : start % 2 ^ 32 = (nna.nndmaDesramVbase + area.base) % 2 ^ 32) : s.From nna area := by
  rw [From, chained.des, chained.desAddr, Nat.add_mod, begins, ← Nat.add_mod]

/-- An entry number of the DESRAM is the one of a descriptor. -/
def PointsTo (nna : NnaMmap) (s : DmaSetup) (entry i : Nat) : Prop :=
  8 * (entry : Int) = ((s.wordAt i 0 : Int) - nna.nndmaDesramVbase) % 2 ^ 32

/-- The entry number noted for a chain is that of its first descriptor. -/
theorem Chained.entry {start n k : Nat} {chain : Nat → List (Nat × Nat)}
    (chained : s.Chained nna start chain n)
    (begins : start % 2 ^ 32 = (nna.nndmaDesramVbase + area.base) % 2 ^ 32)
    (desram : nna.nndmaDesramVbase < 2 ^ 32) (below : k < n) :
    ∃ entry, s.desEntry[k]? = some entry ∧
      s.PointsTo nna entry ((List.range k).flatMap chain).length := by
  obtain ⟨address, at_, noted⟩ := chained.desEntry k below
  -- An area starts at a whole entry.
  have base : area.base % 8 = 0 := by cases area <;> rfl
  refine ⟨_, noted, ?_⟩
  rw [PointsTo, (chained.starts begins).place, NnaMmap.aieGetDesramPtr]
  omega

end DmaSetup

namespace WArgs

variable {nna : NnaMmap} {answers : DmaAnswers} {args : WArgs}

/-- The loop writes a descriptor for each block. -/
theorem writes_loop (i : Nat) (blocks : List WBlock) (s : DmaSetup) :
    ∃ des, s.Writes des (args.loop nna answers i blocks s) ∧ des.length = blocks.length := by
  -- The blocks are taken from the front, each with the number of those before it.
  induction blocks generalizing i s with
  | nil => exact ⟨[], .refl s, rfl⟩
  | cons block rest ih =>
    -- The descriptor of the block with its flush, and then the blocks behind it.
    have here : ∀ one : Nat × Nat, s.Writes [one] (if nna.isDdrCached then
        (s.push one).ddrFlushCache (rest.head?.map (·.ddrPtr)) block.ddrPtr block.size
      else s.push one) := fun one => (DmaSetup.writes_push s one).trans (DmaSetup.writes_flush ..)
    have there := fun one : Nat × Nat => ih (i + 1) (if nna.isDdrCached then
        (s.push one).ddrFlushCache (rest.head?.map (·.ddrPtr)) block.ddrPtr block.size
      else s.push one)
    obtain ⟨des, writes, count⟩ := there (aieNndmaBignodeMaylast rest.isEmpty
      (nna.aieGetOramOffset (args.orPtr answers i block)) (nna.aieGetDdrPaddr block.ddrPtr)
      block.size)
    exact ⟨_, (here _).trans writes, by simp [count]⟩

/-- The chain begins at the start of the second area. -/
theorem begins (nna : NnaMmap) (answers : DmaAnswers) (args : WArgs) :
    (wD2oOrasetrun nna answers args).1.From nna .weights ∧
      (wD2oOrasetrun nna answers args).1.des.length = args.blocks.length := by
  obtain ⟨des, writes, count⟩ := @writes_loop nna answers args 0 args.blocks
    { desAddr := (nna.nndmaDesramVbase + 4 * 1024) % 2 ^ 32 }
  have all : (wD2oOrasetrun nna answers args).1.des = des := writes.des.trans (List.nil_append des)
  have moved : (wD2oOrasetrun nna answers args).1.desAddr % 2 ^ 32 = _ := writes.desAddr
  rw [DmaSetup.From, all, count, moved, count, DesramArea.base, Nat.mod_add_mod]
  exact ⟨rfl, rfl⟩

end WArgs

namespace IfArgs

variable {nna : NnaMmap} {answers : DmaAnswers} {args : IfArgs}

/--
The descriptors that the planes ask for: in each chain one for each plane that takes part in it,
and one more where its block is split.
-/
def descriptors (args : IfArgs) : Nat :=
  let desNum := args.desNum.getD 0
  let qdesNum := args.qdesNum.getD 0
  ((List.range desNum).map fun k =>
    (normal args.planes args.qifpNum).length * (args.kind desNum).nodes k +
      if k < qdesNum then
        (quarter args.planes args.qifpNum).length * (args.qkind qdesNum).nodes k
      else 0).sum

/-- The chains begin at the start of the first area. -/
theorem begins {result : DmaSetup × Nat} (returned : ifD2rboOraset nna answers args = some result) :
    result.1.From nna .input ∧ result.1.des.length = args.descriptors := by
  obtain ⟨desNum, qdesNum, planes, counted, qcounted, placed, chained, _⟩ :=
    returned_chained returned
  refine ⟨chained.starts rfl, ?_⟩
  have lengths : planes.length = args.planes.length := by
    simpa using congrArg List.length (placed_ddrPtr placed)
  rw [chained.des, descriptors, counted, qcounted, List.length_flatMap]
  -- Chain by chain, both sums count the planes that take part.
  refine congrArg List.sum (List.map_congr_left fun k _ => ?_)
  have parts : (normal planes args.qifpNum).length = (normal args.planes args.qifpNum).length ∧
      (quarter planes args.qifpNum).length = (quarter args.planes args.qifpNum).length := by
    simp [normal, quarter, lengths]
  rw [chainDes, List.length_append, DmaSetup.length_loopDes, parts.1]
  dsimp only [Option.getD_some]
  split
  · rw [DmaSetup.length_loopDes, parts.2]
  · rfl

end IfArgs

namespace OfArgs

variable {nna : NnaMmap} {answers : DmaAnswers} {args : OfArgs}

/-- The descriptors that the planes ask for: in each chain one for each plane. -/
def descriptors (args : OfArgs) : Nat := args.desNum.getD 0 * args.ofpNum

/-- The chains begin at the start of the third area. -/
theorem begins {result : DmaSetup × Nat} (returned : ofO2dOraset nna answers args = some result) :
    result.1.From nna .output ∧ result.1.des.length = args.descriptors := by
  obtain ⟨desNum, orPtr, counted, placed, chained, _⟩ := returned_chained returned
  refine ⟨chained.starts (Nat.mod_mod _ _), ?_⟩
  rw [chained.des, descriptors, counted, List.length_flatMap]
  simp [chainDes]

end OfArgs

namespace DmaCall

variable {nna : NnaMmap} {answers : DmaAnswers} {call : DmaCall} {setup : DmaSetup}

/-- The area of the channel that the function sets up. -/
def area : DmaCall → DesramArea
  | .w _ => .weights
  | .ifp _ => .input
  | .ofp _ => .output

/-- The descriptors that the arguments ask for. -/
def descriptors : DmaCall → Nat
  | .w args => args.blocks.length
  | .ifp args => args.descriptors
  | .ofp args => args.descriptors

/-- A call that returns keeps to the area of its channel just when at most 512 are asked for. -/
theorem keepsTo_iff (returned : call.setup nna answers = some setup) :
    setup.KeepsTo nna call.area ↔ call.descriptors ≤ 512 := by
  -- Each call writes as many as it asks for, from the start of its area on.
  cases call with
  | w args =>
    obtain rfl := Option.some.inj returned
    obtain ⟨begins, count⟩ := WArgs.begins nna answers args
    rw [area, begins.keeps_iff, count, descriptors]
  | ifp args =>
    obtain ⟨result, ran, rfl⟩ := Option.map_eq_some_iff.mp returned
    obtain ⟨begins, count⟩ := IfArgs.begins ran
    rw [area, begins.keeps_iff, count, descriptors]
  | ofp args =>
    obtain ⟨result, ran, rfl⟩ := Option.map_eq_some_iff.mp returned
    obtain ⟨begins, count⟩ := OfArgs.begins ran
    rw [area, begins.keeps_iff, count, descriptors]

/-- A plane and a quarter plane in three chains, the second and third of them going round a ring. -/
theorem keepsTo_round : ∃ setup,
    (ifp ⟨false, 64, 2, 0, 3, 6, 1, [⟨0x40000000, 0x30000000⟩, ⟨0x40001000, 0x30001000⟩]⟩).setup
      sampleMmap sampleAnswers = some setup ∧ setup.KeepsTo sampleMmap .input := by
  have few : (ifp ⟨false, 64, 2, 0, 3, 6, 1,
      [⟨0x40000000, 0x30000000⟩, ⟨0x40001000, 0x30001000⟩]⟩).descriptors ≤ 512 := by decide
  exact ⟨_, rfl, (@keepsTo_iff sampleMmap sampleAnswers _ _ rfl).mpr few⟩

/-- Of 513 blocks of weights, the last one has its descriptor where those of the output begin. -/
theorem not_keepsTo_blocks :
    (w ⟨false, List.replicate 513 ⟨0x40000000, 0x30000000, 64⟩⟩).Valid sampleMmap sampleAnswers ∧
      ∃ setup, (w ⟨false, List.replicate 513 ⟨0x40000000, 0x30000000, 64⟩⟩).setup sampleMmap
        sampleAnswers = some setup ∧ ¬ setup.KeepsTo sampleMmap .weights := by
  -- The call passes all its checks.
  refine ⟨⟨?_, ?_⟩, _, rfl, ?_⟩
  · intro block member
    obtain rfl := List.eq_of_mem_replicate member
    exact ⟨rfl, rfl, by decide, by decide, by decide⟩
  · intro i block found
    obtain rfl := List.eq_of_mem_replicate (List.mem_of_getElem? found)
    exact (by decide : sampleMmap.InOram 0x30000000 64)
  · -- Each block has one descriptor.
    obtain ⟨begins, count⟩ := WArgs.begins sampleMmap sampleAnswers
      ⟨false, List.replicate 513 ⟨0x40000000, 0x30000000, 64⟩⟩
    rw [begins.keeps_iff, count, List.length_replicate]
    decide

end DmaCall

end Aip
