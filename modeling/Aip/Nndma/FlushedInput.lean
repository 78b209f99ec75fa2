import Aip.Nndma.FlushedPlanes

/-! When `if_d2rbo_oraset` flushes all that it transfers. -/

namespace Aip

open Region

/-- The planes of one kind with its numbers. -/
structure PlaneGroup where
  kind : PlaneKind
  planes : List Plane
  deriving DecidableEq, Repr

namespace PlaneGroup

/-- A byte that the chains move of one of the planes. -/
def Moves (group : PlaneGroup) (v : Nat) : Prop :=
  ∃ plane ∈ group.planes, Holds ⟨plane.ddrPtr, group.kind.moved⟩ v

/-- A byte that one of the chains flushes. -/
def Flushes (group : PlaneGroup) (v : Nat) : Prop :=
  ∃ k < group.kind.desNum, Reached (group.kind.regions group.planes k) v

/-- The numbers of the kind fit, and its planes are valid. -/
def Valid (nna : NnaMmap) (group : PlaneGroup) : Prop :=
  group.planes ≠ [] → group.kind.Fits ∧ ∀ plane ∈ group.planes, group.kind.Valid nna plane

/-- A byte that the descriptors of a chain name. -/
def Named (group : PlaneGroup) (k v : Nat) : Prop :=
  ∃ plane ∈ group.planes, Holds ⟨plane.ddrPtr + group.kind.doneAt k, group.kind.movedAt k⟩ v

variable {nna : NnaMmap} {group : PlaneGroup} {k v x : Nat} {st : PlaneState} {s : DmaSetup}
  {last flushes : Bool}

/-- What is moved depends on the shared memory only. -/
theorem moves_congr {a b : PlaneGroup} (kind : a.kind = b.kind)
    (same : a.planes.map (·.ddrPtr) = b.planes.map (·.ddrPtr)) :
    a.Moves v ↔ b.Moves v := by
  have moves : ∀ group : PlaneGroup, group.Moves v ↔
      ∃ ptr ∈ group.planes.map (·.ddrPtr), Holds ⟨ptr, group.kind.moved⟩ v := by
    simp [Moves]
  rw [moves, moves, kind, same]

/-- What is flushed depends on the shared memory only. -/
theorem flushes_congr {a b : PlaneGroup} (kind : a.kind = b.kind)
    (same : a.planes.map (·.ddrPtr) = b.planes.map (·.ddrPtr)) :
    a.Flushes v ↔ b.Flushes v := by
  have regions : ∀ k, b.kind.regions a.planes k = b.kind.regions b.planes k := by
    intro k
    have first := congrArg (List.map fun ptr => (⟨ptr, b.kind.blockAt k⟩ : Region)) same
    rw [List.map_map, List.map_map] at first
    exact first
  simp only [Flushes, regions, kind]

/-- The descriptors of all chains together name what is moved, if the lines are not empty. -/
theorem exists_named (valid : group.Valid nna) (some : 0 < group.kind.lineSize) :
    (∃ k < group.kind.desNum, group.Named k v) ↔ group.Moves v := by
  -- Without planes both sides are false; else the chains share out the bytes of each plane.
  by_cases none : group.planes = []
  · simp [Named, Moves, none]
  · obtain ⟨fits, _⟩ := valid none
    constructor
    · rintro ⟨k, below, plane, member, holds⟩
      refine ⟨plane, member, ?_⟩
      rw [PlaneKind.movedAt, if_neg (fits.lines_pos below some).ne'] at holds
      have inside := fits.inside below
      simp only [Holds] at holds ⊢
      omega
    · rintro ⟨plane, member, low, high⟩
      dsimp only at low high
      obtain ⟨k, below, done, more⟩ := (fits.exists_chain (y := v - plane.ddrPtr)).mpr (by omega)
      refine ⟨k, below, plane, member, ?_⟩
      rw [PlaneKind.movedAt, if_neg (fits.lines_pos below some).ne']
      simp only [Holds]
      omega

/-- Empty lines flush nothing. -/
theorem not_flushes (none : group.kind.lineSize = 0) : ¬ group.Flushes v := by
  rintro ⟨k, _, i, r, found, _, holds⟩
  obtain ⟨plane, _, rfl⟩ := List.mem_map.mp (List.mem_of_getElem? found)
  have empty : group.kind.blockAt k = 0 := by
    rw [PlaneKind.blockAt, none]
    split
    · exact Nat.zero_mul _
    · split <;> exact Nat.zero_mul _
  simp only [Holds, empty] at holds
  omega

/-- Empty lines still have descriptors, and a descriptor names something. -/
theorem named_empty (none : group.kind.lineSize = 0) {plane : Plane}
    (member : plane ∈ group.planes) : group.Named 0 plane.ddrPtr := by
  have empty : group.kind.blockAt 0 = 0 := by
    rw [PlaneKind.blockAt, none, if_pos rfl, Nat.zero_mul]
  refine ⟨plane, member, ?_⟩
  rw [PlaneKind.movedAt, if_pos empty, PlaneKind.doneAt, if_pos rfl]
  simp [Holds]

/-- What is named lies behind the start of the shared memory. -/
theorem named_above (valid : group.Valid nna) (named : group.Named k v) : nna.ddrVbase ≤ v := by
  obtain ⟨plane, member, low, _⟩ := named
  have maps := ((valid (List.ne_nil_of_mem member)).2 plane member).maps
  simp only [NnaMmap.Maps] at maps
  dsimp only at low
  omega

/-- What is moved lies in the shared memory. -/
theorem moves_maps (valid : group.Valid nna) (moves : group.Moves v) : nna.Maps v := by
  obtain ⟨plane, member, low, high⟩ := moves
  have within := ((valid (List.ne_nil_of_mem member)).2 plane member).within
  simp only [NnaMmap.Holds, NnaMmap.Maps] at within ⊢
  dsimp only at low high
  omega

/-- The planes of one kind get their descriptors in a chain. -/
theorem names_planeLoop (valid : group.Valid nna) (below : k < group.kind.desNum)
    (state : group.planes ≠ [] → group.kind.At k st) :
    (s.planeLoop nna flushes last st (group.kind.setSize k st) group.planes).Names x ↔
      s.Names x ∨ ∃ v, group.Named k v ∧ x + nna.ddrVbase = v + nna.ddrPbase := by
  by_cases none : group.planes = []
  · simp [none, Named, DmaSetup.planeLoop]
  · obtain ⟨fits, planes⟩ := valid none
    rw [fits.names_planeLoop below (state none) planes]
    simp only [Named]
    refine or_congr Iff.rfl ⟨?_, ?_⟩
    · rintro ⟨plane, member, v, holds, same⟩
      exact ⟨v, ⟨plane, member, holds⟩, same⟩
    · rintro ⟨v, ⟨plane, member, holds⟩, same⟩
      exact ⟨plane, member, v, holds, same⟩

/-- The planes of one kind are flushed in a chain, and then nothing is gathered. -/
theorem flushed_planeLoop (last : Bool) (valid : group.Valid nna) (below : k < group.kind.desNum)
    (state : group.planes ≠ [] → group.kind.At k st) (fresh : s.Fresh) :
    (s.planeLoop nna true last st (group.kind.setSize k st) group.planes).Fresh ∧
      ∀ v, Covers (s.planeLoop nna true last st (group.kind.setSize k st) group.planes).flushed v ↔
        Covers s.flushed v ∨ Reached (group.kind.regions group.planes k) v := by
  by_cases none : group.planes = []
  · refine ⟨by simpa only [none, DmaSetup.planeLoop] using fresh, fun v => ?_⟩
    simp [none, DmaSetup.planeLoop, PlaneKind.regions, Reached]
  · obtain ⟨fits, planes⟩ := valid none
    obtain ⟨sent, ends⟩ := PlaneKind.flushed_planeLoop last st
      (fits.setSize_split below (state none)).1 (fits.addressed below planes) (fresh.gathered _)
    refine ⟨ends none, fun v => ?_⟩
    rw [sent, covers_append, covers_gather]

end PlaneGroup

namespace IfArgs

/-- The normal planes with their number of chains. -/
def normalGroup (args : IfArgs) (planes : List Plane) (desNum : Nat) : PlaneGroup :=
  ⟨args.kind desNum, normal planes args.qifpNum⟩

/-- The quarter planes with their number of chains. -/
def quarterGroup (args : IfArgs) (planes : List Plane) (qdesNum : Nat) : PlaneGroup :=
  ⟨args.qkind qdesNum, quarter planes args.qifpNum⟩

/-- The planes of both kinds, with the places in the on-chip memory that they have been given. -/
def groups (args : IfArgs) (planes : List Plane) : List PlaneGroup :=
  [args.normalGroup planes (args.desNum.getD 0), args.quarterGroup planes (args.qdesNum.getD 0)]

/--
Arguments that pass the checks of a build with `__AIE_VALID_CHECK__`, with planes in the shared
memory, and with rings in the on-chip memory in which the largest block has room.
-/
structure Valid (nna : NnaMmap) (answers : DmaAnswers) (args : IfArgs) : Prop where
  lines : args.lineSize % 64 = 0
  block : 0 < args.blkLnum
  present : 0 < args.ifpNum
  quarters : args.qifpNum ≤ args.ifpNum
  even : args.qifpNum ≠ 0 → args.blkLnum % 2 = 0 ∧ args.totalLnum % 2 = 0
  limit : args.lineSize * (args.blkLnum + args.blk0LnumMore) ≤ 2 ^ 18
  ring : args.blkLnum + args.blk0LnumMore ≤ args.orbufLnum
  oram : args.lineSize * args.orbufLnum ≤ oramSize
  planes : ∀ planes, args.placed answers = some planes → ∀ group ∈ args.groups planes,
    ∀ plane ∈ group.planes, group.kind.Valid nna plane

/-- What the checks ask of the numbers, and rings in which the largest block has room. -/
structure Numbers (args : IfArgs) : Prop where
  lines : args.lineSize % 64 = 0
  block : 0 < args.blkLnum
  present : 0 < args.ifpNum
  quarters : args.qifpNum ≤ args.ifpNum
  even : args.qifpNum ≠ 0 → args.blkLnum % 2 = 0 ∧ args.totalLnum % 2 = 0
  limit : args.lineSize * (args.blkLnum + args.blk0LnumMore) ≤ 2 ^ 18
  ring : args.blkLnum + args.blk0LnumMore ≤ args.orbufLnum
  oram : args.lineSize * args.orbufLnum ≤ oramSize

/--
What `if_d2rbo_oraset` flushes suffices: the lines are not empty, and each byte moved of a plane
lies in the one range that a large transfer flushes, or, in a smaller transfer, in the bytes of a
block counted from the start of a plane, where the plane does not end a run for that block.
-/
def Suffices (args : IfArgs) : Prop :=
  0 < args.lineSize ∧ ∀ group ∈ args.groups args.planes, ∀ v, group.Moves v →
    if args.bFlushAll then
      ∃ plane ∈ args.planes.head?, Holds ⟨plane.ddrPtr, args.totalTranferSize⟩ v
    else ∃ other ∈ args.groups args.planes, other.Flushes v

variable {nna : NnaMmap} {answers : DmaAnswers} {args : IfArgs} {planes : List Plane}
  {desNum qdesNum k v x : Nat} {group : PlaneGroup}

theorem Valid.numbers (valid : args.Valid nna answers) : args.Numbers :=
  ⟨valid.lines, valid.block, valid.present, valid.quarters, valid.even, valid.limit, valid.ring,
    valid.oram⟩

/-- A quarter of the lines takes no more chains. -/
theorem qdesNum_le (numbers : args.Numbers) (counted : args.desNum = some desNum)
    (qcounted : args.qdesNum = some qdesNum) : qdesNum ≤ desNum := by
  rw [IfArgs.qdesNum] at qcounted
  split at qcounted
  · obtain rfl : 0 = qdesNum := by simpa using qcounted
    exact Nat.zero_le _
  · rename_i quarters
    obtain ⟨lnum, lines⟩ := numbers.even quarters
    have block := numbers.block
    rcases PlaneKind.chainCount_eq block counted with ⟨few, rfl⟩ | ⟨one, low, high⟩
    · rcases PlaneKind.chainCount_eq (by omega) qcounted with ⟨_, rfl⟩ | ⟨_, low, _⟩ <;> omega
    · rcases PlaneKind.chainCount_eq (by omega) qcounted with ⟨_, rfl⟩ | ⟨_, qlow, _⟩
      · omega
      · -- Half the lines in blocks of half the size need as many chains.
        by_contra more
        have half : args.blkLnum = 2 * (args.blkLnum / 2) := by omega
        have steps := Nat.mul_le_mul_right (args.blkLnum / 2) (show desNum ≤ qdesNum - 1 by omega)
        rw [half, Nat.mul_left_comm] at high
        omega

/-- The chains of the quarter planes are among those of the loop. -/
theorem exists_chain (fewer : qdesNum ≤ desNum) {p q : Nat → Prop} :
    (∃ k < desNum, p k ∨ k < qdesNum ∧ q k) ↔ (∃ k < desNum, p k) ∨ ∃ k < qdesNum, q k := by
  constructor
  · rintro ⟨k, below, holds | ⟨less, holds⟩⟩
    · exact Or.inl ⟨k, below, holds⟩
    · exact Or.inr ⟨k, less, holds⟩
  · rintro (⟨k, below, holds⟩ | ⟨k, less, holds⟩)
    · exact ⟨k, below, Or.inl holds⟩
    · exact ⟨k, Nat.lt_of_lt_of_le less fewer, Or.inr ⟨less, holds⟩⟩

/-- The lines of a quarter plane are whole units, and not longer than the others. -/
theorem qlineSize_le (numbers : args.Numbers) :
    args.qlineSize % 64 = 0 ∧ args.qlineSize ≤ args.lineSize := by
  have lines := numbers.lines
  have oram := numbers.oram
  have ring := numbers.ring
  have block := numbers.block
  have short : args.lineSize ≤ args.lineSize * args.orbufLnum :=
    Nat.le_mul_of_pos_right _ (by omega)
  simp only [oramSize, l2cSize] at oram
  rw [qlineSize]
  omega

/-- The lines of a quarter plane are not empty when the others are not. -/
theorem qlineSize_pos (numbers : args.Numbers) (some : 0 < args.lineSize) :
    0 < args.qlineSize := by
  have lines := numbers.lines
  have short := (qlineSize_le numbers).2
  have limit := numbers.limit
  have block := numbers.block
  have long : args.lineSize ≤ args.lineSize * (args.blkLnum + args.blk0LnumMore) :=
    Nat.le_mul_of_pos_right _ (by omega)
  rw [qlineSize]
  omega

/-- The rings have the size that is computed for them. -/
theorem rings (numbers : args.Numbers) :
    args.orbufSize = args.lineSize * args.orbufLnum ∧ (args.qifpNum ≠ 0 →
      args.qorbufSize = args.qlineSize * ((args.orbufLnum + 2) / 2) ∧
        args.qorbufSize ≤ oramSize) := by
  have oram := numbers.oram
  have ring := numbers.ring
  have block := numbers.block
  simp only [oramSize, l2cSize] at oram ⊢
  refine ⟨Nat.mod_eq_of_lt (by omega), fun quarters => ?_⟩
  obtain ⟨even, _⟩ := numbers.even quarters
  have small : args.qlineSize * ((args.orbufLnum + 2) / 2) ≤ args.lineSize * args.orbufLnum :=
    Nat.mul_le_mul (qlineSize_le numbers).2 (by omega)
  rw [qorbufSize, Nat.mod_eq_of_lt (by omega)]
  exact ⟨rfl, by omega⟩

/-- The numbers of the normal planes fit. -/
theorem kind_fits (numbers : args.Numbers) (counted : args.desNum = some desNum)
    (small : (args.kind desNum).moved < 2 ^ 32) : (args.kind desNum).Fits where
  lines := numbers.lines
  block := numbers.block
  count := counted
  limit := numbers.limit
  ring := by
    show args.lineSize * _ ≤ args.orbufSize
    rw [(rings numbers).1]
    exact Nat.mul_le_mul_left _ numbers.ring
  oram := by
    show args.orbufSize ≤ oramSize
    rw [(rings numbers).1]
    exact numbers.oram
  aligned := by
    show args.orbufSize % 64 = 0
    rw [(rings numbers).1, Nat.mul_mod, numbers.lines, Nat.zero_mul]
  total := small

/-- The numbers of the quarter planes fit. -/
theorem qkind_fits (numbers : args.Numbers) (quarters : args.qifpNum ≠ 0)
    (counted : args.qdesNum = some qdesNum) (small : (args.qkind qdesNum).moved < 2 ^ 32) :
    (args.qkind qdesNum).Fits where
  lines := (qlineSize_le numbers).1
  block := by
    have even := (numbers.even quarters).1
    have block := numbers.block
    show 0 < args.blkLnum / 2
    omega
  count := by
    rw [IfArgs.qdesNum, if_neg quarters] at counted
    exact counted
  limit := by
    have block := numbers.block
    exact (Nat.mul_le_mul (qlineSize_le numbers).2
      (show args.blkLnum / 2 + (args.blk0LnumMore + 1) / 2 ≤ args.blkLnum + args.blk0LnumMore by
        omega)).trans numbers.limit
  ring := by
    show args.qlineSize * (args.blkLnum / 2 + (args.blk0LnumMore + 1) / 2) ≤ args.qorbufSize
    have ring := numbers.ring
    rw [((rings numbers).2 quarters).1]
    exact Nat.mul_le_mul_left _ (by omega)
  oram := ((rings numbers).2 quarters).2
  aligned := by
    show args.qorbufSize % 64 = 0
    rw [((rings numbers).2 quarters).1, Nat.mul_mod, (qlineSize_le numbers).1, Nat.zero_mul]
  total := small

/-- Both kinds of planes are valid, as far as there are any. -/
theorem groups_valid (valid : args.Valid nna answers) (counted : args.desNum = some desNum)
    (qcounted : args.qdesNum = some qdesNum) (placed : args.placed answers = some planes) :
    (args.normalGroup planes desNum).Valid nna ∧ (args.quarterGroup planes qdesNum).Valid nna := by
  have all := valid.planes planes placed
  have visible := nna.visible
  rw [groups, counted, qcounted] at all
  simp only [Option.getD_some, List.mem_cons, List.not_mem_nil, or_false, forall_eq_or_imp,
    forall_eq] at all
  -- What is moved of a plane in memory is less than the memory has.
  have small : ∀ group : PlaneGroup, group.planes ≠ [] →
      (∀ plane ∈ group.planes, group.kind.Valid nna plane) → group.kind.moved < 2 ^ 32 := by
    intro group nonempty planesValid
    obtain ⟨plane, member⟩ := List.exists_mem_of_ne_nil _ nonempty
    have within := (planesValid plane member).within
    simp only [NnaMmap.Holds] at within
    omega
  constructor
  · exact fun nonempty => ⟨kind_fits valid.numbers counted (small ⟨_, _⟩ nonempty all.1), all.1⟩
  · intro nonempty
    refine ⟨qkind_fits valid.numbers ?_ qcounted (small ⟨_, _⟩ nonempty all.2), all.2⟩
    intro none
    exact nonempty (by simp [quarterGroup, quarter, none])

/-- What the first chains have set up. -/
structure Ran (args : IfArgs) (nna : NnaMmap) (planes : List Plane) (desNum qdesNum n : Nat)
    (s : IfState) : Prop where
  names : ∀ x, s.setup.Names x ↔ ∃ k < n, ∃ v,
    ((args.normalGroup planes desNum).Named k v ∨
      k < qdesNum ∧ (args.quarterGroup planes qdesNum).Named k v) ∧
      x + nna.ddrVbase = v + nna.ddrPbase
  fresh : (nna.isDdrCached && !args.bFlushAll) = true → s.setup.Fresh
  flushed : (nna.isDdrCached && !args.bFlushAll) = true → ∀ v,
    Covers s.setup.flushed v ↔ ∃ k < n,
      Reached ((args.kind desNum).regions (normal planes args.qifpNum) k) v ∨
      k < qdesNum ∧ Reached ((args.qkind qdesNum).regions (quarter planes args.qifpNum) k) v
  silent : (nna.isDdrCached && !args.bFlushAll) = false → s.setup.flushed = []
  st : normal planes args.qifpNum ≠ [] → n < desNum → (args.kind desNum).At n s.st
  qst : quarter planes args.qifpNum ≠ [] → n < qdesNum → (args.qkind qdesNum).At n s.qst

variable {n : Nat} {s : IfState}

/-- The descriptors and flushes of a chain: first for the normal planes, then for the others. -/
theorem setup_chain : (args.chain nna planes desNum qdesNum s n).setup =
    let normal := (s.setup.noteEntry nna).planeLoop nna (nna.isDdrCached && !args.bFlushAll)
      (args.qifpNum = 0 || qdesNum ≤ n) s.st
      ((args.normalGroup planes desNum).kind.setSize n s.st) (args.normalGroup planes desNum).planes
    if n < qdesNum then
      normal.planeLoop nna (nna.isDdrCached && !args.bFlushAll) true s.qst
        ((args.quarterGroup planes qdesNum).kind.setSize n s.qst)
        (args.quarterGroup planes qdesNum).planes
    else normal := rfl

/-- A chain names the blocks of the planes of both kinds. -/
theorem names_chain (valid : (args.normalGroup planes desNum).Valid nna)
    (qvalid : (args.quarterGroup planes qdesNum).Valid nna) (below : n < desNum)
    (st : normal planes args.qifpNum ≠ [] → (args.kind desNum).At n s.st)
    (qst : quarter planes args.qifpNum ≠ [] → n < qdesNum → (args.qkind qdesNum).At n s.qst) :
    (args.chain nna planes desNum qdesNum s n).setup.Names x ↔ s.setup.Names x ∨ ∃ v,
      ((args.normalGroup planes desNum).Named n v ∨
        n < qdesNum ∧ (args.quarterGroup planes qdesNum).Named n v) ∧
        x + nna.ddrVbase = v + nna.ddrPbase := by
  rw [setup_chain]
  dsimp only
  -- The last chains may be those of the normal planes alone.
  by_cases quarters : n < qdesNum
  · rw [if_pos quarters, PlaneGroup.names_planeLoop qvalid quarters fun some => qst some quarters,
      PlaneGroup.names_planeLoop valid below st, or_assoc, ← exists_or]
    simp only [quarters, true_and, or_and_right]
    rfl
  · rw [if_neg quarters, PlaneGroup.names_planeLoop valid below st]
    simp only [quarters, false_and, or_false]
    rfl

/-- A chain flushes first bytes of the planes of both kinds. -/
theorem flushed_chain (flushes : (nna.isDdrCached && !args.bFlushAll) = true)
    (valid : (args.normalGroup planes desNum).Valid nna)
    (qvalid : (args.quarterGroup planes qdesNum).Valid nna) (below : n < desNum)
    (st : normal planes args.qifpNum ≠ [] → (args.kind desNum).At n s.st)
    (qst : quarter planes args.qifpNum ≠ [] → n < qdesNum → (args.qkind qdesNum).At n s.qst)
    (fresh : s.setup.Fresh) :
    (args.chain nna planes desNum qdesNum s n).setup.Fresh ∧
      ∀ v, Covers (args.chain nna planes desNum qdesNum s n).setup.flushed v ↔
        Covers s.setup.flushed v ∨
          (Reached ((args.kind desNum).regions (normal planes args.qifpNum) n) v ∨ n < qdesNum ∧
            Reached ((args.qkind qdesNum).regions (quarter planes args.qifpNum) n) v) := by
  rw [setup_chain]
  dsimp only
  rw [flushes]
  obtain ⟨first, sent⟩ := PlaneGroup.flushed_planeLoop (s := s.setup.noteEntry nna)
    (args.qifpNum = 0 || qdesNum ≤ n) valid below st fresh
  -- The quarter planes go second, and then their loop ends the pass.
  by_cases quarters : n < qdesNum
  · obtain ⟨second, qsent⟩ := PlaneGroup.flushed_planeLoop true qvalid quarters
      (fun some => qst some quarters) first
    rw [if_pos quarters]
    refine ⟨second, fun v => (qsent v).trans ?_⟩
    rw [sent, or_assoc]
    simp only [quarters, true_and]
    rfl
  · rw [if_neg quarters]
    refine ⟨first, fun v => (sent v).trans ?_⟩
    simp only [quarters, false_and, or_false]
    rfl

/-- A chain without flushes. -/
theorem silent_chain (silent : (nna.isDdrCached && !args.bFlushAll) = false) :
    (args.chain nna planes desNum qdesNum s n).setup.flushed = s.setup.flushed := by
  rw [setup_chain]
  dsimp only
  rw [silent]
  split
  · rw [PlaneKind.planeLoop_silent, PlaneKind.planeLoop_silent]
    rfl
  · rw [PlaneKind.planeLoop_silent]
    rfl

/-- One more chain. -/
theorem Ran.step (ran : Ran args nna planes desNum qdesNum n s)
    (valid : (args.normalGroup planes desNum).Valid nna)
    (qvalid : (args.quarterGroup planes qdesNum).Valid nna) (below : n < desNum) :
    Ran args nna planes desNum qdesNum (n + 1) (args.chain nna planes desNum qdesNum s n) := by
  have st := fun some => ran.st some below
  have chained := fun flushes =>
    flushed_chain flushes valid qvalid below st ran.qst (ran.fresh flushes)
  refine ⟨fun x => ?_, fun flushes => (chained flushes).1, fun flushes v => ?_, fun silent => ?_,
    ?_, ?_⟩
  · rw [names_chain valid qvalid below st ran.qst, ran.names]
    simp only [Nat.lt_succ_iff_lt_or_eq, or_and_right, exists_or, exists_eq_left]
  · rw [(chained flushes).2, ran.flushed flushes]
    simp only [Nat.lt_succ_iff_lt_or_eq, or_and_right, exists_or, exists_eq_left]
  · rw [silent_chain silent, ran.silent silent]
  · -- The positions of the normal planes move on, and below those of the quarter planes.
    intro some further
    obtain ⟨fits, _⟩ := valid some
    have next := fits.sizeUpdate_at further (st some)
    rw [← (fits.setSize_split below (st some)).1] at next
    have kept : (args.chain nna planes desNum qdesNum s n).st =
        (args.kind desNum).sizeUpdate ((args.kind desNum).setSize n s.st).blockSize s.st :=
      if_neg (by simpa using some)
    rw [kept]
    exact next
  · intro some further
    obtain ⟨fits, _⟩ := qvalid some
    have before := ran.qst some (by omega)
    have next := fits.sizeUpdate_at further before
    rw [← (fits.setSize_split (Nat.lt_of_succ_lt further) before).1] at next
    have quarters : args.qifpNum ≠ 0 := fun none => some (by simp [quarter, none])
    have kept : (args.chain nna planes desNum qdesNum s n).qst =
        (args.qkind qdesNum).sizeUpdate ((args.qkind qdesNum).setSize n s.qst).blockSize s.qst :=
      if_neg quarters
    rw [kept]
    exact next

/-- What all the chains have set up. -/
theorem ran (valid : (args.normalGroup planes desNum).Valid nna)
    (qvalid : (args.quarterGroup planes qdesNum).Valid nna) (upTo : n ≤ desNum) :
    Ran args nna planes desNum qdesNum n ((List.range n).foldl
      (args.chain nna planes desNum qdesNum) ⟨{ desAddr := nna.nndmaDesramVbase }, {}, {}⟩) := by
  induction n with
  | zero =>
    refine ⟨fun x => ?_, fun _ => ⟨rfl, rfl⟩, fun _ v => ?_, fun _ => rfl, ?_, ?_⟩
    · simp [DmaSetup.Names, Covers]
    · simp [Covers]
    · exact fun _ _ => PlaneKind.at_zero
    · exact fun _ _ => PlaneKind.at_zero
  | succ n ih =>
    rw [List.range_succ, List.foldl_append]
    exact (ih (by omega)).step valid qvalid (by omega)

/-- The planes keep their places in the shared memory. -/
theorem placed_ddrPtr (placed : args.placed answers = some planes) :
    planes.map (·.ddrPtr) = args.planes.map (·.ddrPtr) := by
  rw [IfArgs.placed] at placed
  split at placed
  · split at placed
    · cases placed
    · obtain rfl := Option.some.inj placed
      rw [allocated]
      refine List.ext_getElem? fun i => ?_
      rw [List.getElem?_map, List.getElem?_map, List.getElem?_mapIdx, Option.map_map]
      rfl
  · obtain rfl := Option.some.inj placed
    rfl

/-- The two kinds are told apart by the places in the list alone. -/
theorem parts_ddrPtr {others : List Plane} (same : planes.map (·.ddrPtr) = others.map (·.ddrPtr))
    (qifpNum : Nat) :
    (normal planes qifpNum).map (·.ddrPtr) = (normal others qifpNum).map (·.ddrPtr) ∧
      (quarter planes qifpNum).map (·.ddrPtr) = (quarter others qifpNum).map (·.ddrPtr) := by
  have lengths : planes.length = others.length := by simpa using congrArg List.length same
  rw [normal, normal, quarter, quarter, List.map_take, List.map_take, List.map_drop, List.map_drop,
    same, lengths]
  exact ⟨rfl, rfl⟩

/-- A property of both kinds of planes is one of each. -/
theorem exists_group (counted : args.desNum = some desNum) (qcounted : args.qdesNum = some qdesNum)
    {p : PlaneGroup → Prop} : (∃ group ∈ args.groups planes, p group) ↔
      p (args.normalGroup planes desNum) ∨ p (args.quarterGroup planes qdesNum) := by
  simp [groups, counted, qcounted]

/-- A call that returns has run all the chains, and for a large transfer it flushes at the end. -/
theorem returned_ran {result : DmaSetup × Nat} (cached : nna.isDdrCached = true)
    (valid : args.Valid nna answers) (returned : ifD2rboOraset nna answers args = some result) :
    ∃ desNum qdesNum planes s, args.desNum = some desNum ∧ args.qdesNum = some qdesNum ∧
      args.placed answers = some planes ∧ Ran args nna planes desNum qdesNum desNum s ∧
      (result.1 = if args.bFlushAll then
          s.setup.aieFlushcache ((planes.head?.map (·.ddrPtr)).getD 0) args.totalTranferSize
        else s.setup) ∧ ∀ x, result.1.Names x ↔ s.setup.Names x := by
  obtain ⟨desNum, counted, returned⟩ := Option.bind_eq_some_iff.mp returned
  obtain ⟨qdesNum, qcounted, returned⟩ := Option.bind_eq_some_iff.mp returned
  rw [Option.ite_none_right_eq_some] at returned
  obtain ⟨planes, placed, rfl⟩ := Option.map_eq_some_iff.mp returned.2
  obtain ⟨groupValid, qgroupValid⟩ := groups_valid valid counted qcounted placed
  refine ⟨desNum, qdesNum, planes, _, counted, qcounted, placed,
    ran groupValid qgroupValid (Nat.le_refl desNum), by rw [cached, Bool.true_and], fun x => ?_⟩
  split <;> rfl

/-- The call flushes one range, or first bytes of planes. -/
theorem covers_returned {result : DmaSetup × Nat} (cached : nna.isDdrCached = true)
    (valid : args.Valid nna answers) (returned : ifD2rboOraset nna answers args = some result) :
    Covers result.1.flushed v ↔ if args.bFlushAll then
        ∃ plane ∈ args.planes.head?, Holds ⟨plane.ddrPtr, args.totalTranferSize⟩ v
      else ∃ other ∈ args.groups args.planes, other.Flushes v := by
  obtain ⟨desNum, qdesNum, planes, s, counted, qcounted, placed, ran, same, _⟩ :=
    returned_ran cached valid returned
  have ptrs := placed_ddrPtr placed
  rw [same]
  -- `bFlushAll` sends one range behind the chains, which have sent nothing.
  split
  · rename_i all
    have nothing : s.setup.flushed = [] := ran.silent (by simp [all])
    rw [DmaSetup.aieFlushcache, nothing, List.nil_append, covers_cons, ← List.head?_map, ptrs,
      List.head?_map]
    have present := valid.present
    cases first : args.planes with
    | nil => simp [IfArgs.ifpNum, first] at present
    | cons plane rest => simp [covers_nil]
  · rename_i small
    have fewer := qdesNum_le valid.numbers counted qcounted
    rw [ran.flushed (by simp [cached, small])]
    obtain ⟨normals, quarters⟩ := parts_ddrPtr ptrs args.qifpNum
    rw [exists_group counted qcounted,
      ← PlaneGroup.flushes_congr (a := args.normalGroup planes desNum)
        (b := args.normalGroup args.planes desNum) rfl normals,
      ← PlaneGroup.flushes_congr (a := args.quarterGroup planes qdesNum)
        (b := args.quarterGroup args.planes qdesNum) rfl quarters]
    exact exists_chain fewer

/-- A plane of the call is one of the two kinds. -/
theorem plane_group {plane : Plane} (member : plane ∈ planes) (qifpNum : Nat) :
    plane ∈ normal planes qifpNum ∨ plane ∈ quarter planes qifpNum := by
  rw [← List.mem_append, normal, quarter, List.take_append_drop]
  exact member

/-- The addresses that the descriptors name decide whether all of them are flushed. -/
theorem flushed_named {result : DmaSetup × Nat} (cached : nna.isDdrCached = true)
    (valid : args.Valid nna answers) (returned : ifD2rboOraset nna answers args = some result)
    (counted : args.desNum = some desNum) (qcounted : args.qdesNum = some qdesNum)
    (placed : args.placed answers = some planes) :
    result.1.Flushed nna ↔ ∀ v, (∃ k < desNum, (args.normalGroup planes desNum).Named k v ∨
        k < qdesNum ∧ (args.quarterGroup planes qdesNum).Named k v) →
      nna.Maps v ∧ Covers result.1.flushed v := by
  obtain ⟨_, _, _, s, found, qfound, placed', ran, _, names⟩ := returned_ran cached valid returned
  obtain rfl := Option.some.inj (counted.symm.trans found)
  obtain rfl := Option.some.inj (qcounted.symm.trans qfound)
  obtain rfl := Option.some.inj (placed.symm.trans placed')
  obtain ⟨groupValid, qgroupValid⟩ := groups_valid valid counted qcounted placed
  -- The names gathered over the run are those of the chains, one by one.
  refine DmaSetup.flushed_iff _ (fun x => ?_) ?_
  · rw [names, ran.names]
    constructor
    · rintro ⟨k, below, v, named, same⟩
      exact ⟨v, ⟨k, below, named⟩, same⟩
    · rintro ⟨v, ⟨k, below, named⟩, same⟩
      exact ⟨k, below, v, named, same⟩
  · rintro v ⟨k, _, named | ⟨_, named⟩⟩
    · exact PlaneGroup.named_above groupValid named
    · exact PlaneGroup.named_above qgroupValid named

/-- Without lines, the descriptors name bytes that nothing flushes. -/
theorem not_flushed {result : DmaSetup × Nat} (cached : nna.isDdrCached = true)
    (valid : args.Valid nna answers) (returned : ifD2rboOraset nna answers args = some result)
    (none : args.lineSize = 0) : ¬ result.1.Flushed nna := by
  obtain ⟨desNum, qdesNum, planes, s, counted, qcounted, placed, _⟩ :=
    returned_ran cached valid returned
  obtain ⟨groupValid, qgroupValid⟩ := groups_valid valid counted qcounted placed
  have qnone : args.qlineSize = 0 := by
    have := (qlineSize_le valid.numbers).2
    omega
  -- All numbers of bytes are zero, so the call flushes planes and not one range.
  have small : args.bFlushAll = false := by
    rw [bFlushAll, totalTranferSize, orbufSize, qorbufSize, none, qnone]
    simp [l2cSize]
  intro flushed
  have nothing : ∀ v, ¬ Covers result.1.flushed v := by
    intro v
    rw [covers_returned cached valid returned, small, if_neg Bool.false_ne_true,
      exists_group counted qcounted]
    exact not_or.mpr ⟨PlaneGroup.not_flushes none, PlaneGroup.not_flushes qnone⟩
  have all := (flushed_named cached valid returned counted qcounted placed).mp flushed
  obtain ⟨plane, member⟩ : ∃ plane, plane ∈ planes := by
    have lengths := congrArg List.length (placed_ddrPtr placed)
    have present := valid.present
    rw [List.length_map, List.length_map] at lengths
    exact List.exists_mem_of_length_pos (by rw [lengths]; exact present)
  rcases plane_group member args.qifpNum with normal | quarter
  · obtain ⟨fits, _⟩ := groupValid (List.ne_nil_of_mem normal)
    exact nothing _ (all plane.ddrPtr ⟨0, fits.desNum_pos,
      Or.inl (PlaneGroup.named_empty none normal)⟩).2
  · obtain ⟨fits, _⟩ := qgroupValid (List.ne_nil_of_mem quarter)
    have chains : 0 < qdesNum := fits.desNum_pos
    have fewer := qdesNum_le valid.numbers counted qcounted
    exact nothing _ (all plane.ddrPtr ⟨0, by omega,
      Or.inr ⟨chains, PlaneGroup.named_empty qnone quarter⟩⟩).2

/-- The planes tell when all that is transferred is flushed. -/
theorem flushed_iff {result : DmaSetup × Nat} (cached : nna.isDdrCached = true)
    (valid : args.Valid nna answers) (returned : ifD2rboOraset nna answers args = some result) :
    result.1.Flushed nna ↔ args.Suffices := by
  rcases Nat.eq_zero_or_pos args.lineSize with none | some
  · exact iff_of_false (not_flushed cached valid returned none) fun enough => by
      have := enough.1
      omega
  · obtain ⟨desNum, qdesNum, planes, s, counted, qcounted, placed, _⟩ :=
      returned_ran cached valid returned
    obtain ⟨groupValid, qgroupValid⟩ := groups_valid valid counted qcounted placed
    obtain ⟨normals, quarters⟩ := parts_ddrPtr (placed_ddrPtr placed) args.qifpNum
    have fewer := qdesNum_le valid.numbers counted qcounted
    have first := fun v => PlaneGroup.exists_named (v := v) groupValid some
    have second := fun v => PlaneGroup.exists_named (v := v) qgroupValid (qlineSize_pos valid.numbers some)
    -- What the chains name of a plane is all that is moved of it.
    have named : ∀ v, (∃ k < desNum, (args.normalGroup planes desNum).Named k v ∨
        k < qdesNum ∧ (args.quarterGroup planes qdesNum).Named k v) ↔
        ∃ group ∈ args.groups args.planes, group.Moves v := by
      intro v
      rw [exists_group counted qcounted,
        ← PlaneGroup.moves_congr (a := args.normalGroup planes desNum)
          (b := args.normalGroup args.planes desNum) rfl normals,
        ← PlaneGroup.moves_congr (a := args.quarterGroup planes qdesNum)
          (b := args.quarterGroup args.planes qdesNum) rfl quarters, ← first, ← second]
      exact exists_chain fewer
    have maps : ∀ v, (∃ group ∈ args.groups args.planes, group.Moves v) → nna.Maps v := by
      intro v moves
      obtain ⟨k, _, is | ⟨_, is⟩⟩ := (named v).mpr moves
      · exact PlaneGroup.moves_maps groupValid ((first v).mp ⟨k, ‹_›, is⟩)
      · exact PlaneGroup.moves_maps qgroupValid ((second v).mp ⟨k, ‹_›, is⟩)
    rw [flushed_named cached valid returned counted qcounted placed]
    simp only [named, covers_returned cached valid returned]
    constructor
    · exact fun all => ⟨some, fun group member v moves => (all v ⟨group, member, moves⟩).2⟩
    · rintro ⟨_, enough⟩ v ⟨group, member, moves⟩
      exact ⟨maps v ⟨group, member, moves⟩, enough group member v moves⟩

end IfArgs

end Aip
