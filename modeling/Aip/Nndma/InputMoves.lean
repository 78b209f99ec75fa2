import Mathlib.Algebra.Order.BigOperators.Group.List
import Mathlib.Algebra.Order.Ring.Nat
import Aip.Nndma.Channels
import Aip.Nndma.Transfers

/-! What the chains of `if_d2rbo_oraset` move into the on-chip memory. -/

namespace Aip

namespace PlaneKind

/-- A plane and its ring in the memories, both aligned. -/
structure Placed (nna : NnaMmap) (kind : PlaneKind) (plane : Plane) : Prop where
  ddrAligned : plane.ddrPtr % 64 = 0
  orAligned : plane.orPtr % 64 = 0
  maps : nna.Maps plane.ddrPtr
  within : nna.Holds plane.ddrPtr (kind.lineSize * kind.totalLnum)
  oram : nna.InOram plane.orPtr kind.orbufSize

/-- Where a byte of a plane goes: round the ring. -/
def move (kind : PlaneKind) (nna : NnaMmap) (plane : Plane) (y : Nat) : Nat × Nat :=
  (nna.aieGetDdrPaddr plane.ddrPtr + y, nna.aieGetOramOffset plane.orPtr + y % kind.orbufSize)

/-- The bytes of a part, counted from the start of the plane. -/
def Part.bytes (part : Part) : List Nat := (List.range part.size).map (part.done + ·)

/-- A part of a block that one descriptor can move, without going beyond the end of the ring. -/
structure Part.Sound (kind : PlaneKind) (part : Part) : Prop where
  some : 0 < part.size
  units : part.size % 64 = 0 ∧ part.done % 64 = 0 ∧ part.offset % 64 = 0
  limit : part.size ≤ 2 ^ 18
  ring : part.offset + part.size ≤ kind.orbufSize
  plane : part.done + part.size ≤ kind.moved
  place : part.done % kind.orbufSize = part.offset

variable {kind : PlaneKind} {nna : NnaMmap} {plane : Plane} {planes : List Plane} {part : Part}
  {k n : Nat} {last : Bool}

/-- The bytes of a part go to places one behind the other. -/
theorem Part.Sound.places (sound : part.Sound kind) {j : Nat} (within : j < part.size) :
    (part.done + j) % kind.orbufSize = part.offset + j := by
  have ring := sound.ring
  -- The part ends before the ring does.
  rw [← Nat.mod_add_mod, sound.place, Nat.mod_eq_of_lt (by omega)]

/-- The block of a chain consists of parts that descriptors can move. -/
theorem Fits.parts_sound (fits : kind.Fits) (lines : 0 < kind.lineSize) (below : k < kind.desNum)
    (member : part ∈ kind.parts k) : part.Sound kind := by
  obtain ⟨blocks, small⟩ := fits.blockAt_le below
  have some := fits.lines_pos below lines
  have inside := fits.inside below
  have limit := fits.limit
  have aligned := fits.aligned
  have ring := fits.ring
  have offset : kind.offsetAt k % 64 = 0 := (fits.at_stateAt k).aligned
  have done : kind.doneAt k % 64 = 0 := by
    rw [doneAt]
    split
    · rfl
    · rw [Nat.mul_mod, fits.lines, Nat.zero_mul]
  have less : kind.offsetAt k < kind.orbufSize := by
    rcases fits.offsetAt_lt k with less | ⟨_, _, empty⟩ <;> omega
  rw [parts] at member
  by_cases beyond : kind.Straddles k
  · have wide : kind.orbufSize < kind.offsetAt k + kind.blockAt k := beyond
    have before : 0 < kind.orbufSize - kind.offsetAt k ∧
        kind.orbufSize - kind.offsetAt k < kind.blockAt k ∧
        (kind.orbufSize - kind.offsetAt k) % 64 = 0 := by omega
    -- The part up to the end of the ring is a whole number of turns with what is in front of it.
    have turns : (kind.doneAt k + (kind.orbufSize - kind.offsetAt k)) % kind.orbufSize = 0 := by
      have back : kind.offsetAt k + (kind.orbufSize - kind.offsetAt k) = kind.orbufSize := by omega
      rw [← Nat.mod_add_mod, ← offsetAt, back, Nat.mod_self]
    have end_ : kind.offsetAt k + (kind.orbufSize - kind.offsetAt k) ≤ kind.orbufSize := by omega
    generalize kind.orbufSize - kind.offsetAt k = front at *
    rw [if_pos beyond] at member
    simp only [List.mem_cons, List.not_mem_nil, or_false] at member
    rcases member with rfl | rfl
    · exact ⟨before.1, ⟨before.2.2, done, offset⟩, by dsimp only; omega, end_,
        by dsimp only; omega, rfl⟩
    · refine ⟨?_, ?_, ?_, ?_, ?_, turns⟩ <;> dsimp only <;> omega
  · -- The whole block lies in front of the end of the ring.
    have narrow : ¬ kind.orbufSize < kind.offsetAt k + kind.blockAt k := beyond
    rw [if_neg beyond] at member
    obtain rfl := List.mem_singleton.mp member
    exact ⟨some, ⟨blocks, done, offset⟩, by dsimp only; omega, by dsimp only; omega, inside, rfl⟩

/-- The parts are the bytes of the block. -/
theorem Fits.parts_bytes (fits : kind.Fits) (below : k < kind.desNum) :
    (kind.parts k).flatMap Part.bytes = (List.range (kind.blockAt k)).map (kind.doneAt k + ·) := by
  rw [parts]
  by_cases beyond : kind.Straddles k
  · have wide : kind.orbufSize < kind.offsetAt k + kind.blockAt k := beyond
    have less : kind.offsetAt k ≤ kind.orbufSize := (fits.at_stateAt k).ring
    have small := (fits.blockAt_le below).2
    have ring := fits.ring
    -- The part in front of the end of the ring and the part behind it.
    have whole : kind.blockAt k = (kind.orbufSize - kind.offsetAt k) +
        (kind.blockAt k - (kind.orbufSize - kind.offsetAt k)) := by omega
    rw [if_pos beyond, whole, List.range_add, List.map_append, List.map_map, ← whole]
    simp [Part.bytes, Function.comp_def, Nat.add_assoc]
  · -- One part is the block.
    rw [if_neg beyond]
    simp [Part.bytes]

/-- All blocks are the bytes that are moved of a plane. -/
theorem Fits.blocks_bytes (fits : kind.Fits) :
    ((List.range kind.desNum).flatMap fun k => (kind.parts k).flatMap Part.bytes) =
      List.range kind.moved := by
  -- Where each chain begins, and behind the last one the end.
  let start := fun k => if k = kind.desNum then kind.moved else kind.doneAt k
  have some := fits.desNum_pos
  have blocks : ((List.range kind.desNum).flatMap fun k => (kind.parts k).flatMap Part.bytes) =
      (List.range kind.desNum).flatMap fun k =>
        (List.range (kind.blockAt k)).map fun j => id (start k + j) := by
    refine List.flatMap_congr fun k member => ?_
    have below := List.mem_range.mp member
    rw [fits.parts_bytes below, show start k = kind.doneAt k from if_neg (by omega)]
    rfl
  rw [blocks, Pieces.flatMap_pieces id start, show start kind.desNum = kind.moved from if_pos rfl,
    List.map_id]
  · exact (if_neg (by omega)).trans (by simp [doneAt])
  · intro k below
    rw [show start k = kind.doneAt k from if_neg (by omega)]
    -- Each chain begins where the one before it ends.
    by_cases ends : k + 1 = kind.desNum
    · rw [fits.doneAt_last ends]
      exact if_pos ends
    · rw [← doneAt_succ (by omega)]
      exact if_neg ends

/-- When the first block is not longer than a plane, the chains move the plane. -/
theorem Fits.moved_eq (fits : kind.Fits) (short : kind.blkLnum + kind.blk0LnumMore ≤ kind.totalLnum) :
    kind.moved = kind.lineSize * kind.totalLnum := by
  have block := fits.block
  -- With one chain the first block is the plane.
  rw [moved]
  split
  · rename_i one
    congr 1
    rcases chainCount_eq fits.block fits.count with ⟨_, _⟩ | ⟨_, _, high⟩
    · omega
    · rw [one, Nat.one_mul] at high
      omega
  · rfl

/-- What the chains move is bounded by the first block and by the plane. -/
theorem moved_lt (limit : kind.lineSize * (kind.blkLnum + kind.blk0LnumMore) ≤ 2 ^ 18)
    (placed : kind.Placed nna plane) : kind.moved < 2 ^ 32 := by
  have visible := nna.visible
  have within := placed.within
  simp only [NnaMmap.Holds] at within
  -- A first block alone is limited by what one descriptor can move.
  rw [moved]
  split <;> omega

/-- What the descriptor of a part asks for. -/
theorem Placed.asks_part (placed : kind.Placed nna plane) (mapped : nna.Mapped)
    (sound : part.Sound kind) (covers : kind.moved ≤ kind.lineSize * kind.totalLnum) :
    (NndmaDes.decode (part.des nna plane last)).Asks last
      (nna.aieGetDdrPaddr plane.ddrPtr + part.done)
      (nna.aieGetOramOffset plane.orPtr + part.offset) part.size := by
  have some := sound.some
  have inside := sound.plane
  have within := placed.within
  have maps := placed.maps
  have ring := sound.ring
  -- A part begins inside the plane, where the memory is mapped.
  have behind : nna.Maps (plane.ddrPtr + part.done) := by
    simp only [NnaMmap.Maps, NnaMmap.Holds] at maps within ⊢
    omega
  have asks := nna.asks_node last part.size mapped maps behind placed.oram
    (show part.offset ≤ kind.orbufSize by omega) ⟨placed.ddrAligned, sound.units.2.1⟩
    ⟨placed.orAligned, sound.units.2.2⟩
  rwa [nodeBytes_eq sound.units.1 sound.limit, if_neg (by omega)] at asks

/-- The descriptor of a part moves its bytes, each round the ring. -/
theorem Placed.moves_part (placed : kind.Placed nna plane) (mapped : nna.Mapped)
    (sound : part.Sound kind) (covers : kind.moved ≤ kind.lineSize * kind.totalLnum) :
    (NndmaDes.decode (part.des nna plane last)).moves = part.bytes.map (kind.move nna plane) := by
  have asks : (NndmaDes.decode (part.des nna plane last)).Asks last _ _ _ :=
    placed.asks_part mapped sound covers
  -- Byte by byte, both addresses go up together.
  rw [NndmaDes.moves, asks.size, asks.ddr, asks.oram, Part.bytes, List.map_map]
  refine List.map_congr_left fun j member => ?_
  rw [Function.comp_apply, move, sound.places (List.mem_range.mp member), Nat.add_assoc,
    Nat.add_assoc]

/-- The descriptors of a block move its bytes. -/
theorem Placed.moves_block (placed : kind.Placed nna plane) (mapped : nna.Mapped) (fits : kind.Fits)
    (lines : 0 < kind.lineSize) (covers : kind.moved ≤ kind.lineSize * kind.totalLnum)
    (below : k < kind.desNum) :
    ((kind.planeDes nna k last plane).flatMap fun des => (NndmaDes.decode des).moves) =
      ((kind.parts k).flatMap Part.bytes).map (kind.move nna plane) := by
  -- Whether a part is the last one does not matter for what it moves.
  have parts : (kind.parts k).flatMap Part.bytes =
      (kind.parts k).zipIdx.flatMap fun part => part.1.bytes := by
    conv_lhs => rw [← List.zipIdx_map_fst 0 (kind.parts k)]
    rw [List.flatMap_map]
  rw [parts, planeDes, List.flatMap_map, List.map_flatMap]
  refine List.flatMap_congr fun part member => ?_
  exact placed.moves_part mapped (fits.parts_sound lines below (List.fst_mem_of_mem_zipIdx member))
    covers

/-- A first block of empty lines, or one that is longer than the plane, moves more than the plane. -/
theorem Placed.first_block (placed : kind.Placed nna plane) (mapped : nna.Mapped)
    (fits : kind.Fits)
    (wrong : kind.lineSize = 0 ∨ kind.totalLnum < kind.blkLnum + kind.blk0LnumMore) :
    kind.lineSize * kind.totalLnum <
      ((kind.planeDes nna 0 last plane).flatMap fun des => (NndmaDes.decode des).moves).length := by
  have block : kind.blockAt 0 = kind.lineSize * (kind.blkLnum + kind.blk0LnumMore) := if_pos rfl
  have narrow : ¬ kind.Straddles 0 := by
    have ring := fits.ring
    simp only [Straddles, offsetAt, doneAt, block]
    simp only [if_true, Nat.zero_mod, Nat.zero_add]
    omega
  have limit := fits.limit
  have whole : kind.blockAt 0 % 64 = 0 := (fits.blockAt_le fits.desNum_pos).1
  -- The block is one part, at the start of the ring.
  have parts : kind.parts 0 = [⟨0, 0, kind.blockAt 0⟩] := by
    rw [PlaneKind.parts, if_neg narrow]
    simp [doneAt, offsetAt]
  have size := (nna.asks_node last (kind.blockAt 0) mapped placed.maps (n := 0) placed.maps
    placed.oram (Nat.zero_le _) ⟨placed.ddrAligned, rfl⟩ ⟨placed.orAligned, rfl⟩).size
  have bytes : ((kind.planeDes nna 0 last plane).flatMap fun des =>
      (NndmaDes.decode des).moves).length = nodeBytes (kind.blockAt 0) := by
    rw [planeDes, parts]
    simp only [List.zipIdx_singleton, List.map_singleton, List.flatMap_singleton, NndmaDes.moves,
      List.length_map, List.length_range, List.length_singleton]
    simpa [Part.des] using size
  rw [bytes, nodeBytes_eq whole (by omega), block]
  rcases Nat.eq_zero_or_pos kind.lineSize with none | some
  · rw [none, Nat.zero_mul, Nat.zero_mul, if_pos rfl]
    decide
  · have longer : kind.totalLnum < kind.blkLnum + kind.blk0LnumMore :=
      wrong.resolve_left (by omega)
    have more := Nat.mul_lt_mul_of_pos_left longer some
    rw [if_neg (by omega)]
    exact more

/-- The descriptors of a block link on, and the last one of the chain does not. -/
theorem Placed.links_block (placed : kind.Placed nna plane) (mapped : nna.Mapped) (fits : kind.Fits)
    (lines : 0 < kind.lineSize) (covers : kind.moved ≤ kind.lineSize * kind.totalLnum)
    (below : k < kind.desNum) :
    NndmaDes.Linked (kind.planeDes nna k false plane) ∧
      NndmaDes.Ends (kind.planeDes nna k true plane) := by
  have link : ∀ part ∈ kind.parts k, ∀ last,
      (NndmaDes.decode (part.des nna plane last)).linkFlag = if last then 0 else 1 :=
    fun part member last =>
      (placed.asks_part mapped (fits.parts_sound lines below member) covers).link
  -- A block is one part, or two where it goes round the ring.
  have shape : (∃ only, kind.parts k = [only]) ∨ ∃ front back, kind.parts k = [front, back] := by
    rw [parts]
    split
    · exact Or.inr ⟨_, _, rfl⟩
    · exact Or.inl ⟨_, rfl⟩
  rw [planeDes, planeDes]
  rcases shape with ⟨only, all⟩ | ⟨front, back, all⟩
  · rw [all] at link ⊢
    exact ⟨fun des member => List.mem_singleton.mp member ▸ link only (by simp) false,
      [], _, rfl, by simp [NndmaDes.Linked], link only (by simp) true⟩
  · -- The part up to the end of the ring never ends a chain.
    rw [all] at link ⊢
    have first : NndmaDes.Linked [front.des nna plane false] := fun des member =>
      List.mem_singleton.mp member ▸ link front (by simp) false
    have second : NndmaDes.Linked [back.des nna plane false] := fun des member =>
      List.mem_singleton.mp member ▸ link back (by simp) false
    exact ⟨first.append second, _, _, rfl, first, link back (by simp) true⟩

/-- The loop over the planes deals out their blocks. -/
theorem Fits.loopDes_eq (fits : kind.Fits) (below : k < kind.desNum) :
    DmaSetup.loopDes nna last (kind.stepped k) (kind.setSize k (kind.stepped k)) planes =
      (List.range planes.length).flatMap fun i => planes[i]?.toList.flatMap fun plane =>
        kind.planeDes nna k (i + 1 == planes.length && last) plane := by
  -- The first plane is taken off, and the others move up by one.
  induction planes with
  | nil => rfl
  | cons plane rest ih =>
    rw [DmaSetup.loopDes, ih, List.length_cons, List.range_succ_eq_map, List.flatMap_cons,
      List.flatMap_map, fits.stepped_eq below, fits.genDes_eq below]
    congr 1
    · cases rest <;> simp
    · refine List.flatMap_congr fun i _ => ?_
      simp

/-- The loop over the planes links on, and it ends a chain with its last plane. -/
theorem Fits.links_loopDes (fits : kind.Fits) (lines : 0 < kind.lineSize)
    (covers : kind.moved ≤ kind.lineSize * kind.totalLnum) (below : k < kind.desNum)
    (mapped : nna.Mapped) (placed : ∀ plane ∈ planes, kind.Placed nna plane) (last : Bool) :
    (last = false → NndmaDes.Linked (DmaSetup.loopDes nna last (kind.stepped k)
      (kind.setSize k (kind.stepped k)) planes)) ∧
    (last = true → planes ≠ [] → NndmaDes.Ends (DmaSetup.loopDes nna last (kind.stepped k)
      (kind.setSize k (kind.stepped k)) planes)) := by
  -- Only the last plane may end the chain, so the others link on.
  induction planes with
  | nil =>
    exact ⟨fun _ des member => absurd member (List.not_mem_nil), fun _ some => absurd rfl some⟩
  | cons plane rest ih =>
    obtain ⟨linked, ends⟩ := (placed plane (by simp)).links_block mapped fits lines covers below
    obtain ⟨first, second⟩ := ih fun other member => placed other (by simp [member])
    rw [DmaSetup.loopDes, fits.stepped_eq below, fits.genDes_eq below, ← fits.stepped_eq below]
    refine ⟨?_, ?_⟩
    · rintro rfl
      rw [Bool.and_false]
      exact linked.append (first rfl)
    · rintro rfl _
      rw [Bool.and_true]
      cases rest with
      | nil => simpa [DmaSetup.loopDes] using ends
      | cons other others => exact linked.append_ends (second rfl (List.cons_ne_nil _ _))

end PlaneKind

namespace IfArgs

/-- The numbers of the kind that a plane is of. -/
def kindOf (args : IfArgs) (iFp : Nat) : PlaneKind :=
  if iFp < args.ifpNum - args.qifpNum then args.kind (args.desNum.getD 0)
  else args.qkind (args.qdesNum.getD 0)

/--
Arguments that pass the checks of a build with `__AIE_VALID_CHECK__`, with rings in which the
largest block has room, and with planes and rings that are in the memories.
-/
structure Accepted (nna : NnaMmap) (answers : DmaAnswers) (args : IfArgs) : Prop
    extends args.Numbers where
  total : 0 < args.totalLnum
  mapped : nna.Mapped
  planes : ∀ planes, args.placed answers = some planes → ∀ (iFp : Nat) (plane : Plane),
    planes[iFp]? = some plane → (args.kindOf iFp).Placed nna plane

/-- The lines are not empty, and the first block is not longer than a plane. -/
def Suits (args : IfArgs) : Prop :=
  0 < args.lineSize ∧ args.blkLnum + args.blk0LnumMore ≤ args.totalLnum

/--
The descriptors are dealt out by chain and by plane: those of a plane move each of its bytes once
and in order, round its ring, and each chain ends with the only descriptor that does not link to the
next one. The entry of a chain is its first descriptor.
-/
structure MovesOnce (args : IfArgs) (nna : NnaMmap) (planes : List Plane)
    (result : DmaSetup × Nat) (dealt : Nat → Nat → List (Nat × Nat)) : Prop where
  des : result.1.des = (List.range result.1.desEntry.length).flatMap fun k =>
    (List.range args.ifpNum).flatMap (dealt k)
  plane : ∀ (iFp : Nat) (plane : Plane), planes[iFp]? = some plane →
    ((List.range result.1.desEntry.length).flatMap fun k =>
      (dealt k iFp).flatMap fun des => (NndmaDes.decode des).moves) =
    (List.range ((args.kindOf iFp).lineSize * (args.kindOf iFp).totalLnum)).map
      ((args.kindOf iFp).move nna plane)
  chain : ∀ k < result.2, NndmaDes.Ends ((List.range args.ifpNum).flatMap (dealt k))
  entry : ∀ k < result.2, ∃ entry, result.1.desEntry[k]? = some entry ∧ result.1.PointsTo nna entry
    ((List.range k).flatMap fun k => (List.range args.ifpNum).flatMap (dealt k)).length

/-- The descriptors that a chain has for a plane. -/
def dealt (args : IfArgs) (nna : NnaMmap) (planes : List Plane) (desNum qdesNum k iFp : Nat) :
    List (Nat × Nat) :=
  planes[iFp]?.toList.flatMap fun plane =>
    if iFp < args.ifpNum - args.qifpNum then
      (args.kind desNum).planeDes nna k
        (iFp + 1 == args.ifpNum - args.qifpNum && (args.qifpNum = 0 || qdesNum ≤ k)) plane
    else if k < qdesNum then (args.qkind qdesNum).planeDes nna k (iFp + 1 == args.ifpNum) plane
    else []

variable {nna : NnaMmap} {answers : DmaAnswers} {args : IfArgs} {planes : List Plane}
  {desNum qdesNum k : Nat}

/-- As many planes are placed as are given. -/
theorem length_placed (placed : args.placed answers = some planes) :
    planes.length = args.ifpNum := by
  simpa [ifpNum] using congrArg List.length (placed_ddrPtr placed)

/-- Every plane of a call is in the memories, with its ring. -/
theorem Accepted.plane (accepted : args.Accepted nna answers)
    (placed : args.placed answers = some planes) {iFp : Nat} (below : iFp < args.ifpNum) :
    ∃ plane, planes[iFp]? = some plane ∧ (args.kindOf iFp).Placed nna plane := by
  have less : iFp < planes.length := by
    rw [length_placed placed]
    exact below
  exact ⟨_, List.getElem?_eq_getElem less, accepted.planes planes placed iFp _
    (List.getElem?_eq_getElem less)⟩

/-- The first planes are the normal ones. -/
theorem kindOf_normal {iFp : Nat} (counted : args.desNum = some desNum)
    (normal : iFp < args.ifpNum - args.qifpNum) : args.kindOf iFp = args.kind desNum := by
  rw [kindOf, if_pos normal, counted, Option.getD_some]

/-- The others are the quarter planes. -/
theorem kindOf_quarter {iFp : Nat} (counted : args.qdesNum = some qdesNum)
    (quarter : ¬ iFp < args.ifpNum - args.qifpNum) : args.kindOf iFp = args.qkind qdesNum := by
  rw [kindOf, if_neg quarter, counted, Option.getD_some]

/-- The numbers of the normal planes fit, if there are any. -/
theorem Accepted.fits (accepted : args.Accepted nna answers)
    (placed : args.placed answers = some planes) (counted : args.desNum = some desNum)
    (some : 0 < args.ifpNum - args.qifpNum) : (args.kind desNum).Fits := by
  obtain ⟨plane, _, here⟩ := accepted.plane placed (show 0 < args.ifpNum by omega)
  rw [kindOf_normal counted some] at here
  exact kind_fits accepted.toNumbers counted (PlaneKind.moved_lt accepted.limit here)

/-- The numbers of the quarter planes fit, if there are any. -/
theorem Accepted.qfits (accepted : args.Accepted nna answers)
    (placed : args.placed answers = some planes) (counted : args.qdesNum = some qdesNum)
    (quarters : args.qifpNum ≠ 0) : (args.qkind qdesNum).Fits := by
  have block := accepted.block
  have fewer := accepted.quarters
  obtain ⟨plane, _, here⟩ := accepted.plane placed
    (show args.ifpNum - args.qifpNum < args.ifpNum by omega)
  rw [kindOf_quarter counted (by omega)] at here
  -- A quarter of the first block is not longer than the first block.
  have limit := (Nat.mul_le_mul (qlineSize_le accepted.toNumbers).2
    (show args.blkLnum / 2 + (args.blk0LnumMore + 1) / 2 ≤ args.blkLnum + args.blk0LnumMore by
      omega)).trans accepted.limit
  exact qkind_fits accepted.toNumbers quarters counted (PlaneKind.moved_lt limit here)

/-- A chain is what its planes have been dealt. -/
theorem Accepted.chainDes_eq (accepted : args.Accepted nna answers)
    (placed : args.placed answers = some planes) (counted : args.desNum = some desNum)
    (qcounted : args.qdesNum = some qdesNum) (below : k < desNum) :
    args.chainDes nna planes desNum qdesNum k =
      (List.range args.ifpNum).flatMap (args.dealt nna planes desNum qdesNum k) := by
  have length := length_placed placed
  have fewer := accepted.quarters
  have split : args.ifpNum = (args.ifpNum - args.qifpNum) + args.qifpNum := by omega
  have normals : (normal planes args.qifpNum).length = args.ifpNum - args.qifpNum := by
    rw [normal, List.length_take, length]
    omega
  have quarters : (quarter planes args.qifpNum).length = args.qifpNum := by
    rw [quarter, List.length_drop, length]
    omega
  rw [chainDes, split, List.range_add, List.flatMap_append, List.flatMap_map]
  congr 1
  · -- The normal planes come first.
    rcases Nat.eq_zero_or_pos (args.ifpNum - args.qifpNum) with none | some
    · rw [List.length_eq_zero_iff.mp (normals.trans none), none]
      rfl
    · rw [(accepted.fits placed counted some).loopDes_eq below, normals]
      refine List.flatMap_congr fun iFp member => ?_
      have less := List.mem_range.mp member
      rw [normal, List.getElem?_take, length, if_pos less, dealt]
      simp only [if_pos less]
  · split
    · rename_i takes
      have some : args.qifpNum ≠ 0 := by
        rintro none
        rw [IfArgs.qdesNum, if_pos none] at qcounted
        cases qcounted
        omega
      rw [(accepted.qfits placed qcounted some).loopDes_eq takes, quarters]
      refine List.flatMap_congr fun iFp member => ?_
      have less := List.mem_range.mp member
      rw [quarter, List.getElem?_drop, length, dealt]
      simp only [if_neg (show ¬ args.ifpNum - args.qifpNum + iFp < args.ifpNum - args.qifpNum by
        omega), if_pos takes]
      refine List.flatMap_congr fun plane _ => ?_
      congr 1
      rw [Bool.and_true, Bool.eq_iff_iff, beq_iff_eq, beq_iff_eq]
      omega
    · rename_i passed
      -- In the chains that have no quarter planes they are dealt nothing.
      refine (List.flatMap_eq_nil_iff.mpr fun iFp _ => ?_).symm
      rw [dealt]
      simp only [if_neg (show ¬ args.ifpNum - args.qifpNum + iFp < args.ifpNum - args.qifpNum by
        omega), if_neg passed]
      exact List.flatMap_eq_nil_iff.mpr fun _ _ => rfl

/-- The first block of a quarter plane is not longer than the plane, either. -/
theorem Suits.quarter (suits : args.Suits) (numbers : args.Numbers) (quarters : args.qifpNum ≠ 0)
    (qdesNum : Nat) : 0 < args.qlineSize ∧
      (args.qkind qdesNum).blkLnum + (args.qkind qdesNum).blk0LnumMore ≤
        (args.qkind qdesNum).totalLnum := by
  -- Even numbers of lines are halved without a rest.
  have even := numbers.even quarters
  have short := suits.2
  refine ⟨qlineSize_pos numbers suits.1, ?_⟩
  show args.blkLnum / 2 + (args.blk0LnumMore + 1) / 2 ≤ args.totalLnum / 2
  omega

/-- What a plane has been dealt moves each of its bytes once. -/
theorem Accepted.moves_plane (accepted : args.Accepted nna answers) (suits : args.Suits)
    (placed : args.placed answers = some planes) (counted : args.desNum = some desNum)
    (qcounted : args.qdesNum = some qdesNum) {iFp : Nat} {plane : Plane}
    (here : planes[iFp]? = some plane) :
    ((List.range desNum).flatMap fun k =>
      (args.dealt nna planes desNum qdesNum k iFp).flatMap fun des => (NndmaDes.decode des).moves) =
    (List.range ((args.kindOf iFp).lineSize * (args.kindOf iFp).totalLnum)).map
      ((args.kindOf iFp).move nna plane) := by
  have valid := accepted.planes planes placed iFp plane here
  have less := (List.getElem?_eq_some_iff.mp here).1
  rw [length_placed placed] at less
  by_cases normal : iFp < args.ifpNum - args.qifpNum
  · rw [kindOf_normal counted normal] at valid ⊢
    -- A normal plane is dealt a block by every chain.
    have fits := accepted.fits placed counted (by omega)
    have whole := fits.moved_eq suits.2
    rw [← whole, ← fits.blocks_bytes, List.map_flatMap]
    refine List.flatMap_congr fun k member => ?_
    rw [dealt, here]
    simp only [if_pos normal, Option.toList_some, List.flatMap_singleton]
    exact valid.moves_block accepted.mapped fits suits.1 (Nat.le_of_eq whole)
      (List.mem_range.mp member)
  · have quarters : args.qifpNum ≠ 0 := by omega
    have fewer := qdesNum_le accepted.toNumbers counted qcounted
    rw [kindOf_quarter qcounted normal] at valid ⊢
    have fits := accepted.qfits placed qcounted quarters
    obtain ⟨lines, short⟩ := suits.quarter accepted.toNumbers quarters qdesNum
    have whole := fits.moved_eq short
    have split : desNum = qdesNum + (desNum - qdesNum) := by omega
    rw [← whole, ← fits.blocks_bytes, List.map_flatMap, split, List.range_add,
      List.flatMap_append, List.flatMap_map]
    -- Behind the chains of the quarter planes nothing more is moved of them.
    have rest : ((List.range (desNum - qdesNum)).flatMap fun k =>
        (args.dealt nna planes (qdesNum + (desNum - qdesNum)) qdesNum (qdesNum + k) iFp).flatMap
          fun des => (NndmaDes.decode des).moves) = [] := by
      refine List.flatMap_eq_nil_iff.mpr fun k _ => ?_
      rw [dealt, here]
      simp only [if_neg normal, if_neg (show ¬ qdesNum + k < qdesNum by omega),
        Option.toList_some, List.flatMap_singleton, List.flatMap_nil]
    rw [rest, List.append_nil]
    refine List.flatMap_congr fun k member => ?_
    rw [dealt, here]
    simp only [if_neg normal, if_pos (List.mem_range.mp member), Option.toList_some,
      List.flatMap_singleton]
    exact valid.moves_block accepted.mapped fits lines (Nat.le_of_eq whole)
      (List.mem_range.mp member)

/-- The planes of the first loop are in the memories. -/
theorem Accepted.normal_placed (accepted : args.Accepted nna answers)
    (placed : args.placed answers = some planes) (counted : args.desNum = some desNum) :
    ∀ plane ∈ normal planes args.qifpNum, (args.kind desNum).Placed nna plane := by
  intro plane member
  -- Its place in the list says which planes are the first ones.
  obtain ⟨iFp, found⟩ := List.mem_iff_getElem?.mp member
  rw [normal, List.getElem?_take, length_placed placed] at found
  split at found
  · rename_i less
    rw [← kindOf_normal counted less]
    exact accepted.planes planes placed iFp plane found
  · cases found

/-- The planes of the second loop are in the memories. -/
theorem Accepted.quarter_placed (accepted : args.Accepted nna answers)
    (placed : args.placed answers = some planes) (counted : args.qdesNum = some qdesNum) :
    ∀ plane ∈ quarter planes args.qifpNum, (args.qkind qdesNum).Placed nna plane := by
  intro plane member
  -- The quarter planes are behind all the others.
  obtain ⟨iFp, found⟩ := List.mem_iff_getElem?.mp member
  rw [quarter, List.getElem?_drop, length_placed placed] at found
  have behind : ¬ args.ifpNum - args.qifpNum + iFp < args.ifpNum - args.qifpNum := by omega
  rw [← kindOf_quarter counted behind]
  exact accepted.planes planes placed _ plane found

/-- A chain that has descriptors ends with the only one that does not link on. -/
theorem Accepted.ends_chain (accepted : args.Accepted nna answers) (suits : args.Suits)
    (placed : args.placed answers = some planes) (counted : args.desNum = some desNum)
    (qcounted : args.qdesNum = some qdesNum) (below : k < desNum)
    (some : 0 < args.ifpNum - args.qifpNum ∨ k < qdesNum) :
    NndmaDes.Ends (args.chainDes nna planes desNum qdesNum k) := by
  have length := length_placed placed
  have fewer := accepted.quarters
  have normals : (normal planes args.qifpNum).length = args.ifpNum - args.qifpNum := by
    rw [normal, List.length_take, length]
    omega
  have links := fun least last => (accepted.fits placed counted least).links_loopDes suits.1
    (Nat.le_of_eq ((accepted.fits placed counted least).moved_eq suits.2)) below accepted.mapped
    (accepted.normal_placed placed counted) last
  rw [chainDes]
  by_cases takes : k < qdesNum
  · -- The quarter planes end the chain, and the normal planes in front of them link on.
    have quarters : args.qifpNum ≠ 0 := by
      rintro none
      rw [IfArgs.qdesNum, if_pos none] at qcounted
      cases qcounted
      omega
    have more : quarter planes args.qifpNum ≠ [] := by
      rw [quarter, Ne, List.drop_eq_nil_iff, length]
      omega
    obtain ⟨lines, short⟩ := suits.quarter accepted.toNumbers quarters qdesNum
    have fits := accepted.qfits placed qcounted quarters
    have flag : (decide (args.qifpNum = 0) || decide (qdesNum ≤ k)) = false := by
      simp only [Bool.or_eq_false_iff, decide_eq_false_iff_not]
      omega
    rw [if_pos takes, flag]
    refine NndmaDes.Linked.append_ends ?_ ((fits.links_loopDes lines
      (Nat.le_of_eq (fits.moved_eq short)) takes accepted.mapped
      (accepted.quarter_placed placed qcounted) true).2 rfl more)
    rcases Nat.eq_zero_or_pos (args.ifpNum - args.qifpNum) with none | least
    · rw [List.length_eq_zero_iff.mp (normals.trans none)]
      exact fun des member => absurd member List.not_mem_nil
    · exact (links least false).1 rfl
  · -- Without quarter planes the last normal plane ends the chain.
    have least : 0 < args.ifpNum - args.qifpNum := some.resolve_right takes
    have flag : (decide (args.qifpNum = 0) || decide (qdesNum ≤ k)) = true := by
      simp only [Bool.or_eq_true, decide_eq_true_eq]
      omega
    rw [if_neg takes, List.append_nil, flag]
    exact (links least true).2 rfl (List.ne_nil_of_length_pos (by omega))

/-- In all, the planes of a call have been dealt their own bytes. -/
theorem MovesOnce.count {result : DmaSetup × Nat} {dealt : Nat → Nat → List (Nat × Nat)}
    (moves : args.MovesOnce nna planes result dealt) (length : planes.length = args.ifpNum) :
    (result.1.des.flatMap fun des => (NndmaDes.decode des).moves).length =
      ((List.range args.ifpNum).map fun iFp =>
        (args.kindOf iFp).lineSize * (args.kindOf iFp).totalLnum).sum := by
  rw [moves.des, List.flatMap_assoc]
  simp only [List.flatMap_assoc]
  -- Counted plane by plane, in place of chain by chain.
  rw [(Pieces.flatMap_perm _ _ _).length_eq, List.length_flatMap]
  refine congrArg List.sum (List.map_congr_left fun iFp member => ?_)
  have less : iFp < planes.length := by
    rw [length]
    exact List.mem_range.mp member
  rw [moves.plane iFp _ (List.getElem?_eq_getElem less)]
  simp

/-- The first chain alone moves more than the planes have, if the first block does not suit. -/
theorem Accepted.first_chain (accepted : args.Accepted nna answers) (wrong : ¬ args.Suits)
    (placed : args.placed answers = some planes) (counted : args.desNum = some desNum)
    (qcounted : args.qdesNum = some qdesNum) {iFp : Nat} (below : iFp < args.ifpNum) :
    (args.kindOf iFp).lineSize * (args.kindOf iFp).totalLnum <
      ((args.dealt nna planes desNum qdesNum 0 iFp).flatMap fun des =>
        (NndmaDes.decode des).moves).length := by
  have block : args.lineSize = 0 ∨ args.totalLnum < args.blkLnum + args.blk0LnumMore := by
    rw [Suits] at wrong
    omega
  obtain ⟨plane, here, valid⟩ := accepted.plane placed below
  -- The first chain has a block of every plane, and the quarter planes are as wrong.
  by_cases normal : iFp < args.ifpNum - args.qifpNum
  · rw [kindOf_normal counted normal] at valid ⊢
    rw [dealt, here]
    simp only [if_pos normal, Option.toList_some, List.flatMap_singleton]
    exact valid.first_block accepted.mapped (accepted.fits placed counted (by omega)) block
  · -- The numbers of a quarter plane are halves, and as far apart.
    have quarters : args.qifpNum ≠ 0 := by omega
    have even := accepted.even quarters
    rw [kindOf_quarter qcounted normal] at valid ⊢
    have fits := accepted.qfits placed qcounted quarters
    have chains : 0 < qdesNum := fits.desNum_pos
    have short := (qlineSize_le accepted.toNumbers).2
    rw [dealt, here]
    simp only [if_neg normal, if_pos chains, Option.toList_some, List.flatMap_singleton]
    refine valid.first_block accepted.mapped fits (block.imp (fun none => ?_) fun longer => ?_)
    · show args.qlineSize = 0
      omega
    · show args.totalLnum / 2 < args.blkLnum / 2 + (args.blk0LnumMore + 1) / 2
      omega

/--
A call that returns moves each byte of its planes once, round their rings, just when its lines are
not empty and its first block is not longer than a plane.
-/
theorem movesOnce_iff {result : DmaSetup × Nat} (accepted : args.Accepted nna answers)
    (returned : ifD2rboOraset nna answers args = some result)
    (placed : args.placed answers = some planes) :
    (∃ dealt, args.MovesOnce nna planes result dealt) ↔ args.Suits := by
  obtain ⟨desNum, qdesNum, _, counted, qcounted, found, chained, number⟩ := returned_chained returned
  obtain rfl := Option.some.inj (placed.symm.trans found)
  have length := length_placed placed
  have present := accepted.present
  have fewer := qdesNum_le accepted.toNumbers counted qcounted
  have chain : ∀ k ∈ List.range desNum, args.chainDes nna planes desNum qdesNum k =
      (List.range args.ifpNum).flatMap (args.dealt nna planes desNum qdesNum k) := fun k member =>
    accepted.chainDes_eq placed counted qcounted (List.mem_range.mp member)
  have des := chained.des.trans (List.flatMap_congr chain)
  constructor
  · rintro ⟨dealt, moves⟩
    by_contra wrong
    have some : 0 < desNum := by
      rcases PlaneKind.chainCount_eq accepted.block counted with ⟨_, one⟩ | ⟨some, _⟩ <;> omega
    -- The first chain is a part of what has been written.
    have part : (((List.range args.ifpNum).flatMap (args.dealt nna planes desNum qdesNum 0)).flatMap
        fun des => (NndmaDes.decode des).moves).length ≤
        (result.1.des.flatMap fun des => (NndmaDes.decode des).moves).length := by
      rw [des, show desNum = desNum - 1 + 1 by omega, List.range_succ_eq_map, List.flatMap_cons,
        List.flatMap_append, List.length_append]
      exact Nat.le_add_right _ _
    have more := List.sum_lt_sum_of_ne_nil (l := List.range args.ifpNum)
      (List.ne_nil_of_length_pos (by rw [List.length_range]; exact present)) _ _
      fun iFp member => accepted.first_chain wrong placed counted qcounted
        (List.mem_range.mp member)
    rw [moves.count length, List.flatMap_assoc, List.length_flatMap] at part
    omega
  · intro suits
    -- A chain that is counted has a plane taking part in it.
    have all : ∀ k < result.2, k < desNum ∧ (0 < args.ifpNum - args.qifpNum ∨ k < qdesNum) := by
      intro k below
      rw [number] at below
      split at below <;> omega
    have begins : nna.nndmaDesramVbase % 2 ^ 32 =
        (nna.nndmaDesramVbase + DesramArea.input.base) % 2 ^ 32 := rfl
    refine ⟨args.dealt nna planes desNum qdesNum, ?_, fun iFp plane here => ?_, fun k below => ?_,
      fun k below => ?_⟩
    · rw [chained.count]
      exact des
    · rw [chained.count]
      exact accepted.moves_plane suits placed counted qcounted here
    · obtain ⟨inner, some⟩ := all k below
      rw [← chain k (List.mem_range.mpr inner)]
      exact accepted.ends_chain suits placed counted qcounted inner some
    · obtain ⟨entry, noted, points⟩ := chained.entry begins accepted.mapped.desram (all k below).1
      refine ⟨entry, noted, ?_⟩
      have front : (List.range k).flatMap (args.chainDes nna planes desNum qdesNum) =
          (List.range k).flatMap fun k =>
            (List.range args.ifpNum).flatMap (args.dealt nna planes desNum qdesNum k) :=
        List.flatMap_congr fun i member => chain i (List.mem_range.mpr
          (Nat.lt_trans (List.mem_range.mp member) (all k below).1))
      rw [← front]
      exact points

/-- Ten lines in blocks of two with one more in front, and a quarter plane, both round their rings. -/
theorem movesOnce_ten : ∃ result, ifD2rboOraset DmaCall.sampleMmap DmaCall.sampleAnswers
    ⟨false, 128, 2, 1, 6, 10, 1, [⟨0x40000000, 0x30000000⟩, ⟨0x40001000, 0x30001000⟩]⟩ =
      some result ∧ ∃ dealt,
    (⟨false, 128, 2, 1, 6, 10, 1, [⟨0x40000000, 0x30000000⟩, ⟨0x40001000, 0x30001000⟩]⟩ :
      IfArgs).MovesOnce DmaCall.sampleMmap [⟨0x40000000, 0x30000000⟩, ⟨0x40001000, 0x30001000⟩]
        result dealt := by
  -- The ring has six lines, which the first block and three more go beyond.
  have accepted : (⟨false, 128, 2, 1, 6, 10, 1,
      [⟨0x40000000, 0x30000000⟩, ⟨0x40001000, 0x30001000⟩]⟩ : IfArgs).Accepted DmaCall.sampleMmap
      DmaCall.sampleAnswers := by
    refine ⟨⟨rfl, by decide, by decide, by decide, fun _ => by decide, by decide, by decide,
      by decide⟩, by decide, ⟨rfl, by decide⟩, ?_⟩
    intro planes placed iFp plane here
    obtain rfl := Option.some.inj placed
    rcases iFp with _ | _ | iFp
    · obtain rfl := Option.some.inj here
      exact ⟨rfl, rfl, by decide, by decide, by decide⟩
    · obtain rfl := Option.some.inj here
      exact ⟨rfl, rfl, by decide, by decide, by decide⟩
    · cases here
  exact ⟨_, rfl, (movesOnce_iff accepted rfl rfl).mpr (by unfold Suits; decide)⟩

/-- Of a plane with one line, a first block of two lines moves more than there is. -/
theorem not_movesOnce_short :
    (⟨false, 64, 2, 0, 2, 1, 0, [⟨0x40000000, 0x30000000⟩]⟩ : IfArgs).Accepted DmaCall.sampleMmap
        DmaCall.sampleAnswers ∧
      ∃ result, ifD2rboOraset DmaCall.sampleMmap DmaCall.sampleAnswers
        ⟨false, 64, 2, 0, 2, 1, 0, [⟨0x40000000, 0x30000000⟩]⟩ = some result ∧
      ¬ ∃ dealt, (⟨false, 64, 2, 0, 2, 1, 0, [⟨0x40000000, 0x30000000⟩]⟩ : IfArgs).MovesOnce
        DmaCall.sampleMmap [⟨0x40000000, 0x30000000⟩] result dealt := by
  refine ⟨⟨⟨rfl, by decide, by decide, by decide, fun some => absurd rfl some, by decide, by decide,
    by decide⟩, by decide, ⟨rfl, by decide⟩, ?_⟩, _, rfl, ?_⟩
  · intro planes placed iFp plane here
    obtain rfl := Option.some.inj placed
    rcases iFp with _ | iFp
    · obtain rfl := Option.some.inj here
      exact ⟨rfl, rfl, by decide, by decide, by decide⟩
    · cases here
  · -- The one descriptor moves two lines.
    rintro ⟨dealt, moves⟩
    have count := moves.count rfl
    simp only [List.length_flatMap, NndmaDes.moves, List.length_map, List.length_range] at count
    exact absurd count (by decide)

end IfArgs

end Aip
