import Aip.Nndma.FlushedPlanes

/-! The descriptors that the functions of `dma_func.c` write, in order and chain by chain. -/

namespace Aip

namespace DmaSetup

/-- What a setup has become when some descriptors have been written behind those it had. -/
structure Writes (s : DmaSetup) (more : List (Nat × Nat)) (s' : DmaSetup) : Prop where
  des : s'.des = s.des ++ more
  desAddr : s'.desAddr % 2 ^ 32 = (s.desAddr + 8 * more.length) % 2 ^ 32
  desEntry : s'.desEntry = s.desEntry

variable {nna : NnaMmap} {s t u : DmaSetup} {des more : List (Nat × Nat)} {sizes : BlockSizes}
  {st : PlaneState} {last flushes : Bool} {planes : List Plane}

/-- Nothing is written at once. -/
theorem Writes.refl (s : DmaSetup) : s.Writes [] s := ⟨by simp, by simp, rfl⟩

/-- What is written first comes first. -/
theorem Writes.trans (first : s.Writes des t) (second : t.Writes more u) :
    s.Writes (des ++ more) u := by
  refine ⟨?_, ?_, second.desEntry.trans first.desEntry⟩
  · rw [second.des, first.des, List.append_assoc]
  · rw [second.desAddr, Nat.add_mod, first.desAddr, List.length_append]
    omega

/-- A push writes one descriptor. -/
theorem writes_push (s : DmaSetup) (one : Nat × Nat) : s.Writes [one] (s.push one) :=
  ⟨rfl, by simp [push], rfl⟩

/-- Pushes write their descriptors in order. -/
theorem writes_pushes (s : DmaSetup) (des : List (Nat × Nat)) : s.Writes des (des.foldl push s) := by
  induction des generalizing s with
  | nil => exact .refl s
  | cons one des ih => exact (writes_push s one).trans (ih _)

/-- A flush writes no descriptor. -/
theorem writes_flush (flushes : Bool) (next : Option Nat) (ptr size : Nat) :
    s.Writes [] (if flushes then s.ddrFlushCache next ptr size else s) := by
  unfold ddrFlushCache aieFlushcache unlink
  split_ifs <;> exact ⟨by simp, by simp, rfl⟩

/-- The descriptors of `GEN_DMA_DES`. -/
def genDes (nna : NnaMmap) (st : PlaneState) (sizes : BlockSizes) (last : Bool) (plane : Plane) :
    List (Nat × Nat) :=
  (if sizes.sizeBefRb ≠ 0 then
    [aieNndmaNode (nna.aieGetOramOffset ((plane.orPtr + st.orbufOffset) % 2 ^ 32))
      (nna.aieGetDdrPaddr ((plane.ddrPtr + st.doneSize) % 2 ^ 32)) sizes.sizeBefRb] else []) ++
  [aieNndmaNodeMaylast last (nna.aieGetOramOffset ((plane.orPtr + sizes.offset) % 2 ^ 32))
    (nna.aieGetDdrPaddr ((plane.ddrPtr + st.doneSize + sizes.sizeBefRb) % 2 ^ 32)) sizes.size]

/-- `GEN_DMA_DES` writes its descriptors, one or two of them. -/
theorem writes_genDmaDes (plane : Plane) :
    s.Writes (genDes nna st sizes last plane) (s.genDmaDes nna st sizes last plane) := by
  unfold genDes genDmaDes
  -- A block that is split has a descriptor for each part.
  split
  · exact (writes_push s _).trans (writes_push _ _)
  · exact writes_push s _

/-- The descriptors of the loop over the planes of one kind. -/
def loopDes (nna : NnaMmap) (last : Bool) (st : PlaneState) (sizes : BlockSizes) :
    List Plane → List (Nat × Nat)
  | [] => []
  | plane :: rest =>
    genDes nna st sizes (rest.isEmpty && last) plane ++ loopDes nna last st sizes rest

/-- The loop over the planes writes those of all of them. -/
theorem writes_planeLoop : s.Writes (loopDes nna last st sizes planes)
    (s.planeLoop nna flushes last st sizes planes) := by
  induction planes generalizing s with
  | nil => exact .refl s
  | cons plane rest ih =>
    -- The descriptors of the plane at hand, its flush, and the planes behind it.
    have flush := writes_flush (s := s.genDmaDes nna st sizes (rest.isEmpty && last) plane) flushes
      (rest.head?.map (·.ddrPtr)) plane.ddrPtr sizes.blockSize
    have here := (writes_genDmaDes plane).trans flush
    rw [List.append_nil] at here
    exact here.trans ih

/-- The first chains that a loop writes from an address on, and the entries that it notes. -/
structure Chained (nna : NnaMmap) (start : Nat) (chain : Nat → List (Nat × Nat)) (n : Nat)
    (s : DmaSetup) : Prop where
  des : s.des = (List.range n).flatMap chain
  desAddr : s.desAddr % 2 ^ 32 = (start + 8 * ((List.range n).flatMap chain).length) % 2 ^ 32
  count : s.desEntry.length = n
  desEntry : ∀ k < n, ∃ address,
    address % 2 ^ 32 = (start + 8 * ((List.range k).flatMap chain).length) % 2 ^ 32 ∧
      s.desEntry[k]? = some (nna.aieGetDesramPtr address)

/-- One more chain. -/
theorem Chained.step {start n : Nat} {chain : Nat → List (Nat × Nat)}
    (chained : s.Chained nna start chain n) (writes : (s.noteEntry nna).Writes (chain n) t) :
    t.Chained nna start chain (n + 1) := by
  have entry : t.desEntry = s.desEntry ++ [nna.aieGetDesramPtr s.desAddr] := writes.desEntry
  have moved : t.desAddr % 2 ^ 32 = (s.desAddr + 8 * (chain n).length) % 2 ^ 32 := writes.desAddr
  have range : (List.range (n + 1)).flatMap chain = (List.range n).flatMap chain ++ chain n := by
    rw [List.range_succ, List.flatMap_append, List.flatMap_singleton]
  -- The new chain stands behind the others, and its entry behind theirs.
  refine ⟨?_, ?_, ?_, fun k less => ?_⟩
  · rw [range, writes.des, ← chained.des]
    rfl
  · rw [range, moved, Nat.add_mod, chained.desAddr, List.length_append]
    omega
  · rw [entry, List.length_append, chained.count, List.length_singleton]
  · rw [entry]
    -- The entries of the chains before stay where they are.
    rcases Nat.lt_succ_iff_lt_or_eq.mp less with earlier | rfl
    · rw [List.getElem?_append_left (by rw [chained.count]; exact earlier)]
      exact chained.desEntry k earlier
    · refine ⟨_, chained.desAddr, ?_⟩
      rw [List.getElem?_append_right (by rw [chained.count]), chained.count, Nat.sub_self,
        List.getElem?_cons_zero]

/-- A loop that notes an entry and writes a chain in each round has written all of them. -/
theorem chained_loop {σ : Type} (setup : σ → DmaSetup) (step : σ → Nat → σ) (start : σ)
    (holds : Nat → σ → Prop) (chain : Nat → List (Nat × Nat)) {count n : Nat} (begins : holds 0 start)
    (empty : (setup start).des = [] ∧ (setup start).desEntry = [])
    (each : ∀ k < count, ∀ now, holds k now →
      ((setup now).noteEntry nna).Writes (chain k) (setup (step now k)) ∧ holds (k + 1) (step now k))
    (upTo : n ≤ count) : holds n ((List.range n).foldl step start) ∧
      (setup ((List.range n).foldl step start)).Chained nna (setup start).desAddr chain n := by
  -- The induction is on the rounds, with what holds of the variables carried along.
  induction n with
  | zero =>
    exact ⟨begins, empty.1, by simp, by simp [empty.2], fun k none => absurd none k.not_lt_zero⟩
  | succ n ih =>
    obtain ⟨held, chained⟩ := ih (by omega)
    obtain ⟨writes, next⟩ := each n (by omega) _ held
    rw [List.range_succ, List.foldl_append]
    exact ⟨next, chained.step writes⟩

end DmaSetup

namespace PlaneKind

variable {kind : PlaneKind} {k : Nat} {nna : NnaMmap} {plane : Plane} {last : Bool}

/-- The place in the ring in front of a chain. -/
def offsetAt (kind : PlaneKind) (k : Nat) : Nat := kind.doneAt k % kind.orbufSize

/-- The block of a chain goes beyond the end of the ring. -/
def Straddles (kind : PlaneKind) (k : Nat) : Prop :=
  kind.orbufSize < kind.offsetAt k + kind.blockAt k

instance (kind : PlaneKind) (k : Nat) : Decidable (kind.Straddles k) :=
  inferInstanceAs (Decidable (_ < _))

/-- The variables of one kind in front of a chain. -/
def stateAt (kind : PlaneKind) (k : Nat) : PlaneState := ⟨kind.doneAt k, kind.offsetAt k⟩

/-- The variables start at zero. -/
theorem stateAt_zero (kind : PlaneKind) : kind.stateAt 0 = {} := by
  simp [stateAt, offsetAt, doneAt]

/-- The variables as the chains before have left them, each with its `SIZE_UPDATE`. -/
def stepped (kind : PlaneKind) : Nat → PlaneState
  | 0 => {}
  | k + 1 => kind.sizeUpdate (kind.setSize k (kind.stepped k)).blockSize (kind.stepped k)

/-- The place is within the ring, unless the lines are empty and the ring is. -/
theorem Fits.offsetAt_lt (fits : kind.Fits) (k : Nat) :
    kind.offsetAt k < kind.orbufSize ∨ kind.orbufSize = 0 ∧ kind.offsetAt k = 0 ∧
      kind.blockAt k = 0 := by
  -- A ring without bytes holds blocks without bytes.
  rcases Nat.eq_zero_or_pos kind.orbufSize with none | some
  · have ring := fits.ring
    have empty : kind.lineSize = 0 := by
      have block := fits.block
      rw [none, Nat.le_zero, Nat.mul_eq_zero] at ring
      omega
    refine Or.inr ⟨none, ?_, ?_⟩
    · simp [offsetAt, doneAt, empty]
    · simp [blockAt, empty]
  · exact Or.inl (Nat.mod_lt _ some)

/-- The variables of a chain are in range. -/
theorem Fits.at_stateAt (fits : kind.Fits) (k : Nat) : kind.At k (kind.stateAt k) := by
  -- Whole units are done, and a ring of whole units keeps them whole.
  have units : 64 ∣ kind.orbufSize := Nat.dvd_of_mod_eq_zero fits.aligned
  have lines : 64 ∣ kind.doneAt k := by
    rw [doneAt]
    split
    · exact Nat.dvd_zero 64
    · exact Dvd.dvd.mul_right (Nat.dvd_of_mod_eq_zero fits.lines) _
  refine ⟨rfl, ?_, Nat.mod_eq_zero_of_dvd ((Nat.dvd_mod_iff units).mpr lines)⟩
  rcases fits.offsetAt_lt k with less | ⟨_, none, _⟩
  · exact Nat.le_of_lt less
  · rw [stateAt, none]
    exact Nat.zero_le _

/-- `SIZE_UPDATE` goes on to the next place in the ring. -/
theorem Fits.sizeUpdate_stateAt (fits : kind.Fits) (below : k + 1 < kind.desNum) :
    kind.sizeUpdate (kind.blockAt k) (kind.stateAt k) = kind.stateAt (k + 1) := by
  have next := fits.sizeUpdate_at below (fits.at_stateAt k)
  have small := (fits.blockAt_le (k := k) (by omega)).2
  have ring := fits.ring
  have oram := fits.oram
  simp only [oramSize, l2cSize] at oram
  -- The place behind the block, taken round the ring, is the next place.
  have sum : (kind.offsetAt k + kind.blockAt k) % kind.orbufSize = kind.offsetAt (k + 1) := by
    rw [offsetAt, offsetAt, doneAt_succ below, Nat.mod_add_mod]
  have update : (kind.sizeUpdate (kind.blockAt k) (kind.stateAt k)).orbufOffset =
      kind.offsetAt (k + 1) := by
    rw [← sum]
    show (if kind.orbufSize ≤ (kind.offsetAt k + kind.blockAt k) % 2 ^ 32 then
      (kind.offsetAt k + kind.blockAt k) % 2 ^ 32 - kind.orbufSize
      else (kind.offsetAt k + kind.blockAt k) % 2 ^ 32) = _
    -- At most one turn of the ring is left behind.
    rcases fits.offsetAt_lt k with less | ⟨none, place, empty⟩
    · rw [Nat.mod_eq_of_lt (show kind.offsetAt k + kind.blockAt k < 2 ^ 32 by omega)]
      split
      · rename_i turn
        rw [Nat.mod_eq_sub_mod turn, Nat.mod_eq_of_lt (by omega)]
      · rw [Nat.mod_eq_of_lt (by omega)]
    · rw [none, place, empty]
      rfl
  have done : (kind.sizeUpdate (kind.blockAt k) (kind.stateAt k)).doneSize = kind.doneAt (k + 1) :=
    next.done
  exact congrArg₂ PlaneState.mk done update

/-- `SET_SIZE` splits the block where it goes beyond the end of the ring. -/
theorem Fits.setSize_stateAt (fits : kind.Fits) (below : k < kind.desNum) :
    kind.setSize k (kind.stateAt k) =
      if kind.Straddles k then
        ⟨kind.blockAt k, kind.orbufSize - kind.offsetAt k, 0,
          kind.blockAt k - (kind.orbufSize - kind.offsetAt k)⟩
      else ⟨kind.blockAt k, 0, kind.offsetAt k, kind.blockAt k⟩ := by
  have small := (fits.blockAt_le below).2
  have limit := fits.limit
  have oram := fits.oram
  have within := (fits.at_stateAt k).ring
  simp only [oramSize, l2cSize] at oram
  change kind.offsetAt k ≤ _ at within
  have place : (kind.stateAt k).orbufOffset = kind.offsetAt k := rfl
  -- The sum that is compared with the ring does not wrap around.
  have sum : (kind.offsetAt k + kind.blockAt k) % 2 ^ 32 = kind.offsetAt k + kind.blockAt k :=
    Nat.mod_eq_of_lt (by omega)
  rw [setSize, fits.blockSize_eq below (fits.at_stateAt k)]
  simp only [place, sum]
  -- Splitting is decided by the same comparison.
  by_cases beyond : kind.Straddles k
  · have wide : kind.orbufSize < kind.offsetAt k + kind.blockAt k := beyond
    rw [if_pos wide, if_pos beyond, BlockSizes.mk.injEq]
    omega
  · have narrow : ¬ kind.orbufSize < kind.offsetAt k + kind.blockAt k := beyond
    rw [if_neg narrow, if_neg beyond]

/-- The variables go round the ring. -/
theorem Fits.stepped_eq (fits : kind.Fits) (below : k < kind.desNum) :
    kind.stepped k = kind.stateAt k := by
  -- Each chain takes the variables from the one before it.
  induction k with
  | zero => exact kind.stateAt_zero.symm
  | succ k ih =>
    rw [stepped, ih (by omega), (fits.setSize_split (by omega) (fits.at_stateAt k)).1,
      fits.sizeUpdate_stateAt below]

/-- A part of a block: how far it is from the start of the plane and of the ring, and its bytes. -/
structure Part where
  done : Nat
  offset : Nat
  size : Nat
  deriving DecidableEq, Repr

/-- The parts of the block of a chain. -/
def parts (kind : PlaneKind) (k : Nat) : List Part :=
  if kind.Straddles k then
    [⟨kind.doneAt k, kind.offsetAt k, kind.orbufSize - kind.offsetAt k⟩,
      ⟨kind.doneAt k + (kind.orbufSize - kind.offsetAt k), 0,
        kind.blockAt k - (kind.orbufSize - kind.offsetAt k)⟩]
  else [⟨kind.doneAt k, kind.offsetAt k, kind.blockAt k⟩]

/-- The descriptor of a part. -/
def Part.des (nna : NnaMmap) (plane : Plane) (last : Bool) (part : Part) : Nat × Nat :=
  aieNndmaNodeMaylast last (nna.aieGetOramOffset ((plane.orPtr + part.offset) % 2 ^ 32))
    (nna.aieGetDdrPaddr ((plane.ddrPtr + part.done) % 2 ^ 32)) part.size

/-- The descriptors of the parts of a block: only the last one may end its chain. -/
def planeDes (kind : PlaneKind) (nna : NnaMmap) (k : Nat) (last : Bool) (plane : Plane) :
    List (Nat × Nat) :=
  (kind.parts k).zipIdx.map fun part =>
    part.1.des nna plane (last && part.2 + 1 == (kind.parts k).length)

/-- `GEN_DMA_DES` writes the descriptors of the parts. -/
theorem Fits.genDes_eq (fits : kind.Fits) (below : k < kind.desNum) :
    DmaSetup.genDes nna (kind.stateAt k) (kind.setSize k (kind.stateAt k)) last plane =
      kind.planeDes nna k last plane := by
  -- A part in front of the end of the ring has a descriptor of its own, which links on.
  rw [fits.setSize_stateAt below, planeDes, parts]
  by_cases beyond : kind.Straddles k
  · have before : kind.orbufSize - kind.offsetAt k ≠ 0 := by
      have wide : kind.orbufSize < kind.offsetAt k + kind.blockAt k := beyond
      rcases fits.offsetAt_lt k with less | ⟨none, place, empty⟩ <;> omega
    rw [if_pos beyond, if_pos beyond]
    simp [DmaSetup.genDes, if_pos before, node_linked, Part.des, stateAt, Nat.add_assoc]
  · rw [if_neg beyond, if_neg beyond]
    simp [DmaSetup.genDes, Part.des, stateAt]

end PlaneKind

namespace IfArgs

variable {nna : NnaMmap} {answers : DmaAnswers} {args : IfArgs} {planes : List Plane}
  {desNum qdesNum n : Nat} {s : IfState}

/-- The descriptors of a chain: those of the normal planes, and those of the quarter planes. -/
def chainDes (args : IfArgs) (nna : NnaMmap) (planes : List Plane) (desNum qdesNum k : Nat) :
    List (Nat × Nat) :=
  let st := (args.kind desNum).stepped k
  let qst := (args.qkind qdesNum).stepped k
  DmaSetup.loopDes nna (args.qifpNum = 0 || qdesNum ≤ k) st ((args.kind desNum).setSize k st)
      (normal planes args.qifpNum) ++
    if k < qdesNum then
      DmaSetup.loopDes nna true qst ((args.qkind qdesNum).setSize k qst)
        (quarter planes args.qifpNum)
    else []

/-- The variables of both kinds are those that the first chains leave, if there are such planes. -/
structure Stepped (args : IfArgs) (planes : List Plane) (desNum qdesNum n : Nat) (s : IfState) :
    Prop where
  st : normal planes args.qifpNum ≠ [] → s.st = (args.kind desNum).stepped n
  qst : args.qifpNum ≠ 0 → s.qst = (args.qkind qdesNum).stepped n

/-- One round of the loop writes a chain. -/
theorem Stepped.chain (stepped : args.Stepped planes desNum qdesNum n s) :
    (s.setup.noteEntry nna).Writes (args.chainDes nna planes desNum qdesNum n)
        (args.chain nna planes desNum qdesNum s n).setup ∧
      args.Stepped planes desNum qdesNum (n + 1) (args.chain nna planes desNum qdesNum s n) := by
  -- The loop over the normal planes, which may be none.
  have first : ∀ setup : DmaSetup, ∀ flushes last : Bool, setup.Writes
      (DmaSetup.loopDes nna last ((args.kind desNum).stepped n)
        ((args.kind desNum).setSize n ((args.kind desNum).stepped n)) (normal planes args.qifpNum))
      (setup.planeLoop nna flushes last s.st ((args.kind desNum).setSize n s.st)
        (normal planes args.qifpNum)) := by
    intro setup flushes last
    by_cases none : normal planes args.qifpNum = []
    · rw [none]
      exact .refl setup
    · rw [stepped.st none]
      exact DmaSetup.writes_planeLoop
  refine ⟨?_, fun some => ?_, fun quarters => ?_⟩
  · rw [IfArgs.chain, chainDes]
    dsimp only
    refine (first _ (nna.isDdrCached && !args.bFlushAll) _).trans ?_
    -- The quarter planes take part in the first chains only.
    split
    · by_cases none : args.qifpNum = 0
      · have empty : quarter planes args.qifpNum = [] := by simp [quarter, none]
        rw [empty]
        exact .refl _
      · rw [stepped.qst none]
        exact DmaSetup.writes_planeLoop
    · exact .refl _
  · -- The variables of a kind are updated once a round, if it has planes.
    have kept : (args.chain nna planes desNum qdesNum s n).st =
        (args.kind desNum).sizeUpdate ((args.kind desNum).setSize n s.st).blockSize s.st :=
      if_neg (by simpa using some)
    rw [kept, stepped.st some]
    rfl
  · have kept : (args.chain nna planes desNum qdesNum s n).qst =
        (args.qkind qdesNum).sizeUpdate ((args.qkind qdesNum).setSize n s.qst).blockSize s.qst :=
      if_neg quarters
    rw [kept, stepped.qst quarters]
    rfl

/-- A call that returns has written the chains one behind the other. -/
theorem returned_chained {result : DmaSetup × Nat}
    (returned : ifD2rboOraset nna answers args = some result) :
    ∃ desNum qdesNum planes, args.desNum = some desNum ∧ args.qdesNum = some qdesNum ∧
      args.placed answers = some planes ∧
      result.1.Chained nna nna.nndmaDesramVbase (args.chainDes nna planes desNum qdesNum) desNum ∧
      result.2 = if args.ifpNum - args.qifpNum ≠ 0 then desNum else qdesNum := by
  obtain ⟨desNum, counted, returned⟩ := Option.bind_eq_some_iff.mp returned
  obtain ⟨qdesNum, qcounted, returned⟩ := Option.bind_eq_some_iff.mp returned
  rw [Option.ite_none_right_eq_some] at returned
  obtain ⟨planes, placed, rfl⟩ := Option.map_eq_some_iff.mp returned.2
  -- Both loops over planes are one round of the loop over the chains.
  have all := (DmaSetup.chained_loop IfState.setup (args.chain nna planes desNum qdesNum)
    ⟨{ desAddr := nna.nndmaDesramVbase }, {}, {}⟩ (args.Stepped planes desNum qdesNum)
    (args.chainDes nna planes desNum qdesNum) ⟨fun _ => rfl, fun _ => rfl⟩ ⟨rfl, rfl⟩
    (fun k _ now stepped => stepped.chain) (Nat.le_refl desNum)).2
  refine ⟨desNum, qdesNum, planes, counted, qcounted, placed, ?_, rfl⟩
  dsimp only
  split
  · exact ⟨all.des, all.desAddr, all.count, all.desEntry⟩
  · exact all

end IfArgs

namespace OfArgs

variable {nna : NnaMmap} {answers : DmaAnswers} {args : OfArgs} {desNum n : Nat}

/-- The bytes of a plane that a chain moves, as the loop computes them. -/
def blockOf (args : OfArgs) (desNum k : Nat) : Nat :=
  if k + 1 = desNum ∧ args.blklastLnum ≠ 0 then args.lineSize * args.blklastLnum % 2 ^ 32
  else args.blkSize

/-- `done_size` in front of a chain. -/
def doneOf (args : OfArgs) (desNum : Nat) : Nat → Nat
  | 0 => 0
  | k + 1 => (args.doneOf desNum k + args.blockOf desNum k) % 2 ^ 32

/-- `i_bb` in front of a chain. -/
def slotOf (args : OfArgs) : Nat → Nat
  | 0 => 0
  | k + 1 => if args.slotOf k + 1 = args.bufBnum then 0 else args.slotOf k + 1

/-- The variables are those that the first chains leave. -/
structure Stepped (args : OfArgs) (desNum n : Nat) (s : OfState) : Prop where
  slot : s.iBb = args.slotOf n
  done : s.doneSize = args.doneOf desNum n

/-- The descriptors of a chain, one for each plane. -/
def chainDes (args : OfArgs) (nna : NnaMmap) (orPtr desNum k : Nat) : List (Nat × Nat) :=
  (List.range args.ofpNum).map (args.node nna orPtr (args.slotOf k * args.blkSize % 2 ^ 32)
    (args.doneOf desNum k) (args.blockOf desNum k))

/-- A call that returns has written the chains one behind the other. -/
theorem returned_chained {result : DmaSetup × Nat}
    (returned : ofO2dOraset nna answers args = some result) :
    ∃ desNum orPtr, args.desNum = some desNum ∧ args.placed answers = some orPtr ∧
      result.1.Chained nna ((nna.nndmaDesramVbase + 8 * 1024) % 2 ^ 32)
        (args.chainDes nna orPtr desNum) desNum ∧ result.2 = desNum := by
  obtain ⟨desNum, counted, returned⟩ := Option.bind_eq_some_iff.mp returned
  rw [Option.ite_none_right_eq_some] at returned
  obtain ⟨orPtr, placed, rfl⟩ := Option.map_eq_some_iff.mp returned.2
  -- One round takes the slot and the bytes done from one chain to the next.
  have each : ∀ k < desNum, ∀ now : OfState, args.Stepped desNum k now →
      (now.setup.noteEntry nna).Writes (args.chainDes nna orPtr desNum k)
        (args.chain nna orPtr desNum now k).setup ∧
      args.Stepped desNum (k + 1) (args.chain nna orPtr desNum now k) := by
    rintro k _ now ⟨slot, done⟩
    refine ⟨?_, ?_, ?_⟩
    · rw [chainDes, ← slot, ← done]
      exact DmaSetup.writes_pushes _ _
    · rw [slotOf, ← slot]
      rfl
    · rw [doneOf, ← done]
      rfl
  have all := (DmaSetup.chained_loop OfState.setup (args.chain nna orPtr desNum)
    { setup := { desAddr := (nna.nndmaDesramVbase + 8 * 1024) % 2 ^ 32 } } (args.Stepped desNum)
    (args.chainDes nna orPtr desNum) ⟨rfl, rfl⟩ ⟨rfl, rfl⟩ each (Nat.le_refl desNum)).2
  refine ⟨desNum, orPtr, counted, placed, ?_, rfl⟩
  dsimp only
  split
  · exact ⟨all.des, all.desAddr, all.count, all.desEntry⟩
  · exact all

end OfArgs

end Aip
