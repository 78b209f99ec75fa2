import Aip.Nndma.DmaFuncLaws

/-! When `w_d2o_orasetrun` flushes all that it transfers. -/

namespace Aip

open Region

namespace WBlock

/-- The bytes of the block. -/
def region (block : WBlock) : Region := ⟨block.ddrPtr, block.size⟩

/-- The bytes that its descriptor names; a size of zero is the largest one for the hardware. -/
def moved (block : WBlock) : Region :=
  ⟨block.ddrPtr, if block.size = 0 then 2 ^ 23 else block.size⟩

/-- A block that passes the checks of a build with `__AIE_VALID_CHECK__`, in the shared memory. -/
structure Valid (nna : NnaMmap) (block : WBlock) : Prop where
  ddrAligned : block.ddrPtr % 64 = 0
  aligned : block.size % 64 = 0
  limit : block.size ≤ 2 ^ 23
  maps : nna.Maps block.ddrPtr
  within : nna.Holds block.ddrPtr block.size

end WBlock

namespace WArgs

/-- Valid blocks, each with a place in the on-chip memory. -/
structure Valid (nna : NnaMmap) (answers : DmaAnswers) (args : WArgs) : Prop where
  blocks : ∀ block ∈ args.blocks, block.Valid nna
  oram : ∀ i block, args.blocks[i]? = some block →
    nna.InOram (args.orPtr answers i block) block.size

/--
What `w_d2o_orasetrun` flushes suffices: each byte moved is one of a block that does not end a run
of blocks lying one behind the other.
-/
def Suffices (args : WArgs) : Prop :=
  ∀ block ∈ args.blocks, ∀ v, block.moved.Holds v → Reached (args.blocks.map WBlock.region) v

variable {nna : NnaMmap} {answers : DmaAnswers} {args : WArgs} {blocks : List WBlock}
  {s : DmaSetup} {held : Region} {i v x : Nat}

/-- Blocks of the shared memory have addresses that 32 bits hold. -/
theorem addressed (valid : ∀ block ∈ blocks, block.Valid nna) :
    DmaSetup.Addressed (blocks.map WBlock.region) := by
  intro r member
  obtain ⟨block, among, rfl⟩ := List.mem_map.mp member
  have visible := nna.visible
  have limit := (valid block among).limit
  have maps := (valid block among).maps
  have within := (valid block among).within
  simp only [NnaMmap.Maps, NnaMmap.Holds] at maps within
  simp only [WBlock.region]
  omega

/-- What a pass over the blocks reaches is in the shared memory. -/
theorem reached_maps (valid : ∀ block ∈ blocks, block.Valid nna)
    (reached : Reached (blocks.map WBlock.region) v) : nna.Maps v := by
  obtain ⟨j, r, found, _, holds⟩ := reached
  obtain ⟨block, member, rfl⟩ := List.mem_map.mp (List.mem_of_getElem? found)
  have within := (valid block member).within
  simp only [NnaMmap.Holds, NnaMmap.Maps, Holds, WBlock.region] at within holds ⊢
  omega

/-- The loop flushes what a pass over the blocks hands on. -/
theorem loop_flushed (cached : nna.isDdrCached = true)
    (addressed : DmaSetup.Addressed (blocks.map WBlock.region))
    (gathered : s.Gathered held (blocks.map WBlock.region)) :
    (args.loop nna answers i blocks s).flushed =
      s.flushed ++ gather held (blocks.map WBlock.region) := by
  -- The induction follows the loop, with all that has been gathered so far.
  induction blocks generalizing i s held with
  | nil => simp [loop, gather]
  | cons block rest ih =>
    obtain ⟨later, next, same, _⟩ := (gathered.push (aieNndmaBignodeMaylast rest.isEmpty
      (nna.aieGetOramOffset (args.orPtr answers i block)) (nna.aieGetDdrPaddr block.ddrPtr)
      block.size)).step addressed
    rw [List.head?_map, Option.map_map] at next same
    have tail : DmaSetup.Addressed (rest.map WBlock.region) := fun r member =>
      addressed r (List.mem_cons_of_mem _ member)
    rw [loop, if_pos cached]
    refine (ih tail next).trans (same.symm.trans ?_)
    rfl

/-- The loop writes a descriptor for each block. -/
theorem loop_names (valid : ∀ block ∈ blocks, block.Valid nna)
    (oram : ∀ j block, blocks[j]? = some block →
      nna.InOram (args.orPtr answers (i + j) block) block.size) :
    (args.loop nna answers i blocks s).Names x ↔ s.Names x ∨
      ∃ block ∈ blocks, Holds ⟨nna.aieGetDdrPaddr block.ddrPtr, block.moved.size⟩ x := by
  -- The induction is on the blocks; the answers for the rest are those counted from the next one.
  induction blocks generalizing i s with
  | nil => simp [loop]
  | cons block rest ih =>
    have here := valid block (by simp)
    have offset : nna.aieGetOramOffset (args.orPtr answers i block) < 2 ^ 26 :=
      NnaMmap.offset_small (NnaMmap.InOram.start (oram 0 block rfl))
    have paddr := NnaMmap.paddr_aligned here.maps here.ddrAligned
    rw [loop, ih (fun other member => valid other (by simp [member]))]
    · rw [DmaSetup.names_ddrFlushCache, DmaSetup.names_push, bytes_bignode paddr offset,
        bignodeBytes_eq here.aligned here.limit, or_assoc]
      simp [WBlock.moved]
    · intro j other found
      have := oram (j + 1) other (by simpa using found)
      rwa [← Nat.add_assoc, Nat.add_right_comm] at this

/-- The blocks tell when all that is transferred is flushed. -/
theorem flushed_iff (cached : nna.isDdrCached = true) (valid : args.Valid nna answers) :
    (wD2oOrasetrun nna answers args).1.Flushed nna ↔ args.Suffices := by
  have start : ({ desAddr := (nna.nndmaDesramVbase + 4 * 1024) % 2 ^ 32 } : DmaSetup).Fresh :=
    ⟨rfl, rfl⟩
  have oram : ∀ j block, args.blocks[j]? = some block →
      nna.InOram (args.orPtr answers (0 + j) block) block.size := by
    intro j block found
    rw [Nat.zero_add]
    exact valid.oram j block found
  -- What is flushed are the runs of neighbouring blocks, which cover what the blocks cover.
  have sent : ∀ v, Covers (wD2oOrasetrun nna answers args).1.flushed v ↔
      Reached (args.blocks.map WBlock.region) v := by
    intro v
    rw [wD2oOrasetrun, loop_flushed cached (addressed valid.blocks) (start.gathered _),
      List.nil_append, covers_gather]
  rw [DmaSetup.flushed_iff (fun v => ∃ block ∈ args.blocks, block.moved.Holds v)]
  · constructor
    · intro all block member v holds
      exact (sent v).mp (all v ⟨block, member, holds⟩).2
    · rintro enough v ⟨block, member, holds⟩
      have reached := enough block member v holds
      exact ⟨reached_maps valid.blocks reached, (sent v).mpr reached⟩
  · intro x
    rw [wD2oOrasetrun, loop_names valid.blocks oram]
    have nothing : ¬ ({ desAddr := (nna.nndmaDesramVbase + 4 * 1024) % 2 ^ 32 } : DmaSetup).Names x :=
      covers_nil
    simp only [nothing, false_or]
    constructor
    · rintro ⟨block, member, holds⟩
      obtain ⟨v, moved, same⟩ := (NnaMmap.holds_paddr (valid.blocks block member).maps).mp holds
      exact ⟨v, ⟨block, member, moved⟩, same⟩
    · rintro ⟨v, ⟨block, member, moved⟩, same⟩
      exact ⟨block, member,
        (NnaMmap.holds_paddr (valid.blocks block member).maps).mpr ⟨v, moved, same⟩⟩
  · rintro v ⟨block, member, holds⟩
    exact (valid.blocks block member).maps.1.trans holds.1

end WArgs

end Aip
