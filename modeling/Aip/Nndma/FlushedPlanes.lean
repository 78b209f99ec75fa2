import Aip.Nndma.DmaFuncLaws

/-! What `if_d2rbo_oraset` moves and flushes of the planes of one kind. -/

namespace Aip

open Region

namespace PlaneKind

/-- The bytes of a plane in front of a chain. -/
def doneAt (kind : PlaneKind) (k : Nat) : Nat :=
  if k = 0 then 0 else kind.lineSize * (kind.blk0LnumMore + k * kind.blkLnum)

/-- The bytes that a chain moves of a plane: the first chain takes more lines, the last one the rest. -/
def blockAt (kind : PlaneKind) (k : Nat) : Nat :=
  if k = 0 then kind.lineSize * (kind.blkLnum + kind.blk0LnumMore)
  else if k + 1 = kind.desNum then
    kind.lineSize * (kind.totalLnum - kind.blk0LnumMore - k * kind.blkLnum)
  else kind.lineSize * kind.blkLnum

/-- The bytes that all chains move of a plane. -/
def moved (kind : PlaneKind) : Nat :=
  if kind.desNum = 1 then kind.lineSize * (kind.blkLnum + kind.blk0LnumMore)
  else kind.lineSize * kind.totalLnum

/-- The bytes of a plane that a chain flushes, if it flushes the plane: they start at its pointer. -/
def regions (kind : PlaneKind) (planes : List Plane) (k : Nat) : List Region :=
  planes.map fun plane => ⟨plane.ddrPtr, kind.blockAt k⟩

/-- The bytes that the descriptors of a chain name of a plane: none at all are the most they can. -/
def movedAt (kind : PlaneKind) (k : Nat) : Nat :=
  if kind.blockAt k = 0 then 2 ^ 18 else kind.blockAt k

/-- The numbers of one kind fit together: every block is a whole number of lines inside the ring. -/
structure Fits (kind : PlaneKind) : Prop where
  lines : kind.lineSize % 64 = 0
  block : 0 < kind.blkLnum
  count : chainCount kind.totalLnum kind.blk0LnumMore kind.blkLnum = some kind.desNum
  limit : kind.lineSize * (kind.blkLnum + kind.blk0LnumMore) ≤ 2 ^ 18
  ring : kind.lineSize * (kind.blkLnum + kind.blk0LnumMore) ≤ kind.orbufSize
  oram : kind.orbufSize ≤ oramSize
  aligned : kind.orbufSize % 64 = 0
  total : kind.moved < 2 ^ 32

variable {kind : PlaneKind} {k y : Nat} {st : PlaneState} {nna : NnaMmap} {s : DmaSetup}
  {planes : List Plane} {plane : Plane} {last flushes : Bool} {x v : Nat}

/-- The chains are just as many as the lines behind the first extra ones need, and one at least. -/
theorem chainCount_eq {total more lnum count : Nat} (block : 0 < lnum)
    (counted : chainCount total more lnum = some count) :
    (total ≤ more ∧ count = 1) ∨
      (0 < count ∧ more + (count - 1) * lnum < total ∧ total ≤ more + count * lnum) := by
  rw [chainCount] at counted
  split at counted
  · exact Or.inl ⟨‹_›, by simpa using counted.symm⟩
  · rw [if_neg (by omega), Option.some.injEq] at counted
    have whole := Nat.div_add_mod (total - more) lnum
    have part := Nat.mod_lt (total - more) block
    rw [Nat.mul_comm] at whole
    generalize (total - more) / lnum = q at whole counted
    -- A rest takes one more chain.
    split at counted
    · obtain rfl := counted
      rw [Nat.add_sub_cancel, Nat.succ_mul]
      omega
    · obtain rfl := counted
      obtain ⟨q, rfl⟩ : ∃ m, q = m + 1 := by
        cases q with
        | zero => omega
        | succ m => exact ⟨m, rfl⟩
      rw [Nat.add_zero, Nat.add_sub_cancel]
      rw [Nat.succ_mul] at whole ⊢
      omega

/-- A chain that is neither the first nor the last one leaves lines for the last one. -/
theorem Fits.lines_left (fits : kind.Fits) (below : k < kind.desNum) (behind : 0 < k) :
    kind.blk0LnumMore + k * kind.blkLnum < kind.totalLnum ∧
      (k + 1 < kind.desNum →
        kind.blk0LnumMore + (k + 1) * kind.blkLnum < kind.totalLnum) ∧
      (k + 1 = kind.desNum → kind.totalLnum ≤ kind.blk0LnumMore + (k + 1) * kind.blkLnum) := by
  rcases chainCount_eq fits.block fits.count with ⟨_, one⟩ | ⟨_, low, high⟩
  · omega
  · have first := Nat.mul_le_mul_right kind.blkLnum (show k ≤ kind.desNum - 1 by omega)
    refine ⟨by omega, fun less => ?_, fun ends => by rw [ends]; exact high⟩
    have second := Nat.mul_le_mul_right kind.blkLnum (show k + 1 ≤ kind.desNum - 1 by omega)
    omega

/-- There is at least one chain. -/
theorem Fits.desNum_pos (fits : kind.Fits) : 0 < kind.desNum := by
  rcases chainCount_eq fits.block fits.count with ⟨_, one⟩ | ⟨some, _⟩ <;> omega

/-- What a chain moves is a whole number of units, not more than the first chain moves. -/
theorem Fits.blockAt_le (fits : kind.Fits) (below : k < kind.desNum) :
    kind.blockAt k % 64 = 0 ∧
      kind.blockAt k ≤ kind.lineSize * (kind.blkLnum + kind.blk0LnumMore) := by
  have whole : ∀ n, kind.lineSize * n % 64 = 0 := fun n => by
    rw [Nat.mul_mod, fits.lines, Nat.zero_mul]
  rw [blockAt]
  split
  · exact ⟨whole _, Nat.le_refl _⟩
  · have left := fits.lines_left below (by omega)
    split
    · refine ⟨whole _, Nat.mul_le_mul_left _ ?_⟩
      have high := left.2.2 ‹_›
      rw [Nat.succ_mul] at high
      omega
    · exact ⟨whole _, Nat.mul_le_mul_left _ (by omega)⟩

/-- The chains move the bytes one behind the other. -/
theorem doneAt_succ (below : k + 1 < kind.desNum) :
    kind.doneAt (k + 1) = kind.doneAt k + kind.blockAt k := by
  rw [doneAt, if_neg (by omega), doneAt, blockAt]
  split
  · subst k
    rw [Nat.zero_add, Nat.zero_add, Nat.one_mul, Nat.add_comm]
  · rw [if_neg (by omega), ← Nat.mul_add]
    congr 1
    rw [Nat.succ_mul]
    omega

/-- The last chain moves what is left. -/
theorem Fits.doneAt_last (fits : kind.Fits) (ends : k + 1 = kind.desNum) :
    kind.doneAt k + kind.blockAt k = kind.moved := by
  rw [doneAt, blockAt, moved]
  by_cases first : k = 0
  · rw [if_pos first, if_pos first, if_pos (by omega), Nat.zero_add]
  · have left := (fits.lines_left (k := k) (by omega) (by omega)).1
    rw [if_neg first, if_neg first, if_pos ends, if_neg (by omega), ← Nat.mul_add]
    congr 1
    omega

/-- No chain moves bytes behind those of the last one. -/
theorem Fits.inside (fits : kind.Fits) (below : k < kind.desNum) :
    kind.doneAt k + kind.blockAt k ≤ kind.moved := by
  by_cases ends : k + 1 = kind.desNum
  · exact Nat.le_of_eq (fits.doneAt_last ends)
  · have left := (fits.lines_left (k := k + 1) (by omega) (by omega)).1
    rw [← doneAt_succ (by omega), doneAt, if_neg (by omega), moved, if_neg (by omega)]
    exact Nat.mul_le_mul_left _ (by omega)

/-- The chains together move all the bytes. -/
theorem Fits.exists_chain (fits : kind.Fits) :
    (∃ k < kind.desNum, kind.doneAt k ≤ y ∧ y < kind.doneAt k + kind.blockAt k) ↔
      y < kind.moved := by
  constructor
  · rintro ⟨k, below, _, high⟩
    exact Nat.lt_of_lt_of_le high (fits.inside below)
  · intro within
    -- Up to each chain, the bytes moved have no gap.
    have upTo : ∀ n < kind.desNum, y < kind.doneAt n + kind.blockAt n →
        ∃ k < kind.desNum, kind.doneAt k ≤ y ∧ y < kind.doneAt k + kind.blockAt k := by
      intro n below
      induction n with
      | zero => exact fun high => ⟨0, below, Nat.zero_le _, high⟩
      | succ n ih =>
        intro high
        by_cases low : kind.doneAt (n + 1) ≤ y
        · exact ⟨n + 1, below, low, high⟩
        · rw [doneAt_succ below] at low
          exact ih (by omega) (by omega)
    have some := fits.desNum_pos
    apply upTo (kind.desNum - 1) (by omega)
    rwa [fits.doneAt_last (by omega)]

/-- The variables of one kind in front of a chain. -/
structure At (kind : PlaneKind) (k : Nat) (st : PlaneState) : Prop where
  done : st.doneSize = kind.doneAt k
  ring : st.orbufOffset ≤ kind.orbufSize
  aligned : st.orbufOffset % 64 = 0

theorem at_zero : kind.At 0 {} := ⟨rfl, Nat.zero_le _, rfl⟩

/-- `SET_SIZE` finds the size of the block. -/
theorem Fits.blockSize_eq (fits : kind.Fits) (below : k < kind.desNum) (state : kind.At k st) :
    kind.blockSize k st = kind.blockAt k := by
  have small := (fits.blockAt_le below).2
  have limit := fits.limit
  rw [blockSize, state.done]
  rw [blockAt] at small ⊢
  split
  · exact Nat.mod_eq_of_lt (by omega)
  · rename_i first
    rw [if_neg first] at small
    split
    · rename_i ends
      have total := fits.total
      rw [moved, if_neg (by omega)] at total
      have left := (fits.lines_left below (by omega)).1
      -- The bytes that are done are part of the plane.
      have parts : kind.lineSize * kind.totalLnum = kind.doneAt k +
          kind.lineSize * (kind.totalLnum - kind.blk0LnumMore - k * kind.blkLnum) := by
        rw [doneAt, if_neg first, ← Nat.mul_add]
        congr 1
        omega
      omega
    · rename_i ends
      rw [if_neg ends] at small
      exact Nat.mod_eq_of_lt (by omega)

/-- `SET_SIZE` leaves the block whole, or it splits it at the end of the ring. -/
theorem Fits.setSize_split (fits : kind.Fits) (below : k < kind.desNum) (state : kind.At k st) :
    (kind.setSize k st).blockSize = kind.blockAt k ∧
    (((kind.setSize k st).sizeBefRb = 0 ∧ (kind.setSize k st).size = kind.blockAt k ∧
      (kind.setSize k st).offset ≤ kind.orbufSize) ∨
    (0 < (kind.setSize k st).sizeBefRb ∧ 0 < (kind.setSize k st).size ∧
      (kind.setSize k st).sizeBefRb + (kind.setSize k st).size = kind.blockAt k ∧
      (kind.setSize k st).sizeBefRb % 64 = 0 ∧ (kind.setSize k st).offset = 0)) := by
  have small := (fits.blockAt_le below).2
  have limit := fits.limit
  have oram := fits.oram
  have ring := state.ring
  have aligned := fits.aligned
  have offset := state.aligned
  simp only [oramSize, l2cSize] at oram
  rw [setSize, fits.blockSize_eq below state]
  dsimp only
  -- The block passes the end of the ring, or it does not.
  split
  · dsimp only
    omega
  · exact ⟨rfl, Or.inl ⟨rfl, rfl, ring⟩⟩

/-- `SIZE_UPDATE` goes on to the next chain. -/
theorem Fits.sizeUpdate_at (fits : kind.Fits) (below : k + 1 < kind.desNum) (state : kind.At k st) :
    kind.At (k + 1) (kind.sizeUpdate (kind.blockAt k) st) := by
  have done := state.done
  have ring := state.ring
  have offset := state.aligned
  obtain ⟨whole, small⟩ := fits.blockAt_le (k := k) (by omega)
  have inside := fits.inside (k := k) (by omega)
  have limit := fits.limit
  have holds := fits.ring
  have oram := fits.oram
  have aligned := fits.aligned
  have total := fits.total
  simp only [oramSize, l2cSize] at oram
  -- The bytes done, the offset within the ring, and its alignment.
  refine ⟨?_, ?_, ?_⟩
  · show (st.doneSize + kind.blockAt k) % 2 ^ 32 = _
    rw [doneAt_succ below]
    omega
  · rw [sizeUpdate]
    dsimp only
    split <;> omega
  · rw [sizeUpdate]
    dsimp only
    split <;> omega

/-- Only blocks of empty lines are empty. -/
theorem Fits.lines_pos (fits : kind.Fits) (below : k < kind.desNum) (some : 0 < kind.lineSize) :
    0 < kind.blockAt k := by
  have block := fits.block
  rw [blockAt]
  split
  · exact Nat.mul_pos some (by omega)
  · have left := (fits.lines_left below (by omega)).1
    split <;> exact Nat.mul_pos some (by omega)

/-- A plane of one kind, in the shared memory, with its ring in the on-chip memory. -/
structure Valid (nna : NnaMmap) (kind : PlaneKind) (plane : Plane) : Prop where
  aligned : plane.ddrPtr % 64 = 0
  maps : nna.Maps plane.ddrPtr
  within : nna.Holds plane.ddrPtr kind.moved
  oram : nna.InOram plane.orPtr kind.orbufSize

/-- The bytes that a chain moves of a plane begin in the shared memory. -/
theorem Valid.maps_done (valid : Valid nna kind plane) (fits : kind.Fits) (below : k < kind.desNum)
    (before : Nat) (inside : before = 0 ∨ before < kind.blockAt k) :
    nna.Maps (plane.ddrPtr + kind.doneAt k + before) := by
  have maps := valid.maps
  have within := valid.within
  have all := fits.inside below
  simp only [NnaMmap.Maps, NnaMmap.Holds] at maps within ⊢
  rcases Nat.eq_zero_or_pos kind.lineSize with none | some
  · -- Without lines there is nothing in front of any chain.
    have start : kind.doneAt k = 0 := by
      rw [doneAt, none]
      split <;> omega
    have size : kind.blockAt k = 0 := by
      rw [blockAt, none]
      split
      · omega
      · split <;> omega
    omega
  · have size := fits.lines_pos below some
    omega

/-- A place in the ring has an offset in range. -/
theorem Valid.offset (valid : Valid nna kind plane) {offset : Nat}
    (inside : offset ≤ kind.orbufSize) :
    nna.aieGetOramOffset ((plane.orPtr + offset) % 2 ^ 32) < 2 ^ 26 := by
  have oram := valid.oram
  have top := nna.oram
  simp only [NnaMmap.InOram] at oram
  rw [Nat.mod_eq_of_lt (by omega)]
  exact NnaMmap.offset_small ⟨by omega, by omega⟩

/-- A descriptor for a part of a block. -/
theorem Valid.paddr (valid : Valid nna kind plane) (fits : kind.Fits) (below : k < kind.desNum)
    (before : Nat) (inside : before = 0 ∨ before < kind.blockAt k) (whole : before % 64 = 0) :
    (plane.ddrPtr + kind.doneAt k + before) % 2 ^ 32 = plane.ddrPtr + kind.doneAt k + before ∧
      nna.aieGetDdrPaddr (plane.ddrPtr + kind.doneAt k + before) % 64 = 0 := by
  have maps := valid.maps_done fits below before inside
  have visible := nna.visible
  have aligned := valid.aligned
  have lines : kind.doneAt k % 64 = 0 := by
    rw [doneAt]
    split
    · rfl
    · rw [Nat.mul_mod, fits.lines, Nat.zero_mul]
  refine ⟨Nat.mod_eq_of_lt (by simp only [NnaMmap.Maps] at maps; omega), ?_⟩
  exact NnaMmap.paddr_aligned maps (by omega)

/-- `GEN_DMA_DES` names the block of the plane, in one part or in two. -/
theorem Fits.names_genDmaDes (fits : kind.Fits) (below : k < kind.desNum) (state : kind.At k st)
    (valid : Valid nna kind plane) :
    (s.genDmaDes nna st (kind.setSize k st) last plane).Names x ↔ s.Names x ∨
      ∃ v, Holds ⟨plane.ddrPtr + kind.doneAt k, kind.movedAt k⟩ v ∧
        x + nna.ddrVbase = v + nna.ddrPbase := by
  obtain ⟨whole, small⟩ := fits.blockAt_le below
  have limit := fits.limit
  have first := valid.paddr fits below 0 (Or.inl rfl) rfl
  have maps := valid.maps_done fits below 0 (Or.inl rfl)
  rw [Nat.add_zero] at first maps
  rw [DmaSetup.genDmaDes, state.done]
  obtain ⟨_, ⟨none, size, offset⟩ | ⟨some, rest, sum, aligned, offset⟩⟩ :=
    fits.setSize_split below state
  · rw [none, size, if_neg (by simp), DmaSetup.names_push, Nat.add_zero, first.1,
      bytes_nodeMaylast first.2 (valid.offset offset), nodeBytes_eq whole (by omega),
      NnaMmap.holds_paddr maps]
    rfl
  · have second := valid.paddr fits below (kind.setSize k st).sizeBefRb (Or.inr (by omega)) aligned
    have behind := valid.maps_done fits below (kind.setSize k st).sizeBefRb (Or.inr (by omega))
    rw [if_pos (by omega), DmaSetup.names_push, DmaSetup.names_push, first.1, second.1, offset,
      bytes_node first.2 (valid.offset state.ring),
      bytes_nodeMaylast second.2 (valid.offset (Nat.zero_le _)), nodeBytes_eq aligned (by omega),
      nodeBytes_eq (by omega) (by omega), NnaMmap.holds_paddr maps, NnaMmap.holds_paddr behind,
      if_neg (by omega), if_neg (by omega), or_assoc, ← exists_or]
    -- The two parts lie one behind the other.
    refine or_congr Iff.rfl (exists_congr fun v => ?_)
    rw [← or_and_right, movedAt, if_neg (by omega)]
    simp only [Holds]
    omega

/-- The loop over the planes names their blocks. -/
theorem Fits.names_planeLoop (fits : kind.Fits) (below : k < kind.desNum) (state : kind.At k st)
    (valid : ∀ plane ∈ planes, Valid nna kind plane) :
    (s.planeLoop nna flushes last st (kind.setSize k st) planes).Names x ↔ s.Names x ∨
      ∃ plane ∈ planes, ∃ v, Holds ⟨plane.ddrPtr + kind.doneAt k, kind.movedAt k⟩ v ∧
        x + nna.ddrVbase = v + nna.ddrPbase := by
  induction planes generalizing s with
  | nil => simp [DmaSetup.planeLoop]
  | cons plane rest ih =>
    rw [DmaSetup.planeLoop, ih fun other member => valid other (by simp [member]),
      DmaSetup.names_ddrFlushCache,
      fits.names_genDmaDes below state (valid plane (by simp)), or_assoc]
    simp

/-- `GEN_DMA_DES` leaves alone what the flushes depend on. -/
theorem flushed_genDmaDes (s : DmaSetup) (nna : NnaMmap) (st : PlaneState) (sizes : BlockSizes)
    (last : Bool) (plane : Plane) :
    (s.genDmaDes nna st sizes last plane).flushed = s.flushed ∧
      ∀ {held : Region} {rs : List Region}, s.Gathered held rs →
        (s.genDmaDes nna st sizes last plane).Gathered held rs := by
  rw [DmaSetup.genDmaDes]
  split
  · exact ⟨rfl, fun gathered => (gathered.push _).push _⟩
  · exact ⟨rfl, fun gathered => gathered.push _⟩

/-- The planes of one kind have addresses that 32 bits hold. -/
theorem Fits.addressed (fits : kind.Fits) (below : k < kind.desNum)
    (valid : ∀ plane ∈ planes, Valid nna kind plane) :
    DmaSetup.Addressed (kind.regions planes k) := by
  intro r member
  obtain ⟨plane, among, rfl⟩ := List.mem_map.mp member
  have visible := nna.visible
  have maps := (valid plane among).maps
  have within := (valid plane among).within
  have inside := fits.inside below
  have small := (fits.blockAt_le below).2
  have limit := fits.limit
  simp only [NnaMmap.Maps, NnaMmap.Holds] at maps within
  dsimp only
  omega

/-- The loop over the planes flushes what a pass over their first bytes hands on. -/
theorem flushed_planeLoop {sizes : BlockSizes} {held : Region} (last : Bool) (st : PlaneState)
    (size : sizes.blockSize = kind.blockAt k) (addressed : DmaSetup.Addressed (kind.regions planes k))
    (gathered : s.Gathered held (kind.regions planes k)) :
    (s.planeLoop nna true last st sizes planes).flushed =
        s.flushed ++ gather held (kind.regions planes k) ∧
      (planes ≠ [] → (s.planeLoop nna true last st sizes planes).Fresh) := by
  -- The induction follows the loop, with all that has been gathered so far.
  induction planes generalizing s held with
  | nil => simp [DmaSetup.planeLoop, regions, gather]
  | cons plane rest ih =>
    obtain ⟨same, keeps⟩ := flushed_genDmaDes s nna st sizes (rest.isEmpty && last) plane
    obtain ⟨later, next, sent, fresh⟩ := (keeps gathered).step addressed
    rw [← regions, regions, List.head?_map, Option.map_map] at next sent fresh
    have tail : DmaSetup.Addressed (kind.regions rest k) := fun r member =>
      addressed r (List.mem_cons_of_mem _ member)
    rw [DmaSetup.planeLoop, if_pos rfl, size]
    obtain ⟨all, ends⟩ := ih tail next
    refine ⟨all.trans (sent.symm.trans ?_), fun _ => ?_⟩
    · rw [same]
      rfl
    · cases rest with
      | nil => exact fresh rfl
      | cons other others => exact ends (List.cons_ne_nil _ _)

/-- Without flushes the loop flushes nothing. -/
theorem planeLoop_silent (sizes : BlockSizes) :
    (s.planeLoop nna false last st sizes planes).flushed = s.flushed := by
  induction planes generalizing s with
  | nil => rfl
  | cons plane rest ih =>
    rw [DmaSetup.planeLoop, ih]
    exact (flushed_genDmaDes ..).1

end PlaneKind

end Aip
