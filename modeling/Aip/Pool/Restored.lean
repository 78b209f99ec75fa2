import Aip.Lib.Blocks
import Aip.Pool.SoleOwner

/-! The first area stays cut into blocks without idle neighbours, and all frees together restore it. -/

namespace Aip

/-- A block covers its memory, is handed out unless idle, and is known by its address. -/
def Block.view : Blocks.View Block := ⟨Block.region, fun block => !block.idle, Block.paddr⟩

/-- A block of an area: the first one carries the mark, and the mapping goes along with the memory. -/
structure Block.OfArea (area : AreaAnswer) (block : Block) : Prop where
  handle : block.handle = area.handle
  isBo : block.isBo = decide (block.paddr = area.dma)
  vaddr : block.vaddr = if block.paddr = area.dma then area.vaddr
    else (area.vaddr + (block.paddr - area.dma)) % 2 ^ 32

namespace Pool

/--
The blocks cut the area without a gap and without idle neighbours, and when no buffer is out but
those of the new context, the list of blocks is the one of the new context.
-/
structure Coalesced (memSize : Nat) (area : AreaAnswer) (opened pool : Pool) : Prop where
  cut : Blocks.Cut Block.view area.dma (area.dma + memSize) pool.ctx.boList
  ofArea : ∀ block ∈ pool.ctx.boList, block.OfArea area
  restored : pool.outstanding = opened.outstanding → pool.ctx.boList = opened.ctx.boList

/-- An allocation asks for some bytes, and the blocks at hand suffice for it. -/
def Suffices (pool : Pool) : PoolStep → Prop
  | .alloc size _ => 0 < size ∧ takeIdle (alignSize size) pool.ctx.boList ≠ none
  | .free _ => True

/-- No block is split at size zero, and the buffer that the context keeps for itself is not freed. -/
def Spares (pool : Pool) (a : PoolStep) : Prop := SplitsBytes pool a ∧ a ≠ .free 0

/-- What the calls keep while one area is all there is. -/
structure OneArea (memSize : Nat) (area : AreaAnswer) (pool : Pool) : Prop extends Solid pool where
  bounded : area.dma + memSize ≤ 2 ^ 32
  cut : Blocks.Cut Block.view area.dma (area.dma + memSize) pool.ctx.boList
  ofArea : ∀ block ∈ pool.ctx.boList, block.OfArea area

/-- Besides, the first buffer is the one at the start of the area. -/
structure Shared (memSize : Nat) (area : AreaAnswer) (shared : Bo) (pool : Pool) : Prop
    extends OneArea memSize area pool where
  start : shared.paddr = area.dma
  first : ∃ others, pool.outstanding = shared :: others

variable {pool after : Pool} {memSize : Nat} {area : AreaAnswer} {shared : Bo}
  {blocks joined before : List Block} {curr : Block}

section Merge

/-- Merging to the front leaves the blocks before a block in use. -/
theorem mergePrev_stops (inner : (mergePrev before curr).2.isBo = false) :
    (mergePrev before curr).1 <:+ before ∧
      ∀ block ∈ (mergePrev before curr).1.head?, block.idle = false := by
  -- The induction is on the blocks before, which the loop swallows one after the other.
  induction before generalizing curr with
  | nil => simp [mergePrev]
  | cons prev before ih =>
    simp only [mergePrev] at inner ⊢
    split at inner
    case isTrue free =>
      rw [if_pos free]
      obtain ⟨suffix, stops⟩ := ih inner
      exact ⟨suffix.trans (List.suffix_cons prev before), stops⟩
    case isFalse stop =>
      rw [if_neg stop]
      refine ⟨List.suffix_refl _, fun block head => ?_⟩
      cases head
      -- The loop has not stopped because of the mark, so the block before is in use.
      cases idle : prev.idle with
      | false => rfl
      | true => exact absurd ⟨idle, inner⟩ stop

/-- Merging to the back leaves the blocks from the next one in use on. -/
theorem mergeNext_stops (curr : Block) (behind : List Block) :
    (mergeNext curr behind).2 <:+ behind ∧
      ∀ block ∈ (mergeNext curr behind).2.head?, block.idle = false := by
  -- The induction is on the blocks behind.
  induction behind generalizing curr with
  | nil => simp [mergeNext]
  | cons next behind ih =>
    simp only [mergeNext]
    split
    case isTrue =>
      obtain ⟨suffix, stops⟩ := ih (curr.grow next)
      exact ⟨suffix.trans (List.suffix_cons next behind), stops⟩
    case isFalse used =>
      refine ⟨List.suffix_refl _, fun block head => ?_⟩
      cases head
      simpa using used

/-- Joined blocks cover what the single ones did, and belong to the area as those did. -/
theorem tiles_of_joins {low high : Nat} (joins : Joins blocks joined)
    (tiles : Tiling.Tiles Block.region low blocks high)
    (ofArea : ∀ block ∈ blocks, block.OfArea area) :
    Tiling.Tiles Block.region low joined high ∧ ∀ block ∈ joined, block.OfArea area := by
  induction joins with
  | refl blocks => exact ⟨tiles, ofArea⟩
  | @join before behind joined x y idle same inner touch _ ih =>
    apply ih
    · -- The two are exchanged for the one that starts and ends where they do.
      have apart : before ++ x :: y :: behind = before ++ [x, y] ++ behind := by simp
      rw [apart] at tiles
      rw [List.append_cons]
      apply tiles.exchange
      intro start stop _ pair
      obtain ⟨first, second, last⟩ := pair
      refine ⟨first, ?_⟩
      show start + (x.size + y.size) = stop
      rw [← Nat.add_assoc]
      exact last
    · intro block member
      rcases List.mem_append.mp member with early | late
      · exact ofArea block (List.mem_append_left _ early)
      · rcases List.mem_cons.mp late with rfl | later
        · have whole := ofArea x (by simp)
          exact ⟨whole.handle, whole.isBo, whole.vaddr⟩
        · exact ofArea block
            (List.mem_append_right _ (List.mem_cons_of_mem _ (List.mem_cons_of_mem _ later)))

end Merge

/-- The rest of a block that is split belongs to the area when the first part has bytes. -/
theorem rest_ofArea {size : Nat} (ofArea : curr.OfArea area) (low : area.dma ≤ curr.paddr)
    (positive : 0 < size) (fits : curr.paddr + size < 2 ^ 32) :
    (curr.rest size).OfArea area := by
  have start : (curr.rest size).paddr = curr.paddr + size := Nat.mod_eq_of_lt fits
  have inner : ¬ curr.paddr + size = area.dma := by omega
  refine ⟨ofArea.handle, ?_, ?_⟩
  · rw [start, decide_eq_false inner]
    rfl
  · rw [start, if_neg inner]
    show (curr.vaddr + size) % 2 ^ 32 = _
    -- The mapping of the first part is that of the area, as far as the block lies in it.
    rw [ofArea.vaddr]
    split
    · rename_i here
      rw [here, Nat.add_sub_cancel_left]
    · rw [Nat.mod_add_mod, Nat.add_assoc, ← Nat.sub_add_comm low]

/-- An allocation that finds a block keeps the area cut, and gives out one buffer more. -/
theorem OneArea.alloc {size : Nat} {answer : Option AreaAnswer} {ok : Bool}
    (one : OneArea memSize area pool) (small : size < 2 ^ 32)
    (suffices_ : takeIdle (alignSize size) pool.ctx.boList ≠ none)
    (splits : SplitsBytes pool (.alloc size answer))
    (taken : pool.alloc size answer = some (ok, after)) : OneArea memSize area after ∧
      ∃ curr used, curr ∈ pool.ctx.boList ∧ used.paddr = curr.paddr ∧
        after.outstanding = pool.outstanding ++ [Block.toBo used size] := by
  have solid := one.toSolid.alloc small splits taken
  obtain ⟨_, ⟨used, list, found, -, rfl⟩ | ⟨none, _⟩ | ⟨none, _⟩⟩ := alloc_cases taken
  rotate_left
  · exact absurd none suffices_
  · exact absurd none suffices_
  obtain ⟨before, curr, next, shape, idle, cases⟩ := takeIdle_spec found
  have listed : curr ∈ pool.ctx.boList := by simp [shape]
  have cut := one.cut
  have ofArea := one.ofArea
  rw [shape] at cut ofArea
  have free : Block.view.busy curr = false := by simp [Block.view, idle]
  have within := cut.tiles.within (x := curr) (by simp)
  have whole := ofArea curr (by simp)
  have bounded := one.bounded
  rcases cases with ⟨rfl, rfl⟩ | ⟨fits, rfl, rfl⟩
  · -- The block is handed out as a whole.
    refine ⟨{ solid with bounded := bounded, cut := ?_, ofArea := ?_ },
      curr, { curr with idle := false }, listed, rfl, rfl⟩
    · have same := cut.take (y := { curr with idle := false }) free
        (Tiling.tiles_singleton.mpr ⟨rfl, rfl⟩) rfl (Or.inl rfl)
      simpa using same
    · intro block member
      rcases List.mem_append.mp member with early | late
      · exact ofArea block (List.mem_append_left _ early)
      · rcases List.mem_cons.mp late with rfl | later
        · exact ⟨whole.handle, whole.isBo, whole.vaddr⟩
        · exact ofArea block (List.mem_append_right _ (List.mem_cons_of_mem _ later))
  · -- The first bytes are handed out, and the rest starts behind them.
    have positive : 0 < alignSize size :=
      solid.bytes { curr with size := alignSize size, idle := false } (by simp)
    have high : curr.paddr + curr.size ≤ area.dma + memSize := within.2
    have room : curr.paddr + alignSize size < 2 ^ 32 := by omega
    have start : (curr.rest (alignSize size)).paddr = curr.paddr + alignSize size :=
      Nat.mod_eq_of_lt room
    refine ⟨{ solid with bounded := bounded, cut := ?_, ofArea := ?_ },
      curr, { curr with size := alignSize size, idle := false }, listed, rfl, rfl⟩
    · have covers : Tiling.Tiles Block.view.region (Block.view.region curr).start
          [{ curr with size := alignSize size, idle := false }, curr.rest (alignSize size)]
          ((Block.view.region curr).start + (Block.view.region curr).size) := by
        refine ⟨rfl, start, ?_⟩
        show curr.paddr + alignSize size + (curr.size - alignSize size) = curr.paddr + curr.size
        omega
      have parts := cut.take free covers rfl (Or.inr ⟨curr.rest (alignSize size), rfl, rfl⟩)
      simpa using parts
    · intro block member
      rcases List.mem_append.mp member with early | late
      · exact ofArea block (List.mem_append_left _ early)
      · rcases List.mem_cons.mp late with rfl | later
        · exact ⟨whole.handle, whole.isBo, whole.vaddr⟩
        · rcases List.mem_cons.mp later with rfl | last
          · exact rest_ofArea whole within.1 positive room
          · exact ofArea block (List.mem_append_right _ (List.mem_cons_of_mem _ last))

/-- Outstanding buffers start at different addresses. -/
theorem Solid.starts (solid : Solid pool) : (pool.outstanding.map Bo.paddr).Nodup := by
  -- They start where their blocks do, which all start at different addresses.
  have blocks : ((busy pool.ctx.boList).map Block.paddr).Nodup :=
    solid.distinct.sublist (List.filter_sublist.map _)
  have same := (solid.own.map Stretch.paddr).nodup_iff
  simp only [List.map_map] at same
  exact same.mp blocks

/-- Any buffer but the first one lies in a block inside the area. -/
theorem Shared.keeps {i : Nat} (kept : Shared memSize area shared pool) (other : i ≠ 0) :
    KeepsAreas pool (.free i) := by
  intro bo block given found
  have listed := List.mem_of_find?_eq_some found
  have address : block.paddr = bo.paddr := by simpa using List.find?_some found
  rw [(kept.ofArea block listed).isBo, decide_eq_false_iff_not]
  intro start
  -- The two buffers would start at one address.
  obtain ⟨others, out⟩ := kept.first
  have starts := kept.starts
  rw [out, List.map_cons, List.nodup_cons] at starts
  apply starts.1
  cases i with
  | zero => exact absurd rfl other
  | succ i =>
    rw [out, List.getElem?_cons_succ] at given
    rw [kept.start, ← start, address]
    exact List.mem_map_of_mem (List.mem_of_getElem? given)

/-- A free of any buffer but the first one keeps the area cut. -/
theorem Shared.freeBo {i : Nat} {bo : Bo} (kept : Shared memSize area shared pool) (other : i ≠ 0)
    (given : pool.outstanding[i]? = some bo) (taken : pool.freeBo i bo = some after) :
    Shared memSize area shared after := by
  have keeps := kept.keeps other
  obtain ⟨solid, _⟩ := kept.toSolid.freeBo given keeps taken
  obtain ⟨handle, before, curr, rest, found⟩ := kept.toKept.lookup given
  rw [freeBo_eq handle kept.unlocked found] at taken
  cases taken
  obtain ⟨shape, _, _⟩ := lookup_spec found
  simp only [List.reverse_nil, List.nil_append] at shape
  have inner : curr.isBo = false := keeps bo curr given (find?_of_lookup found)
  have layout := kept.layout
  have cut := kept.cut
  have ofArea := kept.ofArea
  rw [shape] at layout cut ofArea
  -- The loops join the block with the idle ones on both sides, up to those in use.
  have idle := layout.setIdle true fun _ => inner
  obtain ⟨front, free, inner'⟩ := mergePrev_joins idle rfl inner
  have joins := front.trans (mergeNext_joins (front.layout idle) free)
  obtain ⟨left, prev⟩ := mergePrev_stops inner'
  obtain ⟨right, next⟩ := mergeNext_stops (mergePrev before { curr with idle := true }).2 rest
  have chain := Splice.isChain_around.mp cut.single
  have tiles : Tiling.Tiles Block.region area.dma
      (before.reverse ++ { curr with idle := true } :: rest) (area.dma + memSize) := by
    refine (Tiling.tiles_congr ?_).mp cut.tiles
    simp [Block.region]
  have whole : ∀ block ∈ before.reverse ++ { curr with idle := true } :: rest,
      block.OfArea area := by
    intro block member
    rcases List.mem_append.mp member with early | late
    · exact ofArea block (List.mem_append_left _ early)
    · rcases List.mem_cons.mp late with rfl | later
      · have old := ofArea curr (by simp)
        exact ⟨old.handle, old.isBo, old.vaddr⟩
      · exact ofArea block (List.mem_append_right _ (List.mem_cons_of_mem _ later))
  obtain ⟨covered, belongs⟩ := tiles_of_joins joins tiles whole
  refine { solid with
    bounded := kept.bounded
    cut := ?_
    ofArea := belongs
    start := kept.start
    first := ?_ }
  · refine ⟨covered, by simp, Splice.isChain_around.mpr ⟨?_, ?_, ?_, ?_⟩⟩
    · obtain ⟨gone, same⟩ := left
      have kept := chain.1
      rw [← same, List.reverse_append] at kept
      exact kept.left_of_append
    · intro block last
      rw [List.getLast?_reverse] at last
      exact .inl (by simp [Block.view, prev block last])
    · intro block head
      exact .inr (by simp [Block.view, next block head])
    · exact chain.2.2.2.suffix right
  · obtain ⟨others, out⟩ := kept.first
    cases i with
    | zero => exact absurd rfl other
    | succ i => exact ⟨others.eraseIdx i, by rw [out, List.eraseIdx_cons_succ]⟩

/-- A call that finds its block and spares the first buffer keeps the area cut. -/
theorem Shared.step {a : PoolStep} (kept : Shared memSize area shared pool)
    (enough : Suffices pool a) (spares : Spares pool a) (taken : step pool a = some after) :
    Shared memSize area shared after := by
  -- Allocations put buffers behind the first one, and frees leave it where it is.
  rcases step_cases taken with
    ⟨size, answer, done, rfl, small, given⟩ | ⟨i, bo, rfl, given, freed⟩
  · obtain ⟨one, _, used, _, _, out⟩ := kept.toOneArea.alloc small enough.2 spares.1 given
    obtain ⟨others, first⟩ := kept.first
    refine { one with start := kept.start, first := ⟨others ++ [used.toBo size], ?_⟩ }
    rw [out, first, List.cons_append]
  · exact kept.freeBo (fun zero => spares.2 (by rw [zero])) given freed

/-- When the first buffer is alone, its block is in front and at most one idle block behind it. -/
theorem Shared.alone (kept : Shared memSize area shared pool)
    (alone : pool.outstanding = [shared]) : pool.ctx.boList =
      ⟨shared.esize, false, true, area.handle, area.dma, area.vaddr⟩ ::
        if shared.esize = memSize then []
        else [⟨memSize - shared.esize, true, false, area.handle, area.dma + shared.esize,
          (area.vaddr + shared.esize) % 2 ^ 32⟩] := by
  have own := kept.own
  rw [alone, List.map_singleton, List.perm_singleton] at own
  have cut := kept.cut
  have distinct := kept.distinct
  have ofArea := kept.ofArea
  have bytes := kept.bytes
  cases shape : pool.ctx.boList with
  | nil => exact absurd shape cut.filled
  | cons first rest =>
    rw [shape] at own cut distinct ofArea bytes
    obtain ⟨low, behind⟩ := cut.tiles
    have low : first.paddr = area.dma := low
    -- The block in use starts at the start of the area, as the first one does.
    have used : first.idle = false := by
      by_contra idle
      have idle : first.idle = true := by simpa using idle
      rw [busy_cons, idle, if_pos rfl] at own
      have listed : shared.stretch ∈ (busy rest).map Block.stretch := by simp [own]
      obtain ⟨block, inUse, same⟩ := List.mem_map.mp listed
      have start : block.paddr = shared.paddr := congrArg Stretch.paddr same
      rw [List.map_cons, List.nodup_cons] at distinct
      apply distinct.1
      rw [low, ← kept.start, ← start]
      exact List.mem_map_of_mem (mem_busy.mp inUse).1
    rw [busy_cons, used, if_neg Bool.false_ne_true, List.map_cons, List.cons.injEq,
      List.map_eq_nil_iff] at own
    obtain ⟨same, none⟩ := own
    have size : first.size = shared.esize := congrArg Stretch.size same
    have idle : ∀ block ∈ rest, block.idle = true := by
      intro block member
      by_contra inUse
      have listed : block ∈ busy rest := mem_busy.mpr ⟨member, by simpa using inUse⟩
      simp [none] at listed
    have mine := ofArea first List.mem_cons_self
    have front : first = ⟨shared.esize, false, true, area.handle, area.dma, area.vaddr⟩ := by
      obtain ⟨handle, isBo, vaddr⟩ := mine
      rw [low, decide_eq_true rfl] at isBo
      rw [low, if_pos rfl] at vaddr
      cases first
      simp_all
    rw [front]
    congr 1
    match rest, idle, behind, ofArea, cut.single, bytes with
    | [], _, behind, _, _, _ =>
      -- The block fills the area.
      have full : area.dma + first.size = area.dma + memSize := behind
      rw [if_pos (by omega)]
    | [block], idle, behind, ofArea, _, bytes =>
      have start : block.paddr = area.dma + first.size := behind.1
      have stop : area.dma + first.size + block.size = area.dma + memSize := behind.2
      have some := bytes block (by simp)
      have also := bytes first (by simp)
      rw [if_neg (by omega)]
      obtain ⟨handle, isBo, vaddr⟩ := ofArea block (by simp)
      have free := idle block (by simp)
      have inner : ¬ block.paddr = area.dma := by omega
      rw [decide_eq_false inner] at isBo
      rw [if_neg inner, start, Nat.add_sub_cancel_left, size] at vaddr
      have length : block.size = memSize - shared.esize := by omega
      rw [size] at start
      cases block
      simp_all
    | x :: y :: _, idle, _, _, single, _ =>
      -- Two idle blocks would be neighbours.
      have links := (List.isChain_cons_cons.mp (List.isChain_cons_cons.mp single).2).1
      simp [Block.view, idle x (by simp), idle y (by simp)] at links

/-- The first area of a new context is one idle block that covers it. -/
theorem OneArea.opened {ctx : Ctx} {task : Task} {table : BoTable}
    (unlocked : ctx.mutexLock = false) (none : ctx.boList = []) (positive : 0 < memSize)
    (small : memSize < 2 ^ 32)
    (created : createBoNode ⟨ctx, task, table, []⟩ memSize (some area) = some (true, pool)) :
    OneArea memSize area pool ∧ pool.outstanding = [] ∧
      ∀ block ∈ pool.ctx.boList, block.paddr = area.dma := by
  have solid := Solid.opened unlocked none positive small created
  simp only [createBoNode, unlocked, none, List.nil_append] at created
  split at created
  · cases created
  case h_2 grown appended =>
    cases created
    -- The kernel's areas lie in the memory, also when their size is rounded up to pages.
    have inside : area.dma + BoTable.roundUp memSize ≤ 2 ^ 32 :=
      (BoTable.append_spec appended).1.2.1
    have nonempty : 0 < BoTable.roundUp memSize := (BoTable.append_spec appended).1.1
    have bounded : area.dma + memSize ≤ 2 ^ 32 := by
      simp only [BoTable.roundUp] at inside nonempty
      omega
    refine ⟨{ solid with bounded := bounded, cut := Blocks.Cut.init rfl rfl, ofArea := ?_ }, rfl, ?_⟩
    · intro block member
      rw [List.mem_singleton.mp member]
      exact ⟨rfl, by simp, by simp⟩
    · intro block member
      rw [List.mem_singleton.mp member]

/-- A new context whose first area was large enough has its first buffer at the start of it. -/
theorem Shared.init {table : BoTable} {task : Task}
    (initialised : ctxInit table task memSize area none = some pool) :
    ∃ shared, Shared memSize area shared pool ∧ pool.outstanding = [shared] := by
  obtain ⟨large, small, opened, created, allocated⟩ := ctxInit_opened initialised
  obtain ⟨one, outstanding, starts⟩ :=
    OneArea.opened rfl rfl (Nat.zero_lt_of_lt large) small created
  -- With no second area to be had, the first one was large enough for the buffer.
  have enough : takeIdle (alignSize 0x10) opened.ctx.boList ≠ none := by
    intro full
    simp [Pool.alloc, full, one.unlocked, createBoNode] at allocated
  obtain ⟨whole, curr, used, listed, address, out⟩ := one.alloc (by decide) enough
    (fun zero => absurd zero (by decide)) allocated
  rw [outstanding, List.nil_append] at out
  refine ⟨used.toBo 0x10, { whole with start := ?_, first := ⟨[], out⟩ }, out⟩
  exact address.trans (starts curr listed)

/--
In every run that the first area suffices for, no two neighbouring blocks are idle, the blocks cover
the area one behind the other, and the frees together restore the list of the new context.

The run splits no block at size zero and leaves the context its own buffer.
-/
theorem coalesced_always {table : BoTable} {task : Task}
    (initialised : ctxInit table task memSize area none = some pool) (run : List PoolStep)
    (careful : Runs.Each step (fun s a _ => Suffices s a ∧ Spares s a) pool run) :
    Runs.Always step (Coalesced memSize area pool) pool run := by
  obtain ⟨shared, start, opened⟩ := Shared.init initialised
  refine (Runs.always_of_invariant (I := Shared memSize area shared) ?_ start careful).mono ?_
  · intro s a t kept taken given
    exact kept.step given.1 given.2 taken
  · intro s kept
    refine ⟨kept.cut, kept.ofArea, fun same => ?_⟩
    -- Both lists are what they are when the first buffer is alone.
    rw [kept.alone (same.trans opened), start.alone opened]

/-- Two buffers are handed out and given back in the same order. -/
def twoBuffers : List PoolStep := [.alloc 100 none, .alloc 3400 none, .free 1, .free 1]

/-- The list of blocks is cut all along the run, and restored in the end. -/
theorem coalesced_always_two : ∃ pool, onePage = some pool ∧
    Runs.Always step (Coalesced 4096 ⟨0, 1, 4096⟩ pool) pool twoBuffers := by
  obtain ⟨pool, initialised⟩ : ∃ pool, onePage = some pool := ⟨_, rfl⟩
  refine ⟨pool, initialised, coalesced_always initialised twoBuffers ?_⟩
  -- Both allocations find a block, and the frees are of the second buffer at the time.
  have one : onePage.map (fun s => (takeIdle (alignSize 100) s.ctx.boList).isSome) = some true := rfl
  have two : (onePage.bind fun s => step s (.alloc 100 none)).map
      (fun s => (takeIdle (alignSize 3400) s.ctx.boList).isSome) = some true := rfl
  simp only [initialised, Option.map_some, Option.some.injEq] at one
  refine fun t first => ⟨⟨⟨by decide, Option.isSome_iff_ne_none.mp one⟩,
    fun zero => absurd zero (by decide), by simp⟩, fun u second => ⟨⟨⟨by decide, ?_⟩,
    fun zero => absurd zero (by decide), by simp⟩, fun v third => ⟨⟨trivial, trivial, by simp⟩,
    fun w fourth => ⟨⟨trivial, trivial, by simp⟩, trivial⟩⟩⟩⟩
  simp only [initialised, Option.bind_some, first, Option.map_some, Option.some.injEq] at two
  exact Option.isSome_iff_ne_none.mp two

/-- A size that is rounded to zero is handed out, and the buffer behind it is given back first. -/
def wrappedRun : List PoolStep := [.alloc 0xFFFFFFFF none, .alloc 64 none, .free 2, .free 1]

/-- Both frees find the block without bytes, and the one of the second buffer stays in use. -/
theorem coalesced_wrapped : ∃ pool, onePage = some pool ∧
    Runs.Each step (fun s a _ => Suffices s a ∧ a ≠ .free 0) pool wrappedRun ∧
    ¬ Runs.Always step (Coalesced 4096 ⟨0, 1, 4096⟩ pool) pool wrappedRun := by
  obtain ⟨pool, initialised⟩ : ∃ pool, onePage = some pool := ⟨_, rfl⟩
  refine ⟨pool, initialised, ?_, fun always => ?_⟩
  · have one : onePage.map (fun s => (takeIdle (alignSize 0xFFFFFFFF) s.ctx.boList).isSome) =
        some true := rfl
    have two : (onePage.bind fun s => step s (.alloc 0xFFFFFFFF none)).map
        (fun s => (takeIdle (alignSize 64) s.ctx.boList).isSome) = some true := rfl
    simp only [initialised, Option.map_some, Option.some.injEq] at one
    refine fun t first => ⟨⟨⟨by decide, Option.isSome_iff_ne_none.mp one⟩, by simp⟩,
      fun u second => ⟨⟨⟨by decide, ?_⟩, by simp⟩, fun v third => ⟨⟨trivial, by simp⟩,
      fun w fourth => ⟨⟨trivial, by simp⟩, trivial⟩⟩⟩⟩
    simp only [initialised, Option.bind_some, first, Option.map_some, Option.some.injEq] at two
    exact Option.isSome_iff_ne_none.mp two
  · have state : (onePage.bind fun pool => (Runs.exec step pool wrappedRun).map fun t =>
        (decide (t.outstanding = pool.outstanding), decide (t.ctx.boList = pool.ctx.boList))) =
        some (true, false) := rfl
    rw [initialised, Option.bind_some] at state
    obtain ⟨final, reached, facts⟩ := Option.map_eq_some_iff.mp state
    rw [Prod.mk.injEq, decide_eq_true_eq, decide_eq_false_iff_not] at facts
    -- Only the first buffer is out in the end, and yet the list is not the one of the start.
    exact facts.2 ((always.last reached).restored facts.1)

end Pool

end Aip
