import Aip.Api.DestroyTwice
import Aip.Api.Images

/-! Which exits of the image helpers keep the books on buffers and jobs. -/

namespace Aip.Pool

/-- Every wait is for a job that the submit before it has produced. -/
def WaitsSound : Bool → List JobCall → Prop
  | _, [] => True
  | _, .submit ok :: calls => WaitsSound ok calls
  | produced, .wait :: calls => produced = true ∧ WaitsSound produced calls

/--
A helper leaves its destination outstanding when it succeeds and nothing when it fails, waits for
jobs that there are, and returns no destroyed buffer that looks live.
-/
structure Balanced (pool : Pool) (r : ImgResult) : Prop where
  count : r.pool.outstanding.Perm
    (if r.succeeded then pool.outstanding ++ [r.bo] else pool.outstanding)
  waits : WaitsSound false r.calls
  dead : r.destroyed = true → r.bo.handle = 0

/-- The helpers with the sizes and the format that decide what they create. -/
inductive Helper where
  | cvtFormat (wdt hgt : Nat) (format : ImgFormat)
  | resize (dstW dstH : Nat) (format : ImgFormat)
  | perspective (dstW dstH : Nat) (format : ImgFormat)
  deriving DecidableEq, Repr

namespace Helper

/-- The call of a helper. -/
def run (pool : Pool) (chip : Nat) (locals : ImgLocals) (a : ImgAnswers) :
    Helper → Option ImgResult
  | .cvtFormat wdt hgt format => pool.cvtFormat locals a wdt hgt format
  | .resize dstW dstH format => pool.resize chip locals a dstW dstH format
  | .perspective dstW dstH format => pool.perspective chip locals a dstW dstH format

/-- The destination that a helper creates first. -/
def createDst (pool : Pool) (locals : ImgLocals) (a : ImgAnswers) : Helper → Option Called
  | .cvtFormat wdt hgt format => pool.createBo (format.imgSize wdt hgt) a.dst locals.dst
  | .resize dstW dstH format => pool.createBo (format.imgSize dstW dstH) a.dst locals.dst
  | .perspective dstW dstH format =>
    pool.createBo ((if format = .nv12 then ImgFormat.bgra else format).imgSize dstW dstH) a.dst
      locals.dst

/-- The node buffer that a helper creates behind its destination. -/
def createNode (chip : Nat) (dst : Called) (locals : ImgLocals) (a : ImgAnswers) :
    Helper → Option Called
  | .cvtFormat _ _ _ => none
  | .resize _ _ _ => createFnode chip dst.pool fNodeSize a.node locals.node
  | .perspective _ _ _ => createPnode chip dst.pool pNodeSize a.node locals.node

/-- The destination, the node buffer, the submit and the wait of a helper with nodes all succeed. -/
def Completes (pool : Pool) (chip : Nat) (locals : ImgLocals) (a : ImgAnswers) (helper : Helper) :
    Prop :=
  (∃ dst node, helper.createDst pool locals a = some dst ∧ dst.code = .ok ∧
      helper.createNode chip dst locals a = some node ∧ node.code = .ok) ∧
    a.submit = true ∧ a.wait = true

/-- The exits of a helper that keep the books. -/
def Clean (pool : Pool) (chip : Nat) (locals : ImgLocals) (a : ImgAnswers) (helper : Helper) : Prop :=
  (∃ dst, helper.createDst pool locals a = some dst ∧ dst.code ≠ .ok) ∨
    match helper with
    | .cvtFormat _ hgt format =>
      format = .rgba2bgra ∨
        ((2 ≤ hgt ∧ a.submit = true) ∧ (a.wait = true ∨ pool.ctx.maxMemSize ≤ 1))
    | .resize _ _ _ => pool.ctx.maxMemSize ≤ 1 ∨ helper.Completes pool chip locals a
    | .perspective _ _ _ => pool.ctx.maxMemSize ≤ 1 ∧ ¬ helper.Completes pool chip locals a

end Helper

/-- How many blocks in use start at an address. -/
def busyAt (pool : Pool) (paddr : Nat) : Nat :=
  (busy pool.ctx.boList).countP fun block => block.paddr = paddr

variable {pool after : Pool} {memSize size i : Nat} {answer : Option AreaAnswer} {bo : Bo}
  {called gone : Called} {before rest : List Block} {curr : Block}

/-- Merging to the front swallows no block in use. -/
theorem mergePrev_busy (idle : curr.idle = true) :
    busy (mergePrev before curr).1 = busy before := by
  -- The induction is on the blocks before, which the loop swallows one after the other.
  induction before generalizing curr with
  | nil => rfl
  | cons prev before ih =>
    simp only [mergePrev]
    split
    case isTrue free =>
      have grown : (prev.grow curr).idle = true := free.1
      rw [ih grown, busy_cons, if_pos free.1]
    case isFalse => rfl

/-- Merging to the back swallows no block in use. -/
theorem mergeNext_busy (curr : Block) (rest : List Block) : busy (mergeNext curr rest).2 = busy rest := by
  -- The induction is on the blocks behind, of which only idle ones are swallowed.
  induction rest generalizing curr with
  | nil => rfl
  | cons next rest ih =>
    simp only [mergeNext]
    split
    case isTrue free => rw [ih (curr.grow next), busy_cons, if_pos free]
    case isFalse => rfl

/-- An allocation puts one more block in use, at the address of the buffer. -/
theorem alloc_busyAt (taken : pool.alloc size answer = some (true, after)) :
    ∃ new, after.outstanding = pool.outstanding ++ [new] ∧
      ∀ paddr, after.busyAt paddr = pool.busyAt paddr + if new.paddr = paddr then 1 else 0 := by
  obtain ⟨_, ⟨used, blocks, found, -, rfl⟩ | ⟨_, refused, _⟩ | ⟨_, -, area, table, _, _, rfl⟩⟩ :=
    alloc_cases taken
  · refine ⟨used.toBo size, rfl, fun paddr => ?_⟩
    obtain ⟨early, curr, late, list, idle, ⟨rfl, rfl⟩ | ⟨-, rfl, rfl⟩⟩ := takeIdle_spec found
    -- The rest of a block that is cut is idle.
    · simp only [busyAt, list, busy_append, busy_cons, idle, if_true, Bool.false_eq_true, if_false,
        List.countP_append, List.countP_cons, Block.toBo, decide_eq_true_eq]
      by_cases here : curr.paddr = paddr <;> simp only [here, if_true, if_false] <;> omega
    · simp only [busyAt, list, busy_append, busy_cons, idle, if_true, Bool.false_eq_true, if_false,
        List.countP_append, List.countP_cons, Block.toBo, Block.rest, decide_eq_true_eq]
      by_cases here : curr.paddr = paddr <;> simp only [here, if_true, if_false] <;> omega
  · cases refused
  · refine ⟨_, rfl, fun paddr => ?_⟩
    simp [busyAt, busy, List.countP_cons]

/-- A free takes at most one block out of use, and only at the address of the buffer. -/
theorem freeBo_busyAt (freed : pool.freeBo i bo = some after) (paddr : Nat) :
    pool.busyAt paddr ≤ after.busyAt paddr + if bo.paddr = paddr then 1 else 0 := by
  obtain ⟨_, rfl⟩ | ⟨_, _, ⟨_, rfl⟩ | ⟨before, curr, rest, found, rfl⟩⟩ := freeBo_cases freed
  · exact Nat.le_add_right _ _
  · exact Nat.le_add_right _ _
  · obtain ⟨list, address, -⟩ := lookup_spec found
    simp only [List.reverse_nil, List.nil_append] at list
    have idle : (mergeNext (mergePrev before { curr with idle := true }).2 rest).1.idle = true :=
      mergeNext_idle (mergePrev_idle rfl)
    -- Only the block that was looked up can have left the blocks in use.
    have front : busy (mergePrev before { curr with idle := true }).1.reverse = busy before.reverse := by
      rw [busy, List.filter_reverse, ← busy, mergePrev_busy rfl, busy, busy, List.filter_reverse]
    have back := mergeNext_busy (mergePrev before { curr with idle := true }).2 rest
    simp only [busyAt, list, busy_append, busy_cons, idle, if_true, front, back, List.countP_append,
      ← address]
    cases curr.idle with
    | true =>
      simp only [if_true]
      omega
    | false =>
      simp only [Bool.false_eq_true, if_false, List.countP_cons, decide_eq_true_eq]
      omega

/-- What a successful create leaves: one more buffer, with a handle and, in the pool, a block. -/
structure Created (memSize : Nat) (pool : Pool) (called : Called) : Prop where
  recorded : called.pool.outstanding = pool.outstanding ++ [called.bo]
  handle : called.bo.handle ≠ 0
  blocks : 1 < memSize → ∀ paddr, called.pool.busyAt paddr
    = pool.busyAt paddr + if called.bo.paddr = paddr then 1 else 0

/-- A create either succeeds or hands nothing out; what it destroys itself has no handle then. -/
theorem Ready.createBo_spec (ready : Ready memSize pool)
    (done : pool.createBo size answer bo = some called) :
    (called.code = .ok → Created memSize pool called) ∧
      (called.code ≠ .ok → called.pool.outstanding = pool.outstanding ∧
        (1 < memSize → called.pool = pool) ∧ (called.released ≠ [] → called.bo.handle = 0)) := by
  simp only [Pool.createBo, ready.mode] at done
  split at done
  case isTrue pooled =>
    obtain ⟨⟨given, after⟩, taken, rfl⟩ := Option.map_eq_some_iff.mp done
    cases given with
    | false =>
      obtain ⟨_, ⟨_, _, _, other, _⟩ | ⟨_, _, _, rfl⟩ | ⟨_, other, _⟩⟩ := alloc_cases taken
      · cases other
      · exact ⟨fun ok => (by cases ok), fun _ => ⟨rfl, fun _ => rfl, by simp⟩⟩
      · cases other
    | true =>
      refine ⟨fun _ => ?_, fun failed => absurd rfl failed⟩
      obtain ⟨new, outstanding, count⟩ := alloc_busyAt taken
      obtain ⟨_, recorded⟩ := ready.alloc taken
      obtain ⟨same, outstanding', handle⟩ := recorded rfl
      -- Both lemmas speak of the record at the end of the list.
      obtain rfl : new = same := by
        rw [outstanding] at outstanding'
        simpa using outstanding'
      have last : after.outstanding.getLastD bo = new := by simp [outstanding]
      simp only [if_true, last]
      exact ⟨outstanding, handle, fun _ => count⟩
  case isFalse direct =>
    obtain ⟨rfl, rfl⟩ | ⟨area, table, rfl, appended,
      ⟨_, _, _, _, failed, gone, rfl⟩ | ⟨_, record, handle, _, _, rfl⟩⟩ := directAllocBo_cases done
    · exact ⟨fun ok => (by cases ok), fun _ => ⟨rfl, fun _ => rfl, by simp⟩⟩
    · -- What is destroyed again has its handle cleared.
      have grown : Ready memSize { pool with table := table } :=
        ⟨ready.mode, ready.unlocked, ready.handles⟩
      have cleared := (grown.destroyBo gone).2.1 (Nat.le_of_not_lt direct)
      exact ⟨fun ok => absurd ok failed,
        fun _ => ⟨rfl, fun pooled => absurd pooled direct, fun _ => cleared⟩⟩
    · have live : record.handle ≠ 0 := by
        rw [handle]
        exact append_handle appended
      exact ⟨fun _ => ⟨rfl, live, fun pooled => absurd pooled direct⟩,
        fun failed => absurd rfl failed⟩

/-- A destroy of an outstanding buffer whose block is in use takes it off the books. -/
theorem Ready.destroyBo_spec (ready : Ready memSize pool) (handle : bo.handle ≠ 0)
    (inUse : 1 < memSize → 0 < pool.busyAt bo.paddr) :
    ∃ gone, pool.destroyBo bo = some gone ∧ Ready memSize gone.pool ∧
      gone.pool.outstanding = pool.outstanding.erase bo ∧
      (1 < memSize → gone.bo.handle ≠ 0 ∧
        ∀ paddr, pool.busyAt paddr ≤ gone.pool.busyAt paddr + if bo.paddr = paddr then 1 else 0) ∧
      (memSize ≤ 1 → gone.bo.handle = 0) := by
  -- The pool looks the block up, direct mode takes the handle from the record.
  by_cases pooled : 1 < memSize
  · -- A block in use at the address means that the free finds one.
    obtain ⟨block, member, address⟩ := List.countP_pos_iff.mp (inUse pooled)
    have address : block.paddr = bo.paddr := by simpa using address
    obtain ⟨before, curr, rest, found⟩ :
        ∃ before curr rest, lookup bo.paddr [] pool.ctx.boList = some (before, curr, rest) :=
      lookup_isSome (mem_busy.mp member).1 address
    have freed := freeBo_eq (i := pool.outstanding.idxOf bo) handle ready.unlocked found
    obtain ⟨gone, done⟩ : ∃ gone, pool.destroyBo bo = some gone := by
      rw [Pool.destroyBo, ready.mode, if_pos pooled]
      exact ⟨_, Option.map_eq_some_iff.mpr ⟨_, freed, rfl⟩⟩
    obtain ⟨kept, _, record⟩ := ready.destroyBo done
    have fast : pool.fastFreeBo bo = some gone := by
      rwa [Pool.destroyBo, ready.mode, if_pos pooled] at done
    obtain ⟨_, moved⟩ := fastFreeBo_spec fast
    refine ⟨gone, done, kept, ?_, fun _ => ⟨?_, freeBo_busyAt moved⟩,
      fun direct => absurd pooled (Nat.not_lt.mpr direct)⟩
    · rw [List.erase_eq_eraseIdx_of_idxOf rfl, ← Option.some.inj (freed.symm.trans moved)]
    · rwa [record pooled]
  · have done : pool.destroyBo bo = some (pool.directFreeBo bo) := by
      rw [Pool.destroyBo, ready.mode, if_neg pooled]
    obtain ⟨kept, cleared, _⟩ := ready.destroyBo done
    refine ⟨_, done, kept, ?_, fun other => absurd other pooled, cleared⟩
    rw [directFreeBo, if_neg handle]

section Exits

variable {s : Pool} {dst node : Called} {r : ImgResult} {calls : List JobCall}

/-- Taking a buffer off the books that was the last one put on them. -/
theorem erase_last {outstanding base : List Bo} (listed : outstanding.Perm (base ++ [bo])) :
    (outstanding.erase bo).Perm base := by
  have member : bo ∈ base ++ [bo] := by simp
  have last : (base ++ [bo]).Perm (bo :: base) := List.perm_append_singleton bo base
  exact (listed.erase bo).trans ((List.perm_cons_erase member).symm.trans last).cons_inv

/-- The exit without a destination keeps the books. -/
theorem noDst_balanced (ready : Ready memSize pool) (done : pool.createBo size answer bo = some dst)
    (failed : dst.code ≠ .ok) : Balanced pool (noDst dst) := by
  obtain ⟨recorded, -, cleared⟩ := (ready.createBo_spec done).2 failed
  refine ⟨by simp [noDst, recorded], trivial, fun destroyed => cleared ?_⟩
  simpa [noDst] using destroyed

/-- The exits that destroy the destination keep the books in direct mode only. -/
theorem dropDst_balanced (ready : Ready memSize s)
    (listed : s.outstanding.Perm (pool.outstanding ++ [bo])) (handle : bo.handle ≠ 0)
    (inUse : 1 < memSize → 0 < s.busyAt bo.paddr) (done : dropDst s bo calls = some r) :
    Balanced pool r ↔ memSize ≤ 1 ∧ WaitsSound false calls := by
  obtain ⟨gone, destroyed, _, erased, pooled, direct⟩ := ready.destroyBo_spec handle inUse
  simp only [dropDst, destroyed, Option.map_some, Option.some.injEq] at done
  subst done
  constructor
  · intro balanced
    refine ⟨Nat.le_of_not_lt fun mode => ?_, balanced.waits⟩
    -- The pool leaves the handle in the record.
    exact (pooled mode).1 (balanced.dead rfl)
  · rintro ⟨mode, waits⟩
    refine ⟨?_, waits, fun _ => direct mode⟩
    simp only [Bool.false_eq_true, if_false]
    rw [erased]
    exact erase_last listed

/-- A buffer just created is destroyable. -/
theorem Created.inUse (created : Created memSize pool dst) (pooled : 1 < memSize) :
    0 < dst.pool.busyAt dst.bo.paddr := by
  have count := created.blocks pooled dst.bo.paddr
  simp only [if_true] at count
  omega

/-- Destroying the node buffer leaves the destination on the books, with its block in use. -/
theorem dropNode (ready : Ready memSize node.pool) (first : Created memSize pool dst)
    (second : Created memSize dst.pool node) :
    ∃ gone, node.pool.destroyBo node.bo = some gone ∧ Ready memSize gone.pool ∧
      gone.pool.outstanding.Perm (pool.outstanding ++ [dst.bo]) ∧
      (1 < memSize → 0 < gone.pool.busyAt dst.bo.paddr) := by
  -- Of the two buffers the last one put on the books is taken off again.
  obtain ⟨gone, destroyed, kept, erased, pooled, _⟩ := ready.destroyBo_spec second.handle second.inUse
  refine ⟨gone, destroyed, kept, ?_, fun mode => ?_⟩
  · rw [erased, ← first.recorded]
    exact erase_last (by rw [second.recorded])
  · -- The two buffers may share an address, if the destination is empty.
    have both := second.blocks mode dst.bo.paddr
    have left := (pooled mode).2 dst.bo.paddr
    have old := first.inUse mode
    omega

/-- The chain functions create a buffer if there are nodes. -/
theorem createNodes_some {nodeSize chip num : Nat} (positive : 0 < num)
    (done : createNodes nodeSize chip pool num answer bo = some called) :
    ∃ size, pool.createBo size answer bo = some called := by
  rw [createNodes, if_neg (by omega)] at done
  exact ⟨_, done⟩

end Exits

variable {chip : Nat} {locals : ImgLocals} {a : ImgAnswers} {r : ImgResult}

/-- The exits of `iaic_cvt_format`. -/
theorem cvtFormat_balanced {wdt hgt : Nat} {format : ImgFormat} (ready : Ready memSize pool)
    (done : pool.cvtFormat locals a wdt hgt format = some r) :
    Balanced pool r ↔ (Helper.cvtFormat wdt hgt format).Clean pool chip locals a := by
  -- The exits in the order of the source.
  obtain ⟨dst, created, done⟩ := Option.bind_eq_some_iff.mp done
  simp only [Helper.Clean, Helper.createDst, created, Option.some.injEq, exists_eq_left', ready.mode]
  by_cases failed : dst.code ≠ .ok
  · rw [if_pos failed] at done
    cases done
    exact iff_of_true (noDst_balanced ready created failed) (.inl failed)
  rw [if_neg failed] at done
  have first := (ready.createBo_spec created).1 (by simpa using failed)
  simp only [failed, false_or]
  by_cases swapped : format = .rgba2bgra
  · rw [if_pos swapped] at done
    cases done
    exact iff_of_true ⟨by simp [first.recorded], trivial, nofun⟩ (.inl swapped)
  rw [if_neg swapped] at done
  simp only [swapped, false_or]
  by_cases timedOut : a.wait = false
  · rw [if_pos timedOut] at done
    rw [dropDst_balanced (ready.createBo created).1 (by rw [first.recorded]) first.handle first.inUse done]
    simp [WaitsSound, timedOut, and_comm]
  · rw [if_neg timedOut] at done
    cases done
    have waited : a.wait = true := by simpa using timedOut
    constructor
    · intro balanced
      have waits := balanced.waits
      simp only [WaitsSound, and_true, Bool.and_eq_true, decide_eq_true_eq] at waits
      exact ⟨waits, .inl waited⟩
    · rintro ⟨submitted, _⟩
      refine ⟨by simp [first.recorded], ?_, nofun⟩
      simpa [WaitsSound] using submitted

/-- The exits of the helpers with a node buffer: the last one, or one that destroys. -/
theorem node_exits {dst node : Called} {last : Option ImgResult} {num nodeSize : Nat}
    (ready : Ready memSize dst.pool) (first : Created memSize pool dst) (positive : 0 < num)
    (created : createNodes nodeSize chip dst.pool num answer bo = some node)
    (done : (if node.code ≠ .ok then dropDst node.pool dst.bo []
      else if a.submit = false then
        (node.pool.destroyBo node.bo).bind fun gone => dropDst gone.pool dst.bo [.submit false]
      else if a.wait = false then
        (node.pool.destroyBo node.bo).bind fun gone => dropDst gone.pool dst.bo [.submit true, .wait]
      else last) = some r) :
    ((node.code = .ok ∧ a.submit = true ∧ a.wait = true) ∧ last = some r ∧
        Created memSize dst.pool node ∧ Ready memSize node.pool) ∨
      (¬ (node.code = .ok ∧ a.submit = true ∧ a.wait = true) ∧ (Balanced pool r ↔ memSize ≤ 1)) := by
  obtain ⟨size, made⟩ := createNodes_some positive created
  have kept := (ready.createBo made).1
  by_cases failed : node.code ≠ .ok
  · rw [if_pos failed] at done
    obtain ⟨same, unchanged, _⟩ := (ready.createBo_spec made).2 failed
    refine .inr ⟨fun all => failed all.1, ?_⟩
    -- A failed create leaves the blocks of the pool as they are.
    have inUse (pooled : 1 < memSize) : 0 < node.pool.busyAt dst.bo.paddr := by
      rw [unchanged pooled]
      exact first.inUse pooled
    rw [dropDst_balanced kept (by rw [same, first.recorded]) first.handle inUse done]
    simp [WaitsSound]
  rw [if_neg failed] at done
  have ok : node.code = .ok := by simpa using failed
  have second := (ready.createBo_spec made).1 ok
  obtain ⟨gone, destroyed, left, listed, inUse⟩ := dropNode kept first second
  by_cases refused : a.submit = false
  · rw [if_pos refused, destroyed, Option.bind_some] at done
    refine .inr ⟨fun all => by simp [all.2.1] at refused, ?_⟩
    rw [dropDst_balanced left listed first.handle inUse done]
    simp [WaitsSound]
  rw [if_neg refused] at done
  by_cases timedOut : a.wait = false
  · rw [if_pos timedOut, destroyed, Option.bind_some] at done
    refine .inr ⟨fun all => by simp [all.2.2] at timedOut, ?_⟩
    rw [dropDst_balanced left listed first.handle inUse done]
    simp [WaitsSound]
  · rw [if_neg timedOut] at done
    exact .inl ⟨⟨ok, by simpa using refused, by simpa using timedOut⟩, done, second, kept⟩

/-- Both buffers are known, so completing is a matter of what comes after them. -/
theorem completes_iff {helper : Helper} {dst node : Called}
    (created : helper.createDst pool locals a = some dst) (ok : dst.code = .ok)
    (made : helper.createNode chip dst locals a = some node) :
    helper.Completes pool chip locals a ↔ node.code = .ok ∧ a.submit = true ∧ a.wait = true := by
  -- Both creates are functions of the answers, so there is one result of each.
  constructor
  · rintro ⟨⟨dst', node', created', _, made', done⟩, rest⟩
    cases created.symm.trans created'
    cases made.symm.trans made'
    exact ⟨done, rest⟩
  · rintro ⟨done, rest⟩
    exact ⟨⟨dst, node, created, ok, made, done⟩, rest⟩

/-- A helper with a node buffer ends without a destination, or it gets to the exits behind it. -/
theorem helper_exits (helper : Helper) {last : Called → Called → Option ImgResult}
    {num nodeSize : Nat} (ready : Ready memSize pool) (positive : 0 < num)
    (sized : helper.createDst pool locals a = pool.createBo size a.dst locals.dst)
    (counted : ∀ dst, helper.createNode chip dst locals a =
      createNodes nodeSize chip dst.pool num a.node locals.node)
    (done : ((pool.createBo size a.dst locals.dst).bind fun dst =>
      if dst.code ≠ .ok then some (noDst dst)
      else (createNodes nodeSize chip dst.pool num a.node locals.node).bind fun node =>
        if node.code ≠ .ok then dropDst node.pool dst.bo []
        else if a.submit = false then
          (node.pool.destroyBo node.bo).bind fun gone => dropDst gone.pool dst.bo [.submit false]
        else if a.wait = false then
          (node.pool.destroyBo node.bo).bind fun gone => dropDst gone.pool dst.bo [.submit true, .wait]
        else last dst node) = some r) :
    (∃ dst, helper.createDst pool locals a = some dst ∧ dst.code ≠ .ok ∧ Balanced pool r) ∨
    ∃ dst node, helper.createDst pool locals a = some dst ∧ dst.code = .ok ∧
      ((helper.Completes pool chip locals a ∧ last dst node = some r ∧ Created memSize pool dst ∧
          Created memSize dst.pool node ∧ Ready memSize node.pool) ∨
        (¬ helper.Completes pool chip locals a ∧ (Balanced pool r ↔ memSize ≤ 1))) := by
  obtain ⟨dst, created, done⟩ := Option.bind_eq_some_iff.mp done
  have first : helper.createDst pool locals a = some dst := sized.trans created
  by_cases failed : dst.code ≠ .ok
  · rw [if_pos failed] at done
    cases done
    exact .inl ⟨dst, first, failed, noDst_balanced ready created failed⟩
  rw [if_neg failed] at done
  have ok : dst.code = .ok := by simpa using failed
  have given := (ready.createBo_spec created).1 ok
  obtain ⟨node, made, done⟩ := Option.bind_eq_some_iff.mp done
  have second : helper.createNode chip dst locals a = some node := (counted dst).trans made
  refine .inr ⟨dst, node, first, ok, ?_⟩
  -- Completing is what is left to decide once both buffers are there.
  rw [completes_iff first ok second]
  rcases node_exits (ready.createBo created).1 given positive made done with
    ⟨all, ended, kept, left⟩ | stopped
  · exact .inl ⟨all, ended, given, kept, left⟩
  · exact .inr stopped

/-- The exits of `iaic_resize`. -/
theorem resize_balanced {dstW dstH : Nat} {format : ImgFormat} (ready : Ready memSize pool)
    (done : pool.resize chip locals a dstW dstH format = some r) :
    Balanced pool r ↔ (Helper.resize dstW dstH format).Clean pool chip locals a := by
  simp only [Helper.Clean, ready.mode]
  rcases helper_exits (.resize dstW dstH format) ready (by decide) rfl (fun _ => rfl) done with
    ⟨dst, created, failed, balanced⟩ |
      ⟨dst, node, created, ok, ⟨all, last, given, kept, left⟩ | ⟨stopped, balanced⟩⟩
  · exact iff_of_true balanced (.inl ⟨dst, created, failed⟩)
  · -- The last exit destroys the node buffer and returns the destination.
    obtain ⟨gone, destroyed, _, listed, _⟩ := dropNode left given kept
    simp only [destroyed, Option.map_some, Option.some.injEq] at last
    subst last
    refine iff_of_true ⟨?_, ?_, nofun⟩ (.inr (.inr all))
    · simpa using listed
    · simp [WaitsSound]
  · rw [balanced, or_iff_left stopped]
    simp [created, ok]

/-- The exits of `iaic_perspective`. -/
theorem perspective_balanced {dstW dstH : Nat} {format : ImgFormat} (ready : Ready memSize pool)
    (done : pool.perspective chip locals a dstW dstH format = some r) :
    Balanced pool r ↔ (Helper.perspective dstW dstH format).Clean pool chip locals a := by
  simp only [Helper.Clean, ready.mode]
  rcases helper_exits (.perspective dstW dstH format) ready (by decide) rfl (fun _ => rfl) done with
    ⟨dst, created, failed, balanced⟩ |
      ⟨dst, node, created, ok, ⟨all, last, given, kept, left⟩ | ⟨stopped, balanced⟩⟩
  · exact iff_of_true balanced (.inl ⟨dst, created, failed⟩)
  · -- The last exit leaves the node buffer outstanding, so there is one buffer too many.
    cases last
    refine iff_of_false (fun balanced => ?_) fun clean => ?_
    · have length := balanced.count.length_eq
      simp [kept.recorded, given.recorded] at length
    · rcases clean with ⟨other, created', failed⟩ | ⟨_, incomplete⟩
      · cases created.symm.trans created'
        exact failed ok
      · exact incomplete all
  · rw [balanced, and_iff_left stopped]
    simp [created, ok]

/--
After any calls on a context, an image helper keeps the books exactly in the cases listed: without
a destination; a conversion that the processor does, or that is submitted and then ends or runs
without a pool; a resize that completes or runs without a pool; a perspective that fails without a
pool.
-/
theorem imageBalanced_iff {table : BoTable} {task : Task} {area : AreaAnswer}
    {shared : Option AreaAnswer} {start : Pool} {calls : List BoCall}
    (initialised : initCtx table task memSize area shared = some start)
    (reached : Runs.exec call start calls = some pool) (helper : Helper)
    (done : helper.run pool chip locals a = some r) :
    Balanced pool r ↔ helper.Clean pool chip locals a := by
  -- The runs before the helper only have to keep the context ready.
  have ready := (Ready.init initialised).run reached
  cases helper with
  | cvtFormat wdt hgt format => exact cvtFormat_balanced ready done
  | resize dstW dstH format => exact resize_balanced ready done
  | perspective dstW dstH format => exact perspective_balanced ready done

/-- A context with sixteen pages, and answers without an area. -/
def sixteenPages : Option Pool := initCtx .init ⟨1, 1⟩ 65536 ⟨0, 1, 65536⟩ none

/-- A conversion whose job ends leaves the image of 128 bytes outstanding. -/
theorem imageBalanced_iff_converted : ∃ start r, sixteenPages = some start ∧
    (Helper.cvtFormat 16 2 .bgra).run start chipA1 ⟨⟨0, 0, 0, 0, 0, 0⟩, ⟨0, 0, 0, 0, 0, 0⟩⟩
      ⟨none, none, true, true⟩ = some r ∧ Balanced start r := by
  -- The call is evaluated for its result alone.
  have state : (sixteenPages.bind fun start =>
      (Helper.cvtFormat 16 2 .bgra).run start chipA1 ⟨⟨0, 0, 0, 0, 0, 0⟩, ⟨0, 0, 0, 0, 0, 0⟩⟩
        ⟨none, none, true, true⟩).map (fun r => r.succeeded) = some true := by
    decide +kernel
  obtain ⟨r, both, _⟩ := Option.map_eq_some_iff.mp state
  obtain ⟨start, initialised, done⟩ := Option.bind_eq_some_iff.mp both
  have stays : Runs.exec call start [] = some start := rfl
  exact ⟨start, r, initialised, done, (imageBalanced_iff initialised stays _ done).mpr
    (.inr (.inr ⟨⟨Nat.le_refl 2, rfl⟩, .inl rfl⟩))⟩

/--
A conversion that is refused waits nevertheless, a resize that is refused returns a destroyed buffer
with its handle, and a perspective that completes leaves two buffers outstanding.
-/
theorem not_balanced_helpers : ∃ start, sixteenPages = some start ∧
    (∃ r, (Helper.cvtFormat 16 2 .bgra).run start chipA1
        ⟨⟨0, 0, 0, 0, 0, 0⟩, ⟨0, 0, 0, 0, 0, 0⟩⟩ ⟨none, none, false, true⟩ = some r ∧
      ¬ Balanced start r) ∧
    (∃ r, (Helper.resize 16 2 .bgra).run start chipA1
        ⟨⟨0, 0, 0, 0, 0, 0⟩, ⟨0, 0, 0, 0, 0, 0⟩⟩ ⟨none, none, false, true⟩ = some r ∧
      ¬ Balanced start r) ∧
    ∃ r, (Helper.perspective 16 2 .bgra).run start chipA1
        ⟨⟨0, 0, 0, 0, 0, 0⟩, ⟨0, 0, 0, 0, 0, 0⟩⟩ ⟨none, none, true, true⟩ = some r ∧
      ¬ Balanced start r := by
  -- The facts of all three calls are computed together.
  have state : sixteenPages.bind (fun start =>
      ((Helper.cvtFormat 16 2 .bgra).run start chipA1
        ⟨⟨0, 0, 0, 0, 0, 0⟩, ⟨0, 0, 0, 0, 0, 0⟩⟩ ⟨none, none, false, true⟩).bind fun r =>
      ((Helper.resize 16 2 .bgra).run start chipA1
        ⟨⟨0, 0, 0, 0, 0, 0⟩, ⟨0, 0, 0, 0, 0, 0⟩⟩ ⟨none, none, false, true⟩).bind fun r' =>
      ((Helper.perspective 16 2 .bgra).run start chipA1
        ⟨⟨0, 0, 0, 0, 0, 0⟩, ⟨0, 0, 0, 0, 0, 0⟩⟩ ⟨none, none, true, true⟩).map fun r'' =>
          (r.calls, (r'.destroyed, r'.bo.handle),
            (start.outstanding.length, r''.succeeded, r''.pool.outstanding.length)))
      = some ([.submit false, .wait], (true, 1), (1, true, 3)) := by
    decide +kernel
  obtain ⟨start, initialised, state⟩ := Option.bind_eq_some_iff.mp state
  obtain ⟨r, converted, state⟩ := Option.bind_eq_some_iff.mp state
  obtain ⟨r', resized, state⟩ := Option.bind_eq_some_iff.mp state
  obtain ⟨r'', turned, facts⟩ := Option.map_eq_some_iff.mp state
  simp only [Prod.mk.injEq] at facts
  obtain ⟨calls, ⟨destroyed, handle⟩, one, succeeded, three⟩ := facts
  refine ⟨start, initialised, ⟨r, converted, fun balanced => ?_⟩, ⟨r', resized, fun balanced => ?_⟩,
    ⟨r'', turned, fun balanced => ?_⟩⟩
  · have waits := balanced.waits
    simp [calls, WaitsSound] at waits
  · have dead := balanced.dead destroyed
    omega
  · have length := balanced.count.length_eq
    simp only [succeeded, if_true, List.length_append, List.length_singleton] at length
    omega

end Aip.Pool
