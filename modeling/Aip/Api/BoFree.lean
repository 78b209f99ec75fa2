import Aip.Api.Buffers
import Aip.Lib.Runs
import Aip.Pool.PoolSafe
import Mathlib.Data.List.MinMax
import Mathlib.Order.Nat

/-! The size that `iaic_get_bo_free` reports, against the idle blocks of the list. -/

namespace Aip.Pool

variable {ctx : Ctx} {thread : Nat}

/--
The fields `idle` and `size` at a place of the circular list, whose place 0 is the list head.

Read as a block, the head has the lock word for `idle` and the field `thread` of the context for
`size`.
-/
def entry (ctx : Ctx) (thread : Nat) : Nat → Bool × Nat
  | 0 => (ctx.mutexLock, thread)
  | place + 1 =>
    match ctx.boList[place]? with
    | some block => (block.idle, block.size)
    | none => (false, 0)

/-- The place before a place. -/
def prevPlace (ctx : Ctx) (place : Nat) : Nat :=
  if place = 0 then ctx.boList.length else place - 1

/-- The loop of `iaic_get_bo_free` with the place of `last_bo`. -/
def walkBack (ctx : Ctx) (thread : Nat) : Nat → Nat → Option Nat
  | 0, _ => none
  | fuel + 1, place =>
    if ¬ (entry ctx thread place).1 ∧ place ≠ 0 then walkBack ctx thread fuel (prevPlace ctx place)
    else some place

/-- `iaic_get_bo_free`, which returns the `size_t` as an `int`. -/
def getBoFree (ctx : Ctx) (thread : Nat) : Option Int :=
  (walkBack ctx thread (ctx.boList.length + 1) (prevPlace ctx 0)).map fun place =>
    ((entry ctx thread place).2 : Int).bmod (2 ^ 32)

/-- The largest size of an idle block, or 0. -/
def largestIdle (blocks : List Block) : Nat :=
  ((blocks.filter Block.idle).map Block.size).foldr max 0

/-- The allocation takes an area from the kernel. -/
def Grows (ctx : Ctx) (size : Nat) : Prop := takeIdle (alignSize size) ctx.boList = none

/-- The call returns the largest idle size, and no request of at most that size makes the pool grow. -/
def Reports (ctx : Ctx) (thread : Nat) : Prop :=
  ∃ value, getBoFree ctx thread = some value ∧ value = largestIdle ctx.boList ∧
    ∀ size < 2 ^ 32, (alignSize size : Int) ≤ value → ¬ Grows ctx size

/-- The last idle block is a largest one, and its size is an `int`. -/
def LastLargest (blocks : List Block) : Prop :=
  ∃ before last after, blocks = before ++ last :: after ∧ last.idle = true ∧
    (∀ block ∈ after, block.idle = false) ∧
    (∀ block ∈ blocks, block.idle = true → block.size ≤ last.size) ∧ last.size < 2 ^ 31

/-- A block of the list at its place. -/
theorem entry_block (thread : Nat) {before after : List Block} {block : Block}
    (list : ctx.boList = before ++ block :: after) :
    entry ctx thread (before.length + 1) = (block.idle, block.size) := by
  simp [entry, list]

/-- The walk passes blocks in use, the last one first. -/
theorem walkBack_pass (thread : Nat) {before after tail : List Block}
    (list : ctx.boList = before ++ (after ++ tail))
    (inUse : ∀ block ∈ after, block.idle = false) (fuel : Nat) :
    walkBack ctx thread (fuel + after.length) (before.length + after.length)
      = walkBack ctx thread fuel before.length := by
  -- The induction is on the blocks passed, of which the walk meets the last one first.
  induction after using List.reverseRecOn generalizing tail with
  | nil => rfl
  | append_singleton after block ih =>
    simp only [List.forall_mem_append, List.forall_mem_singleton] at inUse
    have split : ctx.boList = (before ++ after) ++ block :: tail := by simp [list]
    have here := entry_block thread split
    rw [inUse.2, List.length_append] at here
    simp only [List.length_append, List.length_singleton, ← Nat.add_assoc, walkBack, here, prevPlace]
    have shorter : ctx.boList = before ++ (after ++ block :: tail) := by simp [list]
    simpa using ih shorter inUse.1

/-- The walk stops at the last idle block. -/
theorem getBoFree_last {before after : List Block} {last : Block}
    (list : ctx.boList = before ++ last :: after) (idle : last.idle = true)
    (inUse : ∀ block ∈ after, block.idle = false) :
    getBoFree ctx thread = some ((last.size : Int).bmod (2 ^ 32)) := by
  -- The walk passes the blocks in use behind it, and then finds it idle.
  have here := entry_block thread list
  have front : ctx.boList = (before ++ [last]) ++ (after ++ []) := by simp [list]
  have length : ctx.boList.length = (before ++ [last]).length + after.length := by simp [list]; omega
  have passed := walkBack_pass thread front inUse (before.length + 2)
  have fuel : ctx.boList.length + 1 = before.length + 2 + after.length := by simp [list]; omega
  simp only [getBoFree, prevPlace, if_true, fuel]
  rw [length, passed]
  simp [walkBack, here, idle]

/-- With no idle block the walk ends at the list head. -/
theorem getBoFree_none (inUse : ∀ block ∈ ctx.boList, block.idle = false) :
    getBoFree ctx thread = some ((thread : Int).bmod (2 ^ 32)) := by
  -- All blocks are passed, and the field read next is that of the list head.
  have list : ctx.boList = [] ++ (ctx.boList ++ []) := by simp
  have passed := walkBack_pass thread list inUse 1
  rw [List.length_nil, Nat.zero_add] at passed
  simp only [getBoFree, prevPlace, if_true, Nat.add_comm ctx.boList.length 1, passed]
  simp [walkBack, entry]

/-- The largest idle size bounds the size of each idle block. -/
theorem le_largestIdle {blocks : List Block} {block : Block} (member : block ∈ blocks)
    (idle : block.idle = true) : block.size ≤ largestIdle blocks :=
  List.le_max_of_le (List.mem_map_of_mem (List.mem_filter.mpr ⟨member, idle⟩)) (Nat.le_refl _)

/-- The largest idle size is no more than a bound of the idle blocks. -/
theorem largestIdle_le {blocks : List Block} {size : Nat}
    (bound : ∀ block ∈ blocks, block.idle = true → block.size ≤ size) :
    largestIdle blocks ≤ size := by
  -- The sizes compared are those of idle blocks of the list.
  apply List.max_le_of_forall_le _ _
  intro bytes listed
  obtain ⟨block, member, rfl⟩ := List.mem_map.mp listed
  obtain ⟨member, idle⟩ := List.mem_filter.mp member
  exact bound block member idle

/-- The idle blocks of a list have a last one, or there are none. -/
theorem last_idle (blocks : List Block) :
    (∀ block ∈ blocks, block.idle = false) ∨
      ∃ before last after, blocks = before ++ last :: after ∧ last.idle = true ∧
        ∀ block ∈ after, block.idle = false := by
  -- The induction is on the blocks; a new first one is the last idle one only if it is the only one.
  induction blocks with
  | nil => exact .inl (by simp)
  | cons block blocks ih =>
    rcases ih with none | ⟨before, last, after, rfl, idle, inUse⟩
    · cases idle : block.idle with
      | false => exact .inl (List.forall_mem_cons.mpr ⟨idle, none⟩)
      | true => exact .inr ⟨[], block, blocks, rfl, idle, none⟩
    · exact .inr ⟨block :: before, last, after, rfl, idle, inUse⟩

/-- A size returned as an `int` is not less than before only below half of the range. -/
theorem le_bmod_iff {size : Nat} : (size : Int) ≤ (size : Int).bmod (2 ^ 32) ↔ size < 2 ^ 31 := by
  -- Above half of the range the number is negative.
  constructor
  · intro kept
    have bound : (size : Int).bmod (2 ^ 32) < ((2 ^ 32 : Nat) + 1) / 2 := Int.bmod_lt (by decide)
    omega
  · intro small
    exact (Int.bmod_eq_of_le (by omega) (by omega)).ge

/--
The backward walk ends, reports the largest idle size, and no request of that size makes the pool
grow, exactly if the last idle block is a largest one.
-/
theorem reports_iff (ctx : Ctx) (thread : Nat) : Reports ctx thread ↔ LastLargest ctx.boList := by
  constructor
  · rintro ⟨value, returned, same, serves⟩
    rcases last_idle ctx.boList with none | ⟨before, last, after, list, idle, inUse⟩
    · -- With no idle block even an empty request makes the pool grow.
      have zero : largestIdle ctx.boList = 0 := by
        refine Nat.le_zero.mp (largestIdle_le fun block member idle => ?_)
        simp [none block member] at idle
      refine absurd (takeIdle_eq_none.mpr fun block member idle => ?_) (serves 0 (by decide) ?_)
      · simp [none block member] at idle
      · rw [same, zero]
        decide
    · have member : last ∈ ctx.boList := by simp [list]
      obtain rfl := Option.some.inj ((getBoFree_last list idle inUse).symm.trans returned)
      -- The number reported bounds all idle sizes, among them the one it was made from.
      have low := le_largestIdle member idle
      have small : last.size < 2 ^ 31 := le_bmod_iff.mp (by omega)
      have exact : (last.size : Int).bmod (2 ^ 32) = last.size :=
        Int.bmod_eq_of_le (by omega) (by omega)
      refine ⟨before, last, after, list, idle, inUse, fun block listed free => ?_, small⟩
      have least := le_largestIdle listed free
      omega
  · rintro ⟨before, last, after, list, idle, inUse, largest, small⟩
    have member : last ∈ ctx.boList := by simp [list]
    have exact : (last.size : Int).bmod (2 ^ 32) = last.size :=
      Int.bmod_eq_of_le (by omega) (by omega)
    refine ⟨_, getBoFree_last list idle inUse, ?_, fun size _ fits grows => ?_⟩
    · rw [exact, Nat.le_antisymm (le_largestIdle member idle) (largestIdle_le largest)]
    · -- The last idle block would serve the request.
      have less := takeIdle_eq_none.mp grows last member idle
      omega

/--
In every state of a run of calls the report is right, exactly if in every state the last idle block
is a largest one.
-/
theorem reports_always_iff (pool : Pool) (run : List BoCall) :
    Runs.Always call (fun s => ∀ thread, Reports s.ctx thread) pool run
      ↔ Runs.Always call (fun s => LastLargest s.ctx.boList) pool run := by
  -- The two conditions agree in every state, so they agree over runs.
  constructor
  · exact Runs.Always.mono fun s reports => (reports_iff s.ctx 0).mp (reports 0)
  · exact Runs.Always.mono fun s largest thread => (reports_iff s.ctx thread).mpr largest

/-- Two buffers are created, and the first one, larger than all that is left, is destroyed. -/
def hole : List BoCall :=
  [.create 2048 none ⟨0, 0, 0, 0, 0, 0⟩, .create 64 none ⟨0, 0, 0, 0, 0, 0⟩,
    .destroy ⟨2048, 2048, 1, 64, 4160, 4160⟩]

/-- The call reports the 1920 bytes at the end, and 2048 bytes are idle before them. -/
theorem not_reports_hole : ∃ start pool, onePage = some start ∧
    Runs.exec call start hole = some pool ∧
    pool.ctx.boList.map (fun block => (block.size, block.idle))
      = [(64, false), (2048, true), (64, false), (1920, true)] ∧
    getBoFree pool.ctx 0 = some 1920 ∧ ¬ Reports pool.ctx 0 := by
  -- The three facts are computed together, so that the run is evaluated once.
  have state : (onePage.bind fun start => (Runs.exec call start hole).map fun pool =>
      (pool.ctx.boList.map (fun block => (block.size, block.idle)), getBoFree pool.ctx 0,
        largestIdle pool.ctx.boList))
      = some ([(64, false), (2048, true), (64, false), (1920, true)], some 1920, 2048) := by
    decide +kernel
  obtain ⟨start, initialised, state⟩ := Option.bind_eq_some_iff.mp state
  obtain ⟨pool, reached, facts⟩ := Option.map_eq_some_iff.mp state
  simp only [Prod.mk.injEq] at facts
  obtain ⟨blocks, reported, largest⟩ := facts
  refine ⟨start, pool, initialised, reached, blocks, reported, ?_⟩
  rintro ⟨value, returned, same, _⟩
  obtain rfl := Option.some.inj (reported.symm.trans returned)
  rw [largest] at same
  cases same

end Aip.Pool
