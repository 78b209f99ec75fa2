import Aip.Api.Buffers
import Aip.Pool.PoolSafe

/-! How large the buffer is that an allocation hands out, over the whole range of the sizes. -/

namespace Aip.Pool

/-- The calls that end in `iaic_fast_alloc_bo`; a `size_t` and an `int` have 32 bits. -/
inductive Request where
  | fast (size : Nat)
  | bo (size : Nat)
  | fnode (num : Int)
  | pnode (num : Int)
  deriving DecidableEq, Repr

namespace Request

/-- The argument is one that its type has. -/
def Valid : Request → Prop
  | .fast size | .bo size => size < 2 ^ 32
  | .fnode num | .pnode num => -2 ^ 31 ≤ num ∧ num < 2 ^ 31

/-- The call with its request, on a chip. -/
def run (chip : Nat) (pool : Pool) (answer : Option AreaAnswer) (bo : Bo) :
    Request → Option Called
  | .fast size => pool.fastAllocBo size answer bo
  | .bo size => pool.createBo size answer bo
  | .fnode num => createFnode chip pool num answer bo
  | .pnode num => createPnode chip pool num answer bo

/-- The pool serves the request: `iaic_create_bo` asks it in one of its two modes only. -/
def Pooled (pool : Pool) : Request → Prop
  | .fast _ => True
  | .bo _ | .fnode _ | .pnode _ => 1 < pool.ctx.maxMemSize

/-- The nodes of a chain, one more on A1. -/
def nodes (chip : Nat) (num : Int) : Nat := num.toNat + if chip = chipA1 then 1 else 0

/-- The bytes asked for, a product of numbers without a bound. -/
def bytes (chip : Nat) : Request → Nat
  | .fast size | .bo size => size
  | .fnode num => nodes chip num * fNodeSize
  | .pnode num => nodes chip num * pNodeSize

/-- A chain of no nodes gets no buffer, and the call reports success. -/
def Empty : Request → Prop
  | .fast _ | .bo _ => False
  | .fnode num | .pnode num => num < 1

end Request

/-- The buffer that a call hands out has the bytes asked for. -/
def LargeEnough (chip : Nat) (pool : Pool) (request : Request) (called : Called) : Prop :=
  called.pool.outstanding = pool.outstanding ++ [called.bo] →
    called.bo.size = request.bytes chip ∧ called.bo.size ≤ called.bo.esize

/-- Rounding up to 64 bytes gives a size that is large enough, unless it wraps. -/
theorem le_alignSize {size : Nat} (bounded : size + 63 < 2 ^ 32) : size ≤ alignSize size := by
  simp only [alignSize, Nat.mod_eq_of_lt bounded]
  omega

/-- A size close to the end of 32 bits is rounded to nothing. -/
theorem alignSize_wraps {size : Nat} (bounded : size < 2 ^ 32) (wraps : 2 ^ 32 ≤ size + 63) :
    alignSize size = 0 := by
  simp only [alignSize]
  omega

/-- The block handed out has the size asked for, and less than 0x200 bytes more. -/
theorem takeIdle_size {size : Nat} {blocks rest : List Block} {used : Block}
    (taken : takeIdle size blocks = some (used, rest)) : size ≤ used.size ∧ used.size < size + 0x200 := by
  -- The induction follows the loop past the blocks that it skips.
  induction blocks generalizing rest with
  | nil => simp [takeIdle] at taken
  | cons curr after ih =>
    simp only [takeIdle] at taken
    split at taken
    case isTrue fits =>
      split at taken
      · cases taken
        exact ⟨fits.2, by dsimp only; omega⟩
      · cases taken
        exact ⟨Nat.le_refl _, by simp⟩
    case isFalse =>
      obtain ⟨⟨other, tail⟩, found, same⟩ := Option.map_eq_some_iff.mp taken
      cases same
      exact ih found

/-- The kernel has no area for a size that wraps when it is rounded up to pages. -/
theorem append_size {table grown : BoTable} {pid size dma id : Nat} (bounded : size < 2 ^ 32)
    (taken : table.append pid size dma id = some grown) : size + 63 < 2 ^ 32 := by
  have nonempty : 0 < BoTable.roundUp size := (BoTable.append_spec taken).1.1
  simp only [BoTable.roundUp] at nonempty
  omega

/-- What a successful allocation records, and when the block has the bytes asked for. -/
theorem alloc_size {pool after : Pool} {size : Nat} {answer : Option AreaAnswer}
    (bounded : size < 2 ^ 32) (taken : pool.alloc size answer = some (true, after)) :
    ∃ bo, after.outstanding = pool.outstanding ++ [bo] ∧ bo.size = size ∧
      (bo.size ≤ bo.esize ↔ size + 63 < 2 ^ 32) := by
  obtain ⟨_, ⟨used, blocks, found, -, rfl⟩ | ⟨_, refused, _⟩ | ⟨_, -, area, table, _, appended, rfl⟩⟩ :=
    alloc_cases taken
  · -- A block of the list has at least the rounded size, and less than 0x200 bytes more.
    refine ⟨used.toBo size, rfl, rfl, ?_⟩
    obtain ⟨low, high⟩ := takeIdle_size found
    constructor
    · -- After a wrap the block is smaller than 0x200 bytes, and the size is not.
      intro covers
      by_contra wraps
      rw [alignSize_wraps bounded (by omega)] at high
      simp only [Block.toBo] at covers
      omega
    · intro fits
      exact (le_alignSize fits).trans low
  · cases refused
  · exact ⟨_, rfl, rfl, iff_of_true (Nat.le_refl _) (append_size bounded appended)⟩

/-- A successful call of `iaic_fast_alloc_bo` gives the caller the buffer that it records. -/
theorem fastAllocBo_size {pool : Pool} {size : Nat} {answer : Option AreaAnswer} {bo : Bo}
    {called : Called} (bounded : size < 2 ^ 32)
    (done : pool.fastAllocBo size answer bo = some called) (ok : called.code = .ok) :
    called.pool.outstanding = pool.outstanding ++ [called.bo] ∧ called.bo.size = size ∧
      (called.bo.size ≤ called.bo.esize ↔ size + 63 < 2 ^ 32) := by
  -- The record is the one that the allocation has put at the end of the list.
  obtain ⟨⟨given, after⟩, taken, rfl⟩ := Option.map_eq_some_iff.mp done
  cases given with
  | false => cases ok
  | true =>
    obtain ⟨new, recorded, facts⟩ := alloc_size bounded taken
    have last : after.outstanding.getLastD bo = new := by simp [recorded]
    simp only [if_true, last]
    exact ⟨recorded, facts⟩

/-- The size that reaches `iaic_create_bo` is the product on 32 bits. -/
theorem nodes_size {nodeSize chip : Nat} {num : Int} (more : ¬ num < 1) (valid : num < 2 ^ 31) :
    ((if chip = chipA1 then (num + 1).bmod (2 ^ 32) else num) % 2 ^ 32).toNat * nodeSize % 2 ^ 32
      = Request.nodes chip num * nodeSize % 2 ^ 32 := by
  -- Only the increment of the largest number leaves the range of an `int`.
  have count : ((if chip = chipA1 then (num + 1).bmod (2 ^ 32) else num) % 2 ^ 32).toNat
      = Request.nodes chip num := by
    simp only [Request.nodes]
    split
    · have wrapped : (num + 1).bmod (2 ^ 32) % 2 ^ 32 = (num + 1) % 2 ^ 32 := Int.bmod_emod
      omega
    · omega
  rw [count]

section Chains

variable {nodeSize chip : Nat} {pool : Pool} {num : Int} {answer : Option AreaAnswer} {bo : Bo}
  {called : Called}

/-- A chain's buffer is large enough exactly if its size does not reach the end of 32 bits. -/
theorem createNodes_size (valid : num < 2 ^ 31) (pooled : 1 < pool.ctx.maxMemSize)
    (done : createNodes nodeSize chip pool num answer bo = some called) (ok : called.code = .ok) :
    (called.pool.outstanding = pool.outstanding ++ [called.bo] →
        called.bo.size = Request.nodes chip num * nodeSize ∧ called.bo.size ≤ called.bo.esize)
      ↔ num < 1 ∨ Request.nodes chip num * nodeSize + 63 < 2 ^ 32 := by
  simp only [createNodes] at done
  split at done
  case isTrue none =>
    -- Nothing is handed out.
    cases done
    exact iff_of_true (fun recorded => by simp at recorded) (.inl none)
  case isFalse more =>
    rw [nodes_size more valid, createBo, if_pos pooled] at done
    obtain ⟨recorded, size, covers⟩ := fastAllocBo_size (Nat.mod_lt _ (by decide)) done ok
    simp only [recorded, forall_const, more, false_or, covers]
    rw [size]
    constructor
    · rintro ⟨exact, fits⟩
      omega
    · intro fits
      rw [Nat.mod_eq_of_lt (by omega)]
      exact ⟨rfl, fits⟩

end Chains

/--
A successful call that the pool serves hands out a buffer with all the bytes asked for, exactly if
it hands out nothing or the bytes, rounded up to 64, have a size on 32 bits.
-/
theorem largeEnough_iff {chip : Nat} {pool : Pool} {request : Request} {answer : Option AreaAnswer}
    {bo : Bo} {called : Called} (valid : request.Valid) (pooled : request.Pooled pool)
    (done : request.run chip pool answer bo = some called) (ok : called.code = .ok) :
    LargeEnough chip pool request called
      ↔ request.Empty ∨ request.bytes chip + 63 < 2 ^ 32 := by
  -- All requests come down to the same allocation; chains multiply first.
  cases request with
  | fast size =>
    obtain ⟨recorded, same, covers⟩ := fastAllocBo_size valid done ok
    simp only [LargeEnough, recorded, forall_const, Request.Empty, false_or, Request.bytes, covers]
    exact and_iff_right same
  | bo size =>
    simp only [Request.run, createBo, if_pos (show 1 < pool.ctx.maxMemSize from pooled)] at done
    obtain ⟨recorded, same, covers⟩ := fastAllocBo_size valid done ok
    simp only [LargeEnough, recorded, forall_const, Request.Empty, false_or, Request.bytes, covers]
    exact and_iff_right same
  | fnode num => exact createNodes_size valid.2 pooled done ok
  | pnode num => exact createNodes_size valid.2 pooled done ok

/-- Eight nodes on a chip with a terminating node more take 936 bytes, and get them. -/
theorem largeEnough_iff_eight : ∃ pool called, onePage = some pool ∧
    (Request.fnode 8).run chipA1 pool none ⟨0, 0, 0, 0, 0, 0⟩ = some called ∧
    LargeEnough chipA1 pool (.fnode 8) called := by
  obtain ⟨pool, initialised⟩ : ∃ pool, onePage = some pool := ⟨_, rfl⟩
  have state : (onePage.bind fun pool =>
      ((Request.fnode 8).run chipA1 pool none ⟨0, 0, 0, 0, 0, 0⟩).map fun called =>
        (called.code, pool.ctx.maxMemSize)) = some (.ok, 4096) := rfl
  rw [initialised, Option.bind_some] at state
  obtain ⟨called, done, facts⟩ := Option.map_eq_some_iff.mp state
  obtain ⟨ok, mode⟩ := Prod.mk.inj facts
  have valid : (Request.fnode 8).Valid := ⟨by decide, by decide⟩
  have pooled : (Request.fnode 8).Pooled pool := by
    simp [Request.Pooled, mode]
  exact ⟨pool, called, initialised, done,
    (largeEnough_iff valid pooled done ok).mpr (.inr (by decide))⟩

/-- The size of 41297763 nodes wraps to 56 bytes, and the call succeeds with a block of 64. -/
theorem largeEnough_wraps : ∃ pool called, onePage = some pool ∧
    (Request.fnode 41297763).Valid ∧ (Request.fnode 41297763).Pooled pool ∧
    (Request.fnode 41297763).run 0x41 pool none ⟨0, 0, 0, 0, 0, 0⟩ = some called ∧
    called.code = .ok ∧ ¬ LargeEnough 0x41 pool (.fnode 41297763) called := by
  -- The product is 2 ^ 32 + 56.
  refine ⟨_, _, rfl, ⟨by decide, by decide⟩, (show 1 < 4096 by decide), rfl, rfl, fun enough => ?_⟩
  have size := (enough rfl).1
  revert size
  decide

end Aip.Pool
