import Aip.Lib.Region
import Mathlib.Algebra.BigOperators.Group.List.Basic

/-! Pools of memory that hand out chunks in whole units. -/

/-- A pool whose reserved chunks lie apart from each other within its region. -/
structure GenPool (granularity : Nat) where
  region : Region
  chunks : List Region
  inside : ∀ chunk ∈ chunks, chunk.Inside region
  apart : chunks.Pairwise Region.Apart

namespace GenPool

variable {granularity : Nat}

/-- The pool of a region with nothing reserved. -/
def empty (region : Region) : GenPool granularity :=
  { region := region, chunks := [], inside := by simp, apart := List.Pairwise.nil }

/-- The chunk that an allocation of a number of bytes reserves, in whole units. -/
def chunk (granularity start size : Nat) : Region :=
  ⟨start, (size + granularity - 1) / granularity * granularity⟩

/-- The bytes that are not reserved. -/
def avail (pool : GenPool granularity) : Nat :=
  pool.region.size - (pool.chunks.map Region.size).sum

/-- Reserve the chunk at a start that the pool's search may give. -/
def alloc (pool : GenPool granularity) (start size : Nat) : Option (GenPool granularity) :=
  if allowed : (chunk granularity start size).Inside pool.region ∧
      ∀ old ∈ pool.chunks, (chunk granularity start size).Apart old then
    some {
      region := pool.region
      chunks := chunk granularity start size :: pool.chunks
      inside := by
        intro other member
        rcases List.mem_cons.mp member with rfl | old
        · exact allowed.1
        · exact pool.inside other old
      apart := List.pairwise_cons.mpr ⟨allowed.2, pool.apart⟩ }
  else none

/-- Give a chunk back, which is a bug if it is not reserved. -/
def free (pool : GenPool granularity) (start size : Nat) : Option (GenPool granularity) :=
  if chunk granularity start size ∈ pool.chunks then
    some {
      region := pool.region
      chunks := pool.chunks.erase (chunk granularity start size)
      inside := fun other member => pool.inside other (List.mem_of_mem_erase member)
      apart := pool.apart.sublist List.erase_sublist }
  else none

/-- An allocation adds its chunk. -/
theorem alloc_chunks {pool grown : GenPool granularity} {start size : Nat}
    (reserved : pool.alloc start size = some grown) :
    grown.chunks = chunk granularity start size :: pool.chunks := by
  -- A start that overlaps a reserved chunk has no result.
  unfold alloc at reserved
  split at reserved
  · cases reserved
    rfl
  · cases reserved

/-- A reserved chunk can be given back, and nothing else is. -/
theorem free_chunks {pool : GenPool granularity} {start size : Nat}
    (reserved : chunk granularity start size ∈ pool.chunks) :
    ∃ less, pool.free start size = some less ∧
      less.chunks = pool.chunks.erase (chunk granularity start size) := by
  refine ⟨_, if_pos reserved, ?_⟩
  rfl

end GenPool
