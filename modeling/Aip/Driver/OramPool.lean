import Aip.Driver.Nna
import Aip.Lib.GenPool
import Aip.Lib.Runs

/-! The NNA memory of the device as a pool of chunks under handles, `jz_nna_v20_core.c`. -/

namespace Aip

/-- The NNA memory pool, with chunks of `JZ_NNA_V20_ORAM_GRANULARITY`. -/
abbrev OramGenPool := GenPool 256

/--
The fields of `struct jz_aip_v20_dev` behind the NNA memory.

The pool is `NULL` on a device without NNA memory. A `gen_pool_free` of memory that is not reserved
stops the kernel, which is recorded.
-/
structure NnaOram where
  oramPool : Option OramGenPool
  paddr : Nat
  nnaOramHandles : OramTable
  bug : Bool

/-- What an `NNA_OP_ORAM_ALLOC` gets from the kernel on its way. -/
structure OramAnswers where
  /-- `kcalloc` has room for the record. -/
  oramInfo : Bool
  /-- The address from `gen_pool_dma_alloc`, which is 0 when no chunk fits. -/
  kvaddr : Nat
  /-- The result of `idr_alloc`, which is negative when it fails. -/
  handle : Int
  deriving DecidableEq, Repr

/-- What the caller of `NNA_OP_ORAM_ALLOC` gets; a member that is not written is absent. -/
structure OramReply where
  ret : Int
  handle : Option Int
  paddr : Option Nat
  deriving DecidableEq, Repr

/-- The requests for NNA memory. -/
inductive OramRequest where
  | alloc (pid size : Nat) (answers : OramAnswers)
  | free (handle : Int)
  | release (pid : Nat)
  deriving DecidableEq, Repr

namespace NnaOram

/-- The memory as `jz_nna_v20_core_init` leaves it. -/
def init (region : Option Region) (paddr : Nat) : NnaOram :=
  { oramPool := region.map .empty, paddr := paddr, nnaOramHandles := .empty, bug := false }

/-- The chunks that are reserved. -/
def chunks (s : NnaOram) : List Region := (s.oramPool.map GenPool.chunks).getD []

/-- The chunk of a record. -/
def chunkOf (info : OramInfo) : Region := GenPool.chunk 256 info.kvaddr info.size

/-- `gen_pool_free` of the chunk of a record. -/
def freeChunk (s : NnaOram) (info : OramInfo) : NnaOram :=
  match s.oramPool.bind fun pool => pool.free info.kvaddr info.size with
  | some pool => { s with oramPool := some pool }
  | none => { s with bug := true }

/-- `idr_find`. -/
def idrFind (s : NnaOram) (handle : Int) : Option OramInfo := s.nnaOramHandles.find handle.toNat

/-- `gen_pool_free` and `idr_remove` of one record. -/
def dropHandle (s : NnaOram) (id : Nat) (info : OramInfo) : NnaOram :=
  let s := s.freeChunk info
  { s with nnaOramHandles := s.nnaOramHandles.oramFree id }

/-- The answer to a request that could not be met, `-EFAULT`. -/
def refused : OramReply := { ret := -14, handle := none, paddr := none }

/--
`NNA_OP_ORAM_ALLOC`.

There is no result for an address or a handle that the kernel's allocators cannot answer.
-/
def oramAlloc (s : NnaOram) (pid size : Nat) (answers : OramAnswers) :
    Option (NnaOram × OramReply) :=
  let oramSize := OramTable.roundUp size
  match s.oramPool with
  | none => some (s, refused)
  | some pool =>
    if ¬ oramSize ≤ pool.avail then some (s, refused)
    else if !answers.oramInfo then some (s, refused)
    else if answers.kvaddr = 0 then some (s, refused)
    else
      (pool.alloc answers.kvaddr oramSize).bind fun grown =>
        let s := { s with oramPool := some grown }
        let reply : OramReply := {
          ret := 0
          handle := some answers.handle
          paddr := some (s.paddr + (answers.kvaddr - pool.region.start)) }
        -- The chunk is given back, and `ret` is left alone.
        if answers.handle < 0 then
          some (s.freeChunk ⟨pid, answers.kvaddr, oramSize⟩, reply)
        else
          (s.nnaOramHandles.oramAlloc pid size answers.kvaddr answers.handle.toNat).map
            fun handles => ({ s with nnaOramHandles := handles }, reply)

/-- `NNA_OP_ORAM_FREE`, which does not look at the process. -/
def oramFree (s : NnaOram) (handle : Int) : NnaOram :=
  match s.oramPool with
  | none => s
  | some pool =>
    if pool.avail < pool.region.size then
      match s.idrFind handle with
      | some info => s.dropHandle handle.toNat info
      | none => s
    else s

/-- The loop of `jz_nna_v20_release` over the entries of the table. -/
def releaseEntries (pid : Nat) : NnaOram → List (Nat × OramInfo) → NnaOram
  | s, [] => s
  | s, (id, info) :: entries =>
    releaseEntries pid (if info.pid = pid then s.dropHandle id info else s) entries

/-- The part of `jz_nna_v20_release` for the NNA memory. -/
def release (s : NnaOram) (pid : Nat) : NnaOram :=
  releaseEntries pid s s.nnaOramHandles.entries

/-- The reserved chunks are those of the recorded handles, and every one freed was reserved. -/
structure Mirror (s : NnaOram) : Prop where
  recorded : s.chunks.Perm (s.nnaOramHandles.values.map chunkOf)
  sound : s.bug = false

/-- Dropping a recorded handle gives back its chunk and nothing else. -/
theorem Mirror.drop {s : NnaOram} (mirror : Mirror s) {id : Nat} {info : OramInfo}
    (found : s.nnaOramHandles.find id = some info) : Mirror (s.dropHandle id info) ∧
      (s.dropHandle id info).nnaOramHandles = s.nnaOramHandles.remove id := by
  obtain ⟨recorded, sound⟩ := mirror
  -- The chunk of the record is reserved, so there is a pool, and the pool takes it back.
  have listed : chunkOf info ∈ s.chunks :=
    recorded.mem_iff.mpr (List.mem_map_of_mem (Idr.mem_values_of_find found))
  cases pool : s.oramPool with
  | none => simp [chunks, pool] at listed
  | some pool' =>
    have reserved : chunkOf info ∈ pool'.chunks := by simpa [chunks, pool] using listed
    obtain ⟨less, freed, rest⟩ := GenPool.free_chunks reserved
    rw [← chunkOf] at rest
    refine ⟨⟨?_, ?_⟩, ?_⟩
    · have before := recorded.trans ((Idr.perm_values_remove found).map chunkOf)
      have after := before.erase (chunkOf info)
      rw [List.map_cons, List.erase_cons_head] at after
      simpa [dropHandle, freeChunk, pool, freed, chunks, rest, OramTable.oramFree] using after
    · simpa [dropHandle, freeChunk, pool, freed] using sound
    · simp [dropHandle, freeChunk, pool, freed, OramTable.oramFree]

/-- A release drops the listed handles of its process, and every other handle stays. -/
theorem Mirror.releaseEntries {entries : List (Nat × OramInfo)} {s : NnaOram}
    (mirror : Mirror s) (pid : Nat)
    (listed : ∀ entry ∈ entries, s.nnaOramHandles.find entry.1 = some entry.2)
    (distinct : (entries.map Prod.fst).Nodup) :
    Mirror (releaseEntries pid s entries) ∧
      ∀ id info, (NnaOram.releaseEntries pid s entries).nnaOramHandles.find id = some info ↔
        s.nnaOramHandles.find id = some info ∧ ((id, info) ∈ entries → info.pid ≠ pid) := by
  -- Along the list, the entries still to come are in the table.
  induction entries generalizing s with
  | nil => exact ⟨mirror, fun id info => by simp [NnaOram.releaseEntries]⟩
  | cons entry entries ih =>
    obtain ⟨first, record⟩ := entry
    obtain ⟨fresh, distinct⟩ := List.nodup_cons.mp distinct
    have here := listed (first, record) List.mem_cons_self
    have later : ∀ entry ∈ entries, s.nnaOramHandles.find entry.1 = some entry.2 :=
      fun entry member => listed entry (List.mem_cons_of_mem _ member)
    have apart : ∀ entry ∈ entries, entry.1 ≠ first :=
      by
      intro entry member same
      have member := List.mem_map_of_mem (f := Prod.fst) member
      exact fresh (same ▸ member)
    by_cases own : record.pid = pid
    · obtain ⟨kept, table⟩ := mirror.drop here
      obtain ⟨final, found⟩ := ih kept (fun entry member => by
        rw [table, Idr.remove, Idr.find_removeIf]
        exact ⟨later entry member, by simpa using apart entry member⟩) distinct
      simp only [NnaOram.releaseEntries, own, if_true]
      refine ⟨final, fun id info => (found id info).trans ?_⟩
      rw [table, Idr.remove, Idr.find_removeIf]
      constructor
      · intro given
        obtain ⟨⟨old, other⟩, kept⟩ := given
        refine ⟨old, fun member => kept ?_⟩
        rcases List.mem_cons.mp member with same | rest
        · simp [(Prod.mk.inj same).1] at other
        · exact rest
      · intro given
        obtain ⟨old, kept⟩ := given
        refine ⟨⟨old, ?_⟩, fun member => kept (List.mem_cons_of_mem _ member)⟩
        -- The handle just dropped belongs to the process.
        by_contra dropped
        have same : id = first := by simpa using dropped
        subst same
        have record : info = record := Option.some.inj (old.symm.trans here)
        exact kept (by simp [record]) (record ▸ own)
    · obtain ⟨final, found⟩ := ih mirror later distinct
      simp only [NnaOram.releaseEntries, own, if_false]
      refine ⟨final, fun id info => (found id info).trans ?_⟩
      constructor
      · intro given
        refine ⟨given.1, fun member => ?_⟩
        rcases List.mem_cons.mp member with same | rest
        · exact (Prod.mk.inj same).2 ▸ own
        · exact given.2 rest
      · exact fun given => ⟨given.1, fun member => given.2 (List.mem_cons_of_mem _ member)⟩

/-- A release keeps the mirror and drops exactly the handles of its process. -/
theorem Mirror.release {s : NnaOram} (mirror : Mirror s) (pid : Nat) :
    Mirror (s.release pid) ∧ ∀ id info,
      (s.release pid).nnaOramHandles.find id = some info ↔
        (s.nnaOramHandles.release pid).find id = some info := by
  -- The loop passes over every entry of the table.
  obtain ⟨kept, found⟩ := mirror.releaseEntries pid
    (fun entry member => Idr.find_eq_some.mpr member) s.nnaOramHandles.nodup
  refine ⟨kept, fun id info => (found id info).trans ?_⟩
  rw [OramTable.release, Idr.find_removeIf]
  simp only [decide_eq_false_iff_not]
  constructor
  · exact fun given => ⟨given.1, given.2 (Idr.find_eq_some.mp given.1)⟩
  · exact fun given => ⟨given.1, fun _ => given.2⟩

/-- The request gets a chunk from the pool and goes on to its handle. -/
def Reserves (s : NnaOram) (size : Nat) (answers : OramAnswers) : Prop :=
  ∃ pool, s.oramPool = some pool ∧ OramTable.roundUp size ≤ pool.avail ∧
    answers.oramInfo = true ∧ answers.kvaddr ≠ 0

/--
An allocation is refused, or gives back the chunk it could not record and still answers 0, or leaves
a chunk that it has recorded.
-/
theorem oramAlloc_cases {s t : NnaOram} {pid size : Nat} {answers : OramAnswers} {reply : OramReply}
    (made : s.oramAlloc pid size answers = some (t, reply)) :
    (¬ Reserves s size answers ∧ t = s ∧ reply = refused) ∨
      (Reserves s size answers ∧ reply.ret = 0 ∧ reply.handle = some answers.handle ∧
        ∃ pool grown, s.oramPool = some pool ∧
          pool.alloc answers.kvaddr (OramTable.roundUp size) = some grown ∧
          ((answers.handle < 0 ∧ t = { s with oramPool := some grown }.freeChunk
              ⟨pid, answers.kvaddr, OramTable.roundUp size⟩) ∨
            (0 ≤ answers.handle ∧ ∃ handles,
              s.nnaOramHandles.oramAlloc pid size answers.kvaddr answers.handle.toNat =
                some handles ∧
              t = { s with oramPool := some grown, nnaOramHandles := handles }))) := by
  unfold oramAlloc at made
  cases present : s.oramPool with
  | none =>
    simp only [present, Option.some.injEq, Prod.mk.injEq] at made
    exact .inl ⟨by simp [Reserves, present], made.1.symm, made.2.symm⟩
  | some pool =>
    simp only [present] at made
    by_cases room : OramTable.roundUp size ≤ pool.avail
    case neg =>
      simp only [room, not_false_eq_true, if_true, Option.some.injEq, Prod.mk.injEq] at made
      exact .inl ⟨by simp [Reserves, present, room], made.1.symm, made.2.symm⟩
    simp only [room, not_true_eq_false, if_false] at made
    cases record : answers.oramInfo with
    | false =>
      simp only [record, Bool.not_false, if_true, Option.some.injEq, Prod.mk.injEq] at made
      exact .inl ⟨by simp [Reserves, record], made.1.symm, made.2.symm⟩
    | true =>
      simp only [record, Bool.not_true, Bool.false_eq_true, if_false] at made
      by_cases null : answers.kvaddr = 0
      · simp only [null, if_true, Option.some.injEq, Prod.mk.injEq] at made
        exact .inl ⟨by simp [Reserves, null], made.1.symm, made.2.symm⟩
      · -- The chunk is reserved, and the handle decides what becomes of it.
        simp only [null, if_false, Option.bind_eq_some_iff] at made
        obtain ⟨grown, reserved, made⟩ := made
        have reserves : Reserves s size answers := ⟨pool, present, room, record, null⟩
        by_cases failed : answers.handle < 0
        · simp only [failed, if_true, Option.some.injEq, Prod.mk.injEq] at made
          obtain ⟨after, rfl⟩ := made
          exact .inr ⟨reserves, rfl, rfl, pool, grown, rfl, reserved, .inl ⟨failed, after.symm⟩⟩
        · simp only [failed, if_false, Option.map_eq_some_iff, Prod.mk.injEq] at made
          obtain ⟨handles, entered, after, rfl⟩ := made
          exact .inr ⟨reserves, rfl, rfl, pool, grown, rfl, reserved,
            .inr ⟨by omega, handles, entered, after.symm⟩⟩

/-- A chunk that has just been reserved can be given back, and nothing has changed. -/
theorem Mirror.undo {s : NnaOram} (mirror : Mirror s) {pool grown : OramGenPool} (info : OramInfo)
    (present : s.oramPool = some pool) (reserved : pool.alloc info.kvaddr info.size = some grown) :
    Mirror ({ s with oramPool := some grown }.freeChunk info) ∧
      ({ s with oramPool := some grown }.freeChunk info).nnaOramHandles = s.nnaOramHandles := by
  have added := GenPool.alloc_chunks reserved
  obtain ⟨less, freed, rest⟩ := GenPool.free_chunks (added ▸ List.mem_cons_self)
  rw [added, List.erase_cons_head] at rest
  refine ⟨⟨?_, ?_⟩, ?_⟩
  · simpa [freeChunk, freed, chunks, rest, present] using mirror.recorded
  · simpa [freeChunk, freed] using mirror.sound
  · simp [freeChunk, freed]

/-- An allocation keeps the mirror, whichever of its steps fails. -/
theorem Mirror.alloc {s t : NnaOram} (mirror : Mirror s) {pid size : Nat} {answers : OramAnswers}
    {reply : OramReply} (made : s.oramAlloc pid size answers = some (t, reply)) : Mirror t := by
  obtain ⟨_, rfl, _⟩ | ⟨_, _, _, pool, grown, present, reserved, outcome⟩ := oramAlloc_cases made
  · exact mirror
  · obtain ⟨_, rfl⟩ | ⟨_, handles, entered, rfl⟩ := outcome
    · exact (mirror.undo ⟨pid, _, _⟩ present reserved).1
    · refine ⟨?_, mirror.sound⟩
      -- The new chunk and the new record belong together.
      have recorded : pool.chunks.Perm (s.nnaOramHandles.values.map chunkOf) := by
        simpa [chunks, present] using mirror.recorded
      have values := Idr.alloc_values entered
      simp only [chunks, Option.map_some, Option.getD_some, values, List.map_append,
        GenPool.alloc_chunks reserved]
      exact (recorded.cons _).trans (List.perm_append_singleton _ _).symm

/-- A request for a handle keeps the mirror, and the table loses at most that handle. -/
theorem Mirror.free {s : NnaOram} (mirror : Mirror s) (handle : Int) : Mirror (s.oramFree handle) ∧
    ∀ id info, s.nnaOramHandles.find id = some info → (id : Int) ≠ handle →
      (s.oramFree handle).nnaOramHandles.find id = some info := by
  unfold oramFree
  cases present : s.oramPool with
  | none => exact ⟨mirror, fun id info old _ => old⟩
  | some pool =>
    simp only
    split
    case isFalse => exact ⟨mirror, fun id info old _ => old⟩
    case isTrue =>
      cases found : s.idrFind handle with
      | none => exact ⟨mirror, fun id info old _ => old⟩
      | some record =>
        obtain ⟨kept, table⟩ := mirror.drop found
        refine ⟨kept, fun id info old other => ?_⟩
        rw [table, Idr.remove, Idr.find_removeIf]
        refine ⟨old, ?_⟩
        -- A handle that is found is not negative.
        have positive : 0 < handle.toNat := Idr.pos_of_find found
        simp only [decide_eq_false_iff_not]
        omega

end NnaOram

/-- A handle that an allocation has answered with success. -/
structure OramGrant where
  handle : Int
  pid : Nat
  size : Nat
  deriving DecidableEq, Repr

/-- The NNA memory and, as history, the handles granted and not yet freed or released. -/
structure OramClients where
  oram : NnaOram
  granted : List OramGrant

namespace OramClients

open NnaOram

/-- The memory before the first request. -/
def init (region : Option Region) (paddr : Nat) : OramClients :=
  { oram := .init region paddr, granted := [] }

/-- The handles granted once an allocation has been answered. -/
def grants (granted : List OramGrant) (pid size : Nat) (reply : OramReply) : List OramGrant :=
  match reply.handle with
  | some handle => if reply.ret = 0 then ⟨handle, pid, size⟩ :: granted else granted
  | none => granted

/-- One request; there is none for answers that the kernel's allocators cannot give. -/
def step (s : OramClients) : OramRequest → Option OramClients
  | .alloc pid size answers => (s.oram.oramAlloc pid size answers).map fun made =>
    { oram := made.1
      granted := grants s.granted pid size made.2 }
  | .free handle => some {
    oram := s.oram.oramFree handle
    granted := s.granted.filter fun grant => grant.handle ≠ handle }
  | .release pid => some {
    oram := s.oram.release pid
    granted := s.granted.filter fun grant => grant.pid ≠ pid }

/-- A granted handle stands for a reserved chunk of at least the requested size. -/
def Kept (oram : NnaOram) (grant : OramGrant) : Prop :=
  ∃ info, 0 ≤ grant.handle ∧ oram.nnaOramHandles.find grant.handle.toNat = some info ∧
    info.pid = grant.pid ∧ grant.size ≤ (chunkOf info).size ∧ chunkOf info ∈ oram.chunks

/-- Every granted handle that was neither freed nor released is kept. -/
def Promised (s : OramClients) : Prop := ∀ grant ∈ s.granted, Kept s.oram grant

/-- An allocation that gets a chunk also gets a handle, and its size can be rounded up on 32 bits. -/
def Grantable (s : OramClients) : OramRequest → Prop
  | .alloc _ size answers =>
    Reserves s.oram size answers → 0 ≤ answers.handle ∧ size ≤ 2 ^ 32 - 64
  | _ => True

/-- The table alone tells whether a handle is kept, because the pool mirrors it. -/
theorem kept_iff {oram : NnaOram} (mirror : Mirror oram) {grant : OramGrant} : Kept oram grant ↔
    ∃ info, 0 ≤ grant.handle ∧ oram.nnaOramHandles.find grant.handle.toNat = some info ∧
      info.pid = grant.pid ∧ grant.size ≤ (chunkOf info).size := by
  constructor
  · intro kept
    obtain ⟨info, positive, found, owner, large, _⟩ := kept
    exact ⟨info, positive, found, owner, large⟩
  · intro given
    obtain ⟨info, positive, found, owner, large⟩ := given
    refine ⟨info, positive, found, owner, large, ?_⟩
    exact mirror.recorded.mem_iff.mpr (List.mem_map_of_mem (Idr.mem_values_of_find found))

/-- The chunk for a size is large enough exactly when rounding it up has not wrapped. -/
theorem chunk_large_iff {pid kvaddr size : Nat} :
    size ≤ (chunkOf ⟨pid, kvaddr, OramTable.roundUp size⟩).size ↔ size ≤ 2 ^ 32 - 64 := by
  simp only [chunkOf, GenPool.chunk, OramTable.roundUp]
  omega

/-- Every request keeps the mirror. -/
theorem mirror_step {s t : OramClients} {a : OramRequest} (mirror : Mirror s.oram)
    (taken : step s a = some t) : Mirror t.oram := by
  cases a with
  | alloc pid size answers =>
    obtain ⟨made, given, rfl⟩ := Option.map_eq_some_iff.mp taken
    exact mirror.alloc given
  | free handle =>
    cases taken
    exact (mirror.free handle).1
  | release pid =>
    cases taken
    exact (mirror.release pid).1

/-- A request that was granted keeps every promise, old and new. -/
theorem promised_step {s t : OramClients} {a : OramRequest} (mirror : Mirror s.oram)
    (promised : Promised s) (taken : step s a = some t) (grantable : Grantable s a) :
    Promised t := by
  have after := mirror_step mirror taken
  intro grant member
  cases a with
  | alloc pid size answers =>
    obtain ⟨⟨oram, reply⟩, given, rfl⟩ := Option.map_eq_some_iff.mp taken
    rw [kept_iff after]
    obtain ⟨_, rfl, rfl⟩ | ⟨reserves, ret, handle, pool, grown, _, _, outcome⟩ :=
      oramAlloc_cases given
    · exact (kept_iff mirror).mp (promised grant member)
    · obtain ⟨positive, small⟩ := grantable reserves
      obtain ⟨failed, _⟩ | ⟨_, handles, entered, rfl⟩ := outcome
      · omega
      · simp only [grants, handle, ret, if_true] at member
        rcases List.mem_cons.mp member with rfl | old
        · exact ⟨_, positive, Idr.find_alloc_self entered, rfl, chunk_large_iff.mpr small⟩
        · obtain ⟨info, known, found, rest⟩ := (kept_iff mirror).mp (promised grant old)
          exact ⟨info, known, Idr.find_alloc entered found, rest⟩
  | free handle =>
    cases taken
    obtain ⟨listed, other⟩ := List.mem_filter.mp member
    obtain ⟨info, known, found, rest⟩ := (kept_iff mirror).mp (promised grant listed)
    have other : grant.handle ≠ handle := by simpa using other
    exact (kept_iff after).mpr
      ⟨info, known, (mirror.free handle).2 _ _ found (by omega), rest⟩
  | release pid =>
    cases taken
    obtain ⟨listed, other⟩ := List.mem_filter.mp member
    obtain ⟨info, known, found, owner, large⟩ := (kept_iff mirror).mp (promised grant listed)
    have other : grant.pid ≠ pid := by simpa using other
    -- The record is the grant's process's, which is not the one released.
    refine (kept_iff after).mpr ⟨info, known, ((mirror.release pid).2 _ _).mpr ?_, owner, large⟩
    rw [OramTable.release, Idr.find_removeIf]
    exact ⟨found, by simpa [owner] using other⟩

/-- A request after which every promise is kept was granted rightly. -/
theorem grantable_of_promised {s t : OramClients} {a : OramRequest} (mirror : Mirror s.oram)
    (taken : step s a = some t) (promised : Promised t) : Grantable s a := by
  cases a with
  | alloc pid size answers =>
    intro reserves
    have after := mirror_step mirror taken
    obtain ⟨⟨oram, reply⟩, given, rfl⟩ := Option.map_eq_some_iff.mp taken
    obtain ⟨refused, _⟩ | ⟨_, ret, handle, pool, grown, _, _, outcome⟩ := oramAlloc_cases given
    case inl => exact absurd reserves refused
    -- The reply of 0 promises the new handle.
    have member : (⟨answers.handle, pid, size⟩ : OramGrant) ∈ grants s.granted pid size reply := by
      simp [grants, handle, ret]
    obtain ⟨info, positive, found, _, large⟩ := (kept_iff after).mp (promised _ member)
    have positive : 0 ≤ answers.handle := positive
    refine ⟨positive, ?_⟩
    obtain ⟨failed, _⟩ | ⟨_, handles, entered, rfl⟩ := outcome
    · omega
    · have same := (Idr.find_alloc_self entered).symm.trans found
      rw [← Option.some.inj same] at large
      exact chunk_large_iff.mp large
  | free handle => trivial
  | release pid => trivial

/-- Nothing is reserved, recorded or promised at first. -/
theorem mirror_init (region : Option Region) (paddr : Nat) :
    Mirror (init region paddr).oram ∧ Promised (init region paddr) := by
  refine ⟨⟨?_, rfl⟩, by simp [Promised, init]⟩
  cases region with
  | none => exact List.Perm.refl _
  | some region => exact List.Perm.refl _

/--
In every run the reserved chunks are those recorded under handles, and only reserved chunks are
freed. A successful allocation keeps its promise if and only if every allocation that gets a chunk
also gets a handle and has a size that can be rounded up.
-/
theorem oram_iff (region : Option Region) (paddr : Nat) (run : List OramRequest) :
    Runs.Always step (fun s => Mirror s.oram) (init region paddr) run ∧
      (Runs.Always step Promised (init region paddr) run ↔
        Runs.Each step (fun s a _ => Grantable s a) (init region paddr) run) := by
  obtain ⟨mirror, promised⟩ := mirror_init region paddr
  constructor
  · exact Runs.always_of_preserved (fun s a t mirror taken => mirror_step mirror taken) mirror
  · apply Runs.always_safe_iff (I := fun s => Mirror s.oram ∧ Promised s)
    · exact fun s both => both.2
    · intro s a t both taken grantable
      exact ⟨mirror_step both.1 taken, promised_step both.1 both.2 taken grantable⟩
    · exact fun s a t both taken after => grantable_of_promised both.1 taken after
    · exact ⟨mirror, promised⟩

/-- An allocation without a free handle answers 0 all the same. -/
theorem promised_noHandle : ¬ Runs.Always step Promised (init (some ⟨4096, 4096⟩) 0)
    [.alloc 1 64 ⟨true, 4096, -12⟩] := by
  intro always
  -- The promised handle is the error of the allocator.
  have kept : ∀ grant ∈ [(⟨-12, 1, 64⟩ : OramGrant)], 0 ≤ grant.handle := by
    intro grant member
    obtain ⟨_, positive, _⟩ := always.last rfl grant member
    exact positive
  exact absurd (kept ⟨-12, 1, 64⟩ (List.mem_singleton_self _)) (by decide)

end OramClients

end Aip
