import Aip.Memory.HeapLaws

/-! What `Local_Dealloc` does with every address, in every state that calls lead to. -/

namespace Aip

open Blocks Bufunit

namespace HeapUse

/-- The busy ones among some units. -/
def busyUnits (units : List Bufunit) : List Bufunit := units.filter fun u => u.status = .busy

/-- The bytes of the free ones among some units. -/
def freeBytes (units : List Bufunit) : Nat :=
  ((units.filter fun u => u.status = .free).map Bufunit.length).sum

/-- A unit in use is known by the address. -/
def LiveAt (alloc : Alloc) (addr : Nat) : Prop :=
  ∃ u ∈ alloc.units, u.status = .busy ∧ u.vaddr = addr

/--
One unit in use with the address has been released.

The others in use are as they were, in their order, and its bytes are free.
-/
def Releases (alloc : Alloc) (addr : Nat) (after : Alloc) : Prop :=
  ∃ before u back, alloc.units = before ++ u :: back ∧ u.status = .busy ∧ u.vaddr = addr ∧
    busyUnits after.units = busyUnits before ++ busyUnits back ∧
    freeBytes after.units = freeBytes alloc.units + u.length

/-- `Local_Dealloc` releases the unit in use with the address, and without one it does nothing. -/
structure Discerns (alloc : Alloc) (addr : Nat) : Prop where
  live : LiveAt alloc addr → Releases alloc addr (localDealloc alloc addr).1
  other : ¬ LiveAt alloc addr → localDealloc alloc addr = (alloc, 0)

/--
The address leads to a unit in use or to one whose release has no effect.

`NULL` is the address of no unit in use. For another address, the first unit that has it is busy, or
it is an empty free unit without an offset and no busy unit has the address.
-/
structure Harmless (alloc : Alloc) (addr : Nat) : Prop where
  null : addr = 0 → ¬ LiveAt alloc 0
  first : addr ≠ 0 → ∀ u, (alloc.units.find? fun u => u.vaddr = addr) = some u →
    u.status = .busy ∨ (u.length = 0 ∧ u.offset = 0 ∧ ¬ LiveAt alloc addr)

/-- What holds of the units after every sequence of calls, whatever their arguments. -/
structure Formed (mem : HeapMem) (alloc : Alloc) : Prop where
  separated : alloc.units.IsChain fun u w => view.busy u = true ∨ view.busy w = true
  total : (alloc.units.map Bufunit.length).sum = mem.size - 4
  words : ∀ u ∈ alloc.units, u.vaddr < 2 ^ 32 ∧ u.offset < 2 ^ 32

variable {mem : HeapMem} {alloc : Alloc} {use after : HeapUse} {call : HeapCall} {addr : Nat}
  {units before back left right front : List Bufunit} {self joined merged : Bufunit}

@[simp] theorem busyUnits_append (units others : List Bufunit) :
    busyUnits (units ++ others) = busyUnits units ++ busyUnits others := List.filter_append ..

@[simp] theorem freeBytes_append (units others : List Bufunit) :
    freeBytes (units ++ others) = freeBytes units + freeBytes others := by
  simp [freeBytes]

/-- A unit in front counts as busy, or its bytes count as free. -/
theorem counts_cons (u : Bufunit) (units : List Bufunit) :
    busyUnits (u :: units) = (if u.status = .busy then [u] else []) ++ busyUnits units ∧
      freeBytes (u :: units) = (if u.status = .busy then 0 else u.length) + freeBytes units := by
  cases status : u.status <;> simp [busyUnits, freeBytes, status]

/-- Free units are not among the busy ones, and all their bytes are free. -/
theorem counts_idle (idle : ∀ u ∈ units, view.busy u = false) :
    busyUnits units = [] ∧ freeBytes units = (units.map Bufunit.length).sum := by
  induction units with
  | nil => exact ⟨rfl, rfl⟩
  | cons u units ih =>
    obtain ⟨none, all⟩ := ih fun w member => idle w (List.mem_cons_of_mem u member)
    have here : ¬ u.status = .busy := by
      rw [← view_busy, idle u List.mem_cons_self]
      exact Bool.false_ne_true
    obtain ⟨busy, free⟩ := counts_cons u units
    rw [busy, free, none, all]
    simp [here]

/-- A unit that joins the free ones beside it takes over their lengths. -/
theorem joins_length (behind : JoinsNext self.release joined back right)
    (ahead : JoinsPrev joined merged left front)
    (small : (front.map Bufunit.length).sum + self.length + (back.map Bufunit.length).sum
      < 2 ^ 32) :
    merged.length =
      (front.map Bufunit.length).sum + self.length + (back.map Bufunit.length).sum := by
  -- First the unit behind is joined, then the one in front takes both over.
  have next : joined.length = self.length + (back.map Bufunit.length).sum := by
    rcases behind with ⟨rfl, rfl, _⟩ | ⟨next, rfl, _, rfl⟩
    · rfl
    · simp only [List.map_cons, List.map_nil, List.sum_cons, List.sum_nil] at small ⊢
      show (self.length + next.length) % 2 ^ 32 = _
      omega
  rcases ahead with ⟨rfl, rfl, _⟩ | ⟨prev, rfl, _, rfl⟩
  · simp only [List.map_nil, List.sum_nil]
    omega
  · simp only [List.map_cons, List.map_nil, List.sum_cons, List.sum_nil] at small ⊢
    show (prev.length + joined.length) % 2 ^ 32 = _
    omega

/-- A merged unit keeps the address and the offset of one of the units it is made of. -/
theorem joins_words (behind : JoinsNext self.release joined back right)
    (ahead : JoinsPrev joined merged left front)
    (words : ∀ u ∈ front ++ self :: back, u.vaddr < 2 ^ 32 ∧ u.offset < 2 ^ 32) :
    merged.vaddr < 2 ^ 32 ∧ merged.offset < 2 ^ 32 := by
  have own := words self (by simp)
  have here : joined.vaddr < 2 ^ 32 ∧ joined.offset < 2 ^ 32 := by
    have released : self.release.vaddr < 2 ^ 32 := by
      simp only [Bufunit.release]
      omega
    rcases behind with ⟨_, rfl, _⟩ | ⟨next, _, _, rfl⟩
    · exact ⟨released, own.2⟩
    · exact ⟨released, own.2⟩
  rcases ahead with ⟨_, rfl, _⟩ | ⟨prev, rfl, _, rfl⟩
  · exact here
  · exact words prev (by simp)

/-- What is left of a unit is as long as the wrapped request is shorter. -/
theorem rest_length {unit : Bufunit} {size offset : Nat}
    (fits : (size + offset) % 2 ^ 32 ≤ unit.length) (bound : unit.length < 2 ^ 32)
    (size_lt : size < 2 ^ 32) (offset_lt : offset < 2 ^ 32) :
    (unit.rest size offset).length = unit.length - (size + offset) % 2 ^ 32 := by
  simp only [Bufunit.rest]
  omega

/-- What is taken from a unit and what is left of it add up to its length. -/
theorem take_length {unit : Bufunit} {size offset : Nat}
    (cut : front = [] ∧ (size + offset) % 2 ^ 32 = unit.length ∨
      front = [unit.rest size offset] ∧ (size + offset) % 2 ^ 32 < unit.length)
    (bound : unit.length < 2 ^ 32) (size_lt : size < 2 ^ 32) (offset_lt : offset < 2 ^ 32) :
    ((unit.take size offset :: front).map Bufunit.length).sum = unit.length := by
  rcases cut with ⟨rfl, whole⟩ | ⟨rfl, part⟩
  · simp only [Bufunit.take, List.map_cons, List.map_nil, List.sum_cons, List.sum_nil]
    omega
  · simp only [List.map_cons, List.map_nil, List.sum_cons, List.sum_nil,
      rest_length part.le bound size_lt offset_lt]
    simp only [Bufunit.take]
    omega

/-- A single free unit has no neighbours. -/
theorem Formed.init : Formed mem (localHeapInit mem) where
  separated := List.isChain_singleton _
  total := by simp [localHeapInit]
  words := by
    have visible := mem.visible
    have room := mem.room
    simp only [localHeapInit, List.mem_singleton, forall_eq]
    omega

/-- An allocation keeps the units formed, also when its arithmetic wraps. -/
theorem Formed.alignAlloc (formed : Formed mem alloc) {alignsize size : Nat} (size_lt : size < 2 ^ 32)
    (align_lt : alignsize < 2 ^ 32) (room : Bool) :
    Formed mem (localAlignAlloc alloc alignsize size room).1 := by
  rcases localAlignAlloc_cases alloc alignsize size room with
    ⟨refused, _⟩ | ⟨fit, front, nonzero, found, given, served, cut⟩
  · rw [refused]
    exact formed
  obtain ⟨same, free, fits, aligned⟩ := findFit_spec found
  have below := (aligned nonzero).2
  have room := mem.visible
  obtain ⟨separated, total, words⟩ := formed
  rw [same] at separated total words
  rw [served]
  have bound : fit.unit.length < 2 ^ 32 := by
    simp only [List.map_append, List.map_cons, List.sum_append, List.sum_cons] at total
    omega
  refine ⟨?_, ?_, ?_⟩
  · apply chain_take separated (view_idle free) rfl
    rcases cut with ⟨none, _⟩ | ⟨one, _⟩
    · exact .inl none
    · exact .inr ⟨_, one, rfl⟩
  · -- What is taken and what is left add up to the unit.
    have sum := take_length cut bound size_lt (by omega)
    rw [List.map_append, List.map_append, List.sum_append, List.sum_append, sum]
    simp only [List.map_append, List.map_cons, List.sum_append, List.sum_cons] at total
    omega
  · intro u member
    rcases List.mem_append.mp member with old | behind
    · rcases List.mem_append.mp old with old | new
      · exact words u (List.mem_append_left _ old)
      · rcases List.mem_cons.mp new with rfl | left
        · simp only [Bufunit.take]
          omega
        · rcases cut with ⟨rfl, _⟩ | ⟨rfl, _⟩
          · cases left
          · rw [List.mem_singleton.mp left]
            simp only [Bufunit.rest]
            omega
    · exact words u (List.mem_append_right _ (List.mem_cons_of_mem _ behind))

/-- A free keeps the units formed, also when it meets a unit that is free already. -/
theorem Formed.dealloc (formed : Formed mem alloc) (addr : Nat) :
    Formed mem (localDealloc alloc addr).1 := by
  rcases localDealloc_cases alloc addr with
    ⟨nothing, _⟩ | ⟨left, front, self, back, right, joined, merged, _, same, _, _, freed, _,
      behind, ahead⟩
  · rw [nothing]
    exact formed
  obtain ⟨separated, total, words⟩ := formed
  have room := mem.visible
  rw [same] at separated total words
  rw [freed]
  refine ⟨?_, ?_, ?_⟩
  · exact chain_join separated (ahead.busy separated) (behind.busy separated)
  · simp only [List.map_append, List.map_cons, List.sum_append, List.sum_cons] at total ⊢
    rw [joins_length behind ahead (by omega)]
    omega
  · intro u member
    rcases List.mem_append.mp member with old | new
    · exact words u (by simp [old])
    · rcases List.mem_cons.mp new with rfl | old
      · exact joins_words behind ahead fun w inside => words w (by
          simp only [List.mem_append] at inside ⊢
          exact .inl (.inr inside))
      · exact words u (by simp [old])

/-- Every call keeps the units formed. -/
theorem Formed.step (formed : Formed mem use.alloc) (taken : use.step call = some after) :
    Formed mem after.alloc := by
  rcases step_cases taken with ⟨size, alignsize, _, small, low, _, rfl⟩ | ⟨addr, _, rfl⟩
  · exact formed.alignAlloc small low call.room
  · exact formed.dealloc addr.toNat

/-- A unit is released only if there is one fewer in use. -/
theorem not_releases {others : Alloc} (same : busyUnits others.units = busyUnits alloc.units) :
    ¬ Releases alloc addr others := by
  intro given
  obtain ⟨before, u, back, units, busy, _, left, _⟩ := given
  have count := congrArg List.length left
  rw [same, units, busyUnits_append, (counts_cons u back).1] at count
  simp [busy] at count

/-- A free unit that is freed again has no free neighbour to join. -/
theorem joins_none
    (chain : (left ++ (front ++ self :: back) ++ right).IsChain
      fun u w => view.busy u = true ∨ view.busy w = true)
    (idle : view.busy self = false) (behind : JoinsNext self.release joined back right)
    (ahead : JoinsPrev joined merged left front) :
    front = [] ∧ back = [] ∧ merged = self.release := by
  have around : left ++ (front ++ self :: back) ++ right =
      (left ++ front) ++ self :: (back ++ right) := by simp
  rw [around] at chain
  obtain ⟨_, prev, next, _⟩ := Splice.isChain_around.mp chain
  -- A neighbour that was joined would be free, like the unit itself.
  have alone : back = [] ∧ joined = self.release := by
    rcases behind with ⟨none, same, _⟩ | ⟨u, rfl, free, _⟩
    · exact ⟨none, same⟩
    · have linked := next u (by simp)
      simp [idle, view_idle free] at linked
  rcases ahead with ⟨none, same, _⟩ | ⟨u, rfl, free, _⟩
  · exact ⟨none, alone.1, same.trans alone.2⟩
  · have linked := prev u (by simp)
    simp [idle, view_idle free] at linked

/-- A busy unit that is found is the one that is released. -/
theorem Formed.releases (formed : Formed mem alloc)
    (same : alloc.units = left ++ (front ++ self :: back) ++ right) (busy : self.status = .busy)
    (key : self.vaddr = addr) (free : merged.status = .free)
    (behind : JoinsNext self.release joined back right)
    (ahead : JoinsPrev joined merged left front) :
    Releases alloc addr { alloc with units := left ++ merged :: right } := by
  have idle := joins_idle behind ahead
  have inFront := counts_idle fun u member => idle u (List.mem_append_left back member)
  have inBack := counts_idle fun u member => idle u (List.mem_append_right front member)
  have total := formed.total
  have visible := mem.visible
  rw [same] at total
  simp only [List.map_append, List.map_cons, List.sum_append, List.sum_cons] at total
  have length := joins_length behind ahead (by omega)
  have gone := counts_cons merged right
  have here := counts_cons self (back ++ right)
  have idle : ¬ merged.status = .busy := by simp [free]
  refine ⟨left ++ front, self, back ++ right, by simp [same], busy, key, ?_, ?_⟩
  · simp [gone, idle, inFront.1, inBack.1]
  · -- The merged unit has the bytes of the free ones beside it and those of the unit.
    have split : freeBytes alloc.units = freeBytes left + (freeBytes front +
        (freeBytes back + freeBytes right)) := by
      rw [same, List.append_assoc, List.append_assoc, List.cons_append, freeBytes_append,
        freeBytes_append, here.2, if_pos busy, freeBytes_append, Nat.zero_add]
    show freeBytes (left ++ merged :: right) = _
    rw [freeBytes_append, gone.2, if_neg idle, length, split, inFront.2, inBack.2]
    omega

/-- Releasing a free unit without an offset again leaves it as it is. -/
theorem release_eq (free : self.status = .free) (none : self.offset = 0)
    (word : self.vaddr < 2 ^ 32) : self.release = self := by
  have place : (self.vaddr + 2 ^ 32 - 0) % 2 ^ 32 = self.vaddr := by omega
  cases self
  simp_all [Bufunit.release]

/-- A free unit that is found stays as it is exactly when it is empty and has no offset. -/
theorem Formed.unchanged_iff (formed : Formed mem alloc)
    (same : alloc.units = left ++ self :: right) :
    (({ alloc with units := left ++ self.release :: right },
        (self.length + 2 ^ 32 - self.offset) % 2 ^ 32) = (alloc, 0)) ↔
      self.status = .free ∧ self.length = 0 ∧ self.offset = 0 := by
  have member : self ∈ alloc.units := by simp [same]
  obtain ⟨address, offset⟩ := formed.words self member
  have total := formed.total
  have visible := mem.visible
  rw [same] at total
  simp only [List.map_append, List.map_cons, List.sum_append, List.sum_cons] at total
  constructor
  · intro nothing
    obtain ⟨units, answer⟩ := Prod.mk.inj nothing
    have units := congrArg Alloc.units units
    simp only [same, List.append_cancel_left_eq, List.cons.injEq, and_true] at units
    have status := congrArg Bufunit.status units
    have place := congrArg Bufunit.vaddr units
    simp only [Bufunit.release] at status place
    have none : self.offset = 0 := by omega
    refine ⟨status.symm, ?_, none⟩
    rw [none] at answer
    omega
  · intro given
    obtain ⟨free, empty, none⟩ := given
    refine Prod.ext ?_ ?_
    · rw [release_eq free none address, ← same]
    · show (self.length + 2 ^ 32 - self.offset) % 2 ^ 32 = 0
      omega

/--
In a formed heap, `Local_Dealloc` treats an address as it should exactly when the search for the
address leads to a unit in use or to one whose release has no effect.
-/
theorem Formed.discerns_iff (formed : Formed mem alloc) :
    Discerns alloc addr ↔ Harmless alloc addr := by
  rcases localDealloc_cases alloc addr with
    ⟨nothing, null | absent⟩ | ⟨left, front, self, back, right, joined, merged, nonzero, same, key,
      earlier, freed, free, behind, ahead⟩
  · -- `NULL` is turned away before the search.
    subst null
    have kept : ¬ Releases alloc 0 (localDealloc alloc 0).1 := by
      rw [nothing]
      exact not_releases rfl
    constructor
    · exact fun discerns => ⟨fun _ live => kept (discerns.live live), fun nonzero => (nonzero rfl).elim⟩
    · exact fun harmless => ⟨fun live => (harmless.null rfl live).elim, fun _ => nothing⟩
  · have unknown : ¬ LiveAt alloc addr := fun live => by
      obtain ⟨u, member, _, key⟩ := live
      exact absent u member key
    constructor
    · refine fun _ => ⟨fun null => null ▸ unknown, fun _ u found => ?_⟩
      exact (absent u (List.mem_of_find?_eq_some found) (by simpa using List.find?_some found)).elim
    · exact fun _ => ⟨fun live => (unknown live).elim, fun _ => nothing⟩
  · have found := find_first back right key earlier
    rw [← same] at found
    have member : self ∈ alloc.units := by simp [same]
    by_cases busy : self.status = .busy
    · constructor
      · refine fun _ => ⟨fun null => (nonzero null).elim, fun _ u first => ?_⟩
        cases found.symm.trans first
        exact .inl busy
      · refine fun _ => ⟨fun _ => ?_, fun none => (none ⟨self, member, busy, key⟩).elim⟩
        rw [freed]
        exact formed.releases same busy key free behind ahead
    · -- A free unit is found first, and whatever is in use stays so.
      have idle : view.busy self = false := view_idle (free_iff.mpr busy)
      obtain ⟨rfl, rfl, rfl⟩ := joins_none (same ▸ formed.separated) idle behind ahead
      simp only [List.nil_append, List.append_assoc, List.cons_append] at same
      have kept : ¬ Releases alloc addr (localDealloc alloc addr).1 := by
        apply not_releases
        rw [freed]
        show busyUnits (left ++ self.release :: right) = _
        rw [same]
        simp [busyUnits_append, counts_cons, busy, free]
      have unchanged := formed.unchanged_iff same
      constructor
      · intro discerns
        refine ⟨fun null => (nonzero null).elim, fun _ u first => .inr ?_⟩
        cases found.symm.trans first
        have none : ¬ LiveAt alloc addr := fun live => kept (discerns.live live)
        obtain ⟨_, empty, offset⟩ := unchanged.mp (freed.symm.trans (discerns.other none))
        exact ⟨empty, offset, none⟩
      · intro harmless
        obtain other | ⟨empty, offset, none⟩ := harmless.first nonzero self found
        · exact absurd other busy
        · refine ⟨fun live => (none live).elim, fun _ => ?_⟩
          exact freed.trans (unchanged.mpr ⟨free_iff.mpr busy, empty, offset⟩)

/--
In every state that calls lead to, `Local_Dealloc` treats an address as it should exactly when the
search for the address leads to a unit in use or to one whose release has no effect.
-/
theorem discerns_iff_harmless (mem : HeapMem) (calls : List HeapCall) :
    Runs.Always step (fun use => ∀ addr : UInt32,
      Discerns use.alloc addr.toNat ↔ Harmless use.alloc addr.toNat) (init mem) calls := by
  -- What is needed of the units holds behind every call.
  have formed : Runs.Always step (fun use => Formed mem use.alloc) (init mem) calls :=
    Runs.always_of_preserved (fun use call after formed taken => formed.step taken) Formed.init
  exact formed.mono fun use formed addr => formed.discerns_iff

/-- A block that has been freed is freed again, and its place moves down by the stale offset. -/
theorem discerns_doubleFree :
    Runs.exec step (init ⟨0x1000, 0x1004, by decide, by decide, by decide⟩)
        [.alignAlloc 64 100 true, .dealloc 0x1040] = some ⟨{ start := 0x1004, size := 0x1000, units :=
          [{ status := .free, vaddr := 0x1004, length := 0x1000, offset := 60 }] }, []⟩ ∧
      ¬ Discerns { start := 0x1004, size := 0x1000, units :=
          [{ status := .free, vaddr := 0x1004, length := 0x1000, offset := 60 }] } 0x1004 := by
  refine ⟨by decide, fun discerns => ?_⟩
  have none : ¬ LiveAt { start := 0x1004, size := 0x1000, units :=
      [{ status := .free, vaddr := 0x1004, length := 0x1000, offset := 60 }] } 0x1004 := by
    simp [LiveAt]
  have same := congrArg Prod.snd (discerns.other none)
  revert same
  decide

end HeapUse

end Aip
