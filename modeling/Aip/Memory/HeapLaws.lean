import Aip.Memory.Heap

/-! What one call does to the units of the shared memory. -/

namespace Aip

open Blocks Tiling

namespace Bufunit

/-- The stretch of a unit: a busy one has its address behind the bytes that align it. -/
def region (unit : Bufunit) : Region where
  start := if unit.status = .busy then (unit.vaddr + 2 ^ 32 - unit.offset) % 2 ^ 32 else unit.vaddr
  size := unit.length

/-- Units as blocks of the shared memory, known by their address. -/
def view : View Bufunit where
  region := region
  busy := fun unit => unit.status = .busy
  key := vaddr

variable {unit next : Bufunit} {size offset : Nat}

/-- A unit is either free or busy. -/
theorem view_busy : view.busy unit = true ↔ unit.status = .busy := by simp [view]

/-- A unit that is free counts as a free block. -/
theorem view_idle (free : unit.status = .free) : view.busy unit = false := by
  simp [view, free]

/-- A unit that is not busy is free. -/
theorem free_iff : unit.status = .free ↔ ¬ unit.status = .busy := by
  cases unit.status <;> simp

/-- A free unit starts at its address. -/
theorem region_free (free : unit.status = .free) : unit.region = ⟨unit.vaddr, unit.length⟩ := by
  simp [region, free]

/-- A unit that is released starts where it did. -/
theorem region_release (busy : unit.status = .busy) : unit.release.region = unit.region := by
  simp [region, release, busy]

/-- A unit that is taken starts where it did, in front of the bytes that align it. -/
theorem region_take (small : unit.vaddr < 2 ^ 32) (offset_lt : offset < 2 ^ 32) :
    (unit.take size offset).region = ⟨unit.vaddr, (size + offset) % 2 ^ 32⟩ := by
  simp only [region, take, if_true, Region.mk.injEq, and_true]
  omega

/-- The part behind a unit that is taken is what is left of it. -/
theorem region_rest (fits : (size + offset) % 2 ^ 32 ≤ unit.length)
    (small : unit.vaddr + unit.length < 2 ^ 32) (size_lt : size < 2 ^ 32)
    (offset_lt : offset < 2 ^ 32) : (unit.rest size offset).region =
      ⟨unit.vaddr + (size + offset) % 2 ^ 32, unit.length - (size + offset) % 2 ^ 32⟩ := by
  simp only [region, rest, reduceCtorEq, if_false, Region.mk.injEq]
  omega

end Bufunit

/-- A unit has joined the free unit behind it, unless there is none. -/
def JoinsNext (self joined : Bufunit) (back right : List Bufunit) : Prop :=
  back = [] ∧ joined = self ∧ (∀ u ∈ right.head?, u.status ≠ .free) ∨
    ∃ next, back = [next] ∧ next.status = .free ∧ joined = self.grow next

/-- A unit has been joined by the free unit in front of it, unless there is none. -/
def JoinsPrev (joined merged : Bufunit) (left front : List Bufunit) : Prop :=
  front = [] ∧ merged = joined ∧ (∀ u ∈ left.getLast?, u.status ≠ .free) ∨
    ∃ prev, front = [prev] ∧ prev.status = .free ∧ merged = prev.grow joined

open Bufunit

variable {units before after : List Bufunit} {unit self : Bufunit} {fit : Fit} {alloc : Alloc}
  {size alignsize addr low high : Nat} {room : Bool}

/-- The loop ends at a free unit that is long enough, with the bytes that align it. -/
theorem findFit_spec (found : findFit size alignsize units = some fit) :
    units = fit.before ++ fit.unit :: fit.after ∧ fit.unit.status = .free ∧
      (size + fit.offset) % 2 ^ 32 ≤ fit.unit.length ∧
      (alignsize ≠ 0 → (fit.unit.vaddr + fit.offset) % alignsize = 0 ∧ fit.offset < alignsize) := by
  induction units generalizing fit with
  | nil => cases found
  | cons unit rest ih =>
    -- Either the loop ends at this unit, or it goes on behind it.
    have further : (findFit size alignsize rest).map (Fit.behind unit) = some fit →
        unit :: rest = fit.before ++ fit.unit :: fit.after ∧ fit.unit.status = .free ∧
        (size + fit.offset) % 2 ^ 32 ≤ fit.unit.length ∧
        (alignsize ≠ 0 →
          (fit.unit.vaddr + fit.offset) % alignsize = 0 ∧ fit.offset < alignsize) := by
      intro later
      obtain ⟨fit', found', rfl⟩ := Option.map_eq_some_iff.mp later
      obtain ⟨same, others⟩ := ih found'
      exact ⟨congrArg (List.cons unit) same, others⟩
    rw [findFit] at found
    split at found
    · rename_i suits
      split at found
      · rename_i misfit
        dsimp only at found
        split at found
        · cases found
          refine ⟨rfl, suits.1, by assumption, fun nonzero => ?_⟩
          have below := Nat.mod_lt unit.vaddr (Nat.pos_of_ne_zero nonzero)
          have parts := Nat.div_add_mod unit.vaddr alignsize
          have whole : unit.vaddr + (alignsize - unit.vaddr % alignsize) =
              alignsize * (unit.vaddr / alignsize + 1) := by
            rw [Nat.mul_add]
            omega
          refine ⟨?_, Nat.sub_lt (Nat.pos_of_ne_zero nonzero) (Nat.pos_of_ne_zero misfit)⟩
          show (unit.vaddr + (alignsize - unit.vaddr % alignsize)) % alignsize = 0
          rw [whole, Nat.mul_mod_right]
        · exact further found
      · rename_i aligned
        cases found
        refine ⟨rfl, suits.1, (Nat.mod_le _ _).trans suits.2, fun nonzero => ?_⟩
        exact ⟨by simpa using aligned, Nat.pos_of_ne_zero nonzero⟩
    · exact further found

/-- The unit at which the loop ends is as long as the request, without the bytes that align it. -/
theorem findFit_size (found : findFit size alignsize units = some fit) :
    size ≤ fit.unit.length := by
  induction units generalizing fit with
  | nil => cases found
  | cons unit rest ih =>
    have further : (findFit size alignsize rest).map (Fit.behind unit) = some fit →
        size ≤ fit.unit.length := by
      intro later
      obtain ⟨fit', found', rfl⟩ := Option.map_eq_some_iff.mp later
      have length := ih found'
      exact length
    rw [findFit] at found
    split at found
    · -- The unit is long enough for the request before its alignment is looked at.
      rename_i suits
      dsimp only at found
      split at found
      · split at found
        · cases found
          exact suits.2
        · exact further found
      · cases found
        exact suits.2
    · exact further found

/-- What `Local_alignAlloc` comes to: `NULL`, or a unit taken whole or cut in two. -/
theorem localAlignAlloc_cases (alloc : Alloc) (alignsize size : Nat) (room : Bool) :
    (localAlignAlloc alloc alignsize size room = (alloc, 0) ∧ ∀ fit, alignsize ≠ 0 →
      findFit size alignsize alloc.units = some fit → fit.alloc size room = none) ∨
    ∃ fit front, alignsize ≠ 0 ∧ findFit size alignsize alloc.units = some fit ∧
      (fit.alloc size room).isSome ∧ localAlignAlloc alloc alignsize size room =
        ({ alloc with units :=
            fit.before ++ (fit.unit.take size fit.offset :: front) ++ fit.after },
          (fit.unit.take size fit.offset).vaddr) ∧
      (front = [] ∧ (size + fit.offset) % 2 ^ 32 = fit.unit.length ∨
        front = [fit.unit.rest size fit.offset] ∧
          (size + fit.offset) % 2 ^ 32 < fit.unit.length) := by
  -- The call is refused by its alignment, by the search, or by a split without a new unit.
  by_cases invalid : alignsize = 0
  · exact Or.inl ⟨by rw [localAlignAlloc, if_pos invalid], fun _ valid => (valid invalid).elim⟩
  cases found : findFit size alignsize alloc.units with
  | none =>
    refine Or.inl ⟨?_, fun _ _ other => by cases other⟩
    simp only [localAlignAlloc, invalid, if_false, allocBufunit, found]
    rfl
  | some fit =>
    obtain ⟨_, _, fits, _⟩ := findFit_spec found
    have answer : localAlignAlloc alloc alignsize size room =
        alloc.answer (fit.alloc size room) := by
      rw [localAlignAlloc, if_neg invalid, allocBufunit, found]
      rfl
    by_cases long : (size + fit.offset) % 2 ^ 32 < fit.unit.length
    · cases room with
      | false =>
        have none : fit.alloc size false = none := by
          rw [Fit.alloc, if_pos long]
          rfl
        refine Or.inl ⟨?_, fun fit' _ same => ?_⟩
        · rw [answer, none]
          rfl
        · cases same
          exact none
      | true =>
        have given : fit.alloc size true =
            some (fit.before ++ (fit.unit.take size fit.offset ::
              [fit.unit.rest size fit.offset]) ++ fit.after,
              (fit.unit.take size fit.offset).vaddr) := by
          rw [Fit.alloc, if_pos long, List.append_assoc]
          rfl
        refine Or.inr ⟨fit, [fit.unit.rest size fit.offset], invalid, rfl, ?_, ?_,
          Or.inr ⟨rfl, long⟩⟩
        · rw [given]
          rfl
        · rw [answer, given]
          rfl
    · have given : fit.alloc size room = some (fit.before ++ [fit.unit.take size fit.offset] ++
          fit.after, (fit.unit.take size fit.offset).vaddr) := by
        rw [Fit.alloc, if_neg long, List.append_assoc]
        rfl
      refine Or.inr ⟨fit, [], invalid, rfl, ?_, ?_, Or.inl ⟨rfl, by omega⟩⟩
      · rw [given]
        rfl
      · rw [answer, given]
        rfl

/-- A unit is found by address as the first one that has it. -/
theorem findBufunitByaddr_eq (addr : Nat) (units : List Bufunit) :
    (findBufunitByaddr addr units = none ∧ ∀ u ∈ units, u.vaddr ≠ addr) ∨
    ∃ before self after, findBufunitByaddr addr units = some (before, self, after) ∧
      units = before ++ self :: after ∧ self.vaddr = addr ∧ ∀ u ∈ before, u.vaddr ≠ addr := by
  -- The induction is on the units, of which the loop takes the first that has the address.
  induction units with
  | nil => exact Or.inl ⟨rfl, by simp⟩
  | cons unit rest ih =>
    by_cases here : unit.vaddr = addr
    · exact Or.inr ⟨[], unit, rest, by simp [findBufunitByaddr, here], rfl, here, by simp⟩
    · rcases ih with ⟨none, absent⟩ | ⟨before, self, after, found, same, key, earlier⟩
      · exact Or.inl ⟨by simp [findBufunitByaddr, here, none], by simpa [here] using absent⟩
      · refine Or.inr ⟨unit :: before, self, after, ?_, by simp [same], key, ?_⟩
        · simp [findBufunitByaddr, here, found]
        · simpa [here] using earlier

/-- A unit joins the free unit behind it, if there is one. -/
theorem joinNext_eq (self : Bufunit) (after : List Bufunit) : ∃ back rest joined,
    after = back ++ rest ∧ joinNext self after = joined :: rest ∧ joined.status = self.status ∧
      JoinsNext self joined back rest := by
  -- Only the next unit is looked at.
  cases after with
  | nil => exact ⟨[], [], self, rfl, rfl, rfl, Or.inl ⟨rfl, rfl, by simp⟩⟩
  | cons next rest =>
    by_cases free : next.status = .free
    · exact ⟨[next], rest, self.grow next, rfl, by simp [joinNext, free], rfl,
        Or.inr ⟨next, rfl, free, rfl⟩⟩
    · exact ⟨[], next :: rest, self, rfl, by simp [joinNext, free], rfl,
        Or.inl ⟨rfl, rfl, by simpa using free⟩⟩

/-- A freed unit joins the free units beside it, the one behind it first. -/
theorem freeBufunit_eq (before : List Bufunit) (self : Bufunit) (after : List Bufunit) :
    ∃ left front back right joined merged, before = left ++ front ∧ after = back ++ right ∧
      freeBufunit before self after = left ++ merged :: right ∧ merged.status = .free ∧
      JoinsNext self.release joined back right ∧ JoinsPrev joined merged left front := by
  -- The unit behind has been joined already when the one in front takes both over.
  obtain ⟨back, right, joined, rfl, next, status, behind⟩ := joinNext_eq self.release after
  cases before using List.reverseRecOn with
  | nil =>
    exact ⟨[], [], back, right, joined, joined, rfl, rfl, by simp [freeBufunit, next], status,
      behind, Or.inl ⟨rfl, rfl, by simp⟩⟩
  | append_singleton left prev =>
    by_cases free : prev.status = .free
    · exact ⟨left, [prev], back, right, joined, prev.grow joined, rfl, rfl,
        by simp [freeBufunit, next, joinPrev, free], free, behind, Or.inr ⟨prev, rfl, free, rfl⟩⟩
    · exact ⟨left ++ [prev], [], back, right, joined, joined, by simp, rfl,
        by simp [freeBufunit, next, joinPrev, free], status, behind,
        Or.inl ⟨rfl, rfl, by simpa using free⟩⟩

/-- What `Local_Dealloc` comes to: nothing, or the first unit with the address is freed. -/
theorem localDealloc_cases (alloc : Alloc) (addr : Nat) :
    (localDealloc alloc addr = (alloc, 0) ∧ (addr = 0 ∨ ∀ u ∈ alloc.units, u.vaddr ≠ addr)) ∨
    ∃ left front self back right joined merged, addr ≠ 0 ∧
      alloc.units = left ++ (front ++ self :: back) ++ right ∧ self.vaddr = addr ∧
      (∀ u ∈ left ++ front, u.vaddr ≠ addr) ∧
      localDealloc alloc addr = ({ alloc with units := left ++ merged :: right },
        (self.length + 2 ^ 32 - self.offset) % 2 ^ 32) ∧ merged.status = .free ∧
      JoinsNext self.release joined back right ∧ JoinsPrev joined merged left front := by
  -- `NULL` and an address that no unit has leave everything as it is.
  by_cases null : addr = 0
  · exact Or.inl ⟨by rw [localDealloc, if_pos null], Or.inl null⟩
  rcases findBufunitByaddr_eq addr alloc.units with
    ⟨none, absent⟩ | ⟨before, self, after, found, same, key, earlier⟩
  · refine Or.inl ⟨?_, Or.inr absent⟩
    rw [localDealloc, if_neg null, none]
  · obtain ⟨left, front, back, right, joined, merged, rfl, rfl, freed, free, behind, ahead⟩ :=
      freeBufunit_eq before self after
    refine Or.inr ⟨left, front, self, back, right, joined, merged, null, by simp [same], key,
      earlier, ?_, free, behind, ahead⟩
    rw [localDealloc, if_neg null, found]
    exact congrArg (fun units => ({ alloc with units := units }, _)) freed

/-- The first unit with an address is the one that is found. -/
theorem find_first {left front : List Bufunit} (back right : List Bufunit) (key : self.vaddr = addr)
    (earlier : ∀ u ∈ left ++ front, u.vaddr ≠ addr) :
    ((left ++ (front ++ self :: back) ++ right).find? fun u => u.vaddr = addr) = some self := by
  rw [List.find?_eq_some_iff_append]
  exact ⟨by simpa using key, left ++ front, back ++ right, by simp, by simpa using earlier⟩

section Stretches

variable {front back left right : List Bufunit} {joined merged : Bufunit} {offset : Nat}

/-- A free unit that is taken, with what is left of it, covers what it covered. -/
theorem take_covers (fits : (size + offset) % 2 ^ 32 ≤ unit.length)
    (small : unit.vaddr + unit.length < 2 ^ 32) (size_lt : size < 2 ^ 32)
    (offset_lt : offset < 2 ^ 32)
    (cut : front = [] ∧ (size + offset) % 2 ^ 32 = unit.length ∨
      front = [unit.rest size offset] ∧ (size + offset) % 2 ^ 32 < unit.length) :
    Tiles region unit.vaddr (unit.take size offset :: front) (unit.vaddr + unit.length) := by
  -- The unit taken ends where the request does, and the rest, if any, from there on.
  have taken : (unit.take size offset).region = ⟨unit.vaddr, (size + offset) % 2 ^ 32⟩ :=
    region_take (by omega) offset_lt
  rcases cut with ⟨rfl, whole⟩ | ⟨rfl, _⟩
  · exact tiles_singleton.mpr (by rw [taken]; exact ⟨rfl, by rw [whole]⟩)
  · have left := region_rest fits small size_lt offset_lt
    refine ⟨by rw [taken], ?_⟩
    apply tiles_singleton.mpr
    rw [taken, left]
    exact ⟨rfl, by dsimp only; omega⟩

/-- In units that tile a visible memory, the loop ends at one inside it. -/
theorem findFit_within (tiles : Tiles region low units high)
    (found : findFit size alignsize units = some fit) :
    fit.unit.status = .free ∧ (size + fit.offset) % 2 ^ 32 ≤ fit.unit.length ∧
      low ≤ fit.unit.vaddr ∧ fit.unit.vaddr + fit.unit.length ≤ high := by
  obtain ⟨same, free, fits, _⟩ := findFit_spec found
  have bound := tiles.within (x := fit.unit) (by rw [same]; simp)
  rw [region_free free] at bound
  exact ⟨free, fits, bound⟩

/-- A unit that takes over the one behind it covers what both did. -/
theorem grow_covers (free : unit.status = .free) (small : high < 2 ^ 32) {next : Bufunit}
    (tiles : Tiles region low [unit, next] high) : Tiles region low [unit.grow next] high := by
  -- The sum of the lengths is within the memory, so it does not wrap.
  obtain ⟨start, _, stop⟩ := tiles
  simp only [Tiles, region] at stop
  have length : (unit.length + next.length) % 2 ^ 32 = unit.length + next.length := by
    rw [Nat.mod_eq_of_lt]
    omega
  rw [region_free free] at start
  apply tiles_singleton.mpr
  have grown : (unit.grow next).region = ⟨unit.vaddr, (unit.grow next).length⟩ := region_free free
  rw [grown]
  refine ⟨start, ?_⟩
  show low + (unit.length + next.length) % 2 ^ 32 = high
  omega

/-- A unit that is freed covers, with the free ones beside it, what they covered. -/
theorem free_covers (busy : self.status = .busy) (small : high < 2 ^ 32)
    (behind : JoinsNext self.release joined back right) (ahead : JoinsPrev joined merged left front)
    {lo hi : Nat} (bound : hi ≤ high) (tiles : Tiles region lo (front ++ self :: back) hi) :
    Tiles region lo [merged] hi := by
  obtain ⟨mid, first, second⟩ := tiles_append.mp tiles
  -- First the unit behind is joined, then the one ahead.
  have here : Tiles region mid [joined] hi := by
    have freed : Tiles region mid (self.release :: back) hi :=
      (tiles_congr (by simp [region_release busy])).mp second
    rcases behind with ⟨rfl, rfl, _⟩ | ⟨next, rfl, _, rfl⟩
    · exact freed
    · exact grow_covers rfl (Nat.lt_of_le_of_lt bound small) freed
  have both := tiles_append.mpr ⟨mid, first, here⟩
  rcases ahead with ⟨rfl, rfl, _⟩ | ⟨prev, rfl, free, rfl⟩
  · exact both
  · exact grow_covers free (Nat.lt_of_le_of_lt bound small) both

/-- The units that a freed unit joins are free. -/
theorem joins_idle (behind : JoinsNext self.release joined back right)
    (ahead : JoinsPrev joined merged left front) :
    ∀ u ∈ front ++ back, view.busy u = false := by
  -- On each side there is no such unit, or one that the code has found free.
  intro u beside
  rcases List.mem_append.mp beside with inFront | inBack
  · rcases ahead with ⟨rfl, _⟩ | ⟨prev, rfl, idle, _⟩
    · cases inFront
    · rw [List.mem_singleton.mp inFront]
      exact view_idle idle
  · rcases behind with ⟨rfl, _⟩ | ⟨next, rfl, idle, _⟩
    · cases inBack
    · rw [List.mem_singleton.mp inBack]
      exact view_idle idle

/-- What stands in front of the units that a freed unit joins is busy. -/
theorem JoinsPrev.busy (ahead : JoinsPrev joined merged left front)
    (chain : (left ++ (front ++ self :: back) ++ right).IsChain
      fun u w => view.busy u = true ∨ view.busy w = true) :
    ∀ w ∈ left.getLast?, view.busy w = true := by
  -- Either the join stopped there, or a free unit is between, which has no free neighbour.
  intro w last
  rcases ahead with ⟨_, _, stops⟩ | ⟨prev, rfl, idle, _⟩
  · have stop := stops w last
    rw [ne_eq, free_iff, not_not] at stop
    exact view_busy.mpr stop
  · rw [List.append_assoc, List.append_assoc] at chain
    have linked := (Splice.isChain_around.mp chain).2.1 w last
    rw [view_idle idle] at linked
    exact linked.resolve_right Bool.false_ne_true

/-- What stands behind the units that a freed unit joins is busy. -/
theorem JoinsNext.busy (behind : JoinsNext self.release joined back right)
    (chain : (left ++ (front ++ self :: back) ++ right).IsChain
      fun u w => view.busy u = true ∨ view.busy w = true) :
    ∀ w ∈ right.head?, view.busy w = true := by
  -- The same on the other side.
  intro w head
  rcases behind with ⟨_, _, stops⟩ | ⟨next, rfl, idle, _⟩
  · have stop := stops w head
    rw [ne_eq, free_iff, not_not] at stop
    exact view_busy.mpr stop
  · have around : left ++ (front ++ self :: [next]) ++ right =
        (left ++ (front ++ [self])) ++ next :: right := by simp
    rw [around] at chain
    have linked := (Splice.isChain_around.mp chain).2.2.1 w head
    rw [view_idle idle] at linked
    exact linked.resolve_left Bool.false_ne_true

end Stretches

namespace HeapUse

variable {use after : HeapUse} {call : HeapCall}

/-- A call allocates what it requests, or frees. -/
theorem step_cases (taken : use.step call = some after) :
    (∃ size alignsize, call.request = some (size, alignsize) ∧ size < 2 ^ 32 ∧
      alignsize < 2 ^ 32 ∧ use.answer call = localAlignAlloc use.alloc alignsize size call.room ∧
      after = use.granted size (localAlignAlloc use.alloc alignsize size call.room)) ∨
    ∃ addr, call = .dealloc addr ∧
      after = use.returned addr.toNat (localDealloc use.alloc addr.toNat) := by
  -- The calls differ in the size and the alignment that they pass on.
  cases call with
  | alignAlloc alignsize size room =>
    cases taken
    exact Or.inl ⟨_, _, rfl, size.toNat_lt, alignsize.toNat_lt, rfl, rfl⟩
  | alloc nbytes room =>
    cases taken
    exact Or.inl ⟨_, _, rfl, nbytes.toNat_lt, by decide, rfl, rfl⟩
  | calloc size n room =>
    cases taken
    exact Or.inl ⟨_, _, rfl, Nat.mod_lt _ (by decide), by decide, rfl, rfl⟩
  | dealloc addr =>
    cases taken
    exact Or.inr ⟨addr, rfl, rfl⟩

end HeapUse

end Aip
