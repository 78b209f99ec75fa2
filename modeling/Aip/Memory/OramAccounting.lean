import Mathlib.Algebra.Order.BigOperators.Group.List
import Mathlib.Algebra.Order.Group.Nat
import Aip.Memory.OramLaws

/-! The number of bytes in use that the on-chip memory reports, over runs with any frees. -/

namespace Aip

/-- The sum of the lengths of the busy nodes. -/
def busySum (cells : List (Nat × Buf)) : Nat :=
  ((cells.filter fun x => x.2.status = .busy).map fun x => x.2.length).sum

namespace OramUse

/-- The reported size is what the busy nodes have. -/
def Counted (use : OramUse) : Prop :=
  use.oram.info.usedSize = busySum use.oram.list.cells

instance (use : OramUse) : Decidable use.Counted := inferInstanceAs (Decidable (_ = _))

/-- Freeing an address that no user holds changes neither the nodes nor the size. -/
def Ignored (use : OramUse) (call : OramCall) (after : OramUse) : Prop :=
  ∀ addr, call = .free addr → ¬ use.Known addr.toNat →
    after.oram.list.cells = use.oram.list.cells ∧
      after.oram.info.usedSize = use.oram.info.usedSize

/-- The first node with the address is a free one that is not empty. -/
def Stale (use : OramUse) (addr : Nat) : Prop :=
  ∃ x, (use.oram.list.cells.find? fun x => x.2.usrVa = addr) = some x ∧
    x.2.status = .free ∧ x.2.length ≠ 0

/-- The call is not a free of an address that a free node still carries. -/
def Fresh (use : OramUse) (call : OramCall) (_ : OramUse) : Prop :=
  ∀ addr, call = .free addr → ¬ use.Stale addr.toNat

/-- The list is a tidy one and the count is what its busy nodes have. -/
def Balanced (buf : SocMemBuf) (use : OramUse) : Prop :=
  ∃ cells, use.oram.Tidy buf cells ∧ use.oram.memoryUsed = busySum cells

end OramUse

variable {buf : SocMemBuf} {cells cells' xs ys : List (Nat × Buf)} {b t : Buf} {size p : Nat}
  {use after : OramUse} {call : OramCall} {o oram : Oram} {addr : Nat}

/-- The busy nodes of two lists add up. -/
theorem busySum_append : busySum (xs ++ ys) = busySum xs + busySum ys := by
  simp [busySum]

/-- A node counts when it is busy. -/
theorem busySum_cons : busySum ((p, b) :: xs) =
    (if b.status = .busy then b.length else 0) + busySum xs := by
  by_cases busy : b.status = .busy <;> simp [busySum, busy]

/-- Free nodes do not count. -/
theorem busySum_idle (idle : ∀ x ∈ xs, x.2.status = .free) : busySum xs = 0 := by
  have none : (xs.filter fun x => x.2.status = .busy) = [] := by
    rw [List.filter_eq_nil_iff]
    intro x member
    simp [idle x member]
  simp [busySum, none]

/-- The busy nodes are not longer than the memory. -/
theorem busySum_le (tidy : o.Tidy buf cells) : busySum cells ≤ buf.size := by
  -- Leaving out the free nodes can only shorten the sum.
  have whole : o.Tidy buf ([] ++ cells ++ []) := by simpa using tidy
  have bound := whole.lengths_le
  have part : busySum cells ≤ (cells.map fun x => x.2.length).sum := by
    exact (List.filter_sublist.map _).sum_le_sum fun _ _ => Nat.zero_le _
  omega

/-- Serving an allocation adds the length of the node that is handed out. -/
theorem Served.busySum (served : Served size cells cells' t) :
    busySum cells' = busySum cells + t.length := by
  cases served with
  | split free fits => simp [busySum_append, busySum_cons, free, Buf.take, Buf.rest]; omega
  | whole free fits => simp [busySum_append, busySum_cons, free, Buf.take]; omega

/-- An allocation keeps the count. -/
theorem AllocOutcome.counted (outcome : AllocOutcome o cells size oram addr)
    (tidy : o.Tidy buf cells) : ∃ cells', oram.Tidy buf cells' ∧
      (o.memoryUsed = busySum cells → oram.memoryUsed = busySum cells') := by
  -- The sum of busy lengths grows by the length of the node taken, and does not wrap.
  cases outcome with
  | refused => exact ⟨cells, tidy, id⟩
  | @served cells' t list served holds =>
    have after := tidy.served served holds ((o.memoryUsed + t.length) % 2 ^ 32)
    have bound := busySum_le after
    have visible := buf.visible
    have sum := served.busySum
    refine ⟨cells', after, fun counted => ?_⟩
    show (o.memoryUsed + t.length) % 2 ^ 32 = busySum cells'
    rw [counted, ← sum]
    exact Nat.mod_eq_of_lt (by omega)

/-- A free changes nothing, frees a busy node, or counts a free one out a second time. -/
theorem FreeOutcome.counted (outcome : FreeOutcome o cells addr oram) (tidy : o.Tidy buf cells) :
    ∃ cells', oram.Tidy buf cells' ∧
      ((oram = o ∧ cells' = cells ∧ ∀ x ∈ cells, x.2.usrVa ≠ addr) ∨
      ∃ x, (cells.find? fun x => x.2.usrVa = addr) = some x ∧
        oram.memoryUsed = (o.memoryUsed + 2 ^ 32 - x.2.length) % 2 ^ 32 ∧
        (x.2.status = .busy ∧ busySum cells' + x.2.length = busySum cells ∨
          x.2.status = .free ∧ cells' = cells)) := by
  cases outcome with
  | unknown absent => exact ⟨cells, tidy, Or.inl ⟨rfl, rfl, absent⟩⟩
  | @released before front back after rest p s b h list same found earlier idle prev next run
      holds =>
    subst same
    have done := tidy.released run prev next holds ((o.memoryUsed + 2 ^ 32 - b.length) % 2 ^ 32)
    have search := Oram.find_first p back after found earlier
    refine ⟨_, done, Or.inr ⟨(p, b), search, rfl, ?_⟩⟩
    cases status : b.status with
    | busy =>
      -- Only the node itself counted among those that are joined.
      have free := Buf.join_free run idle
      have left := busySum_idle fun x member => idle x (List.mem_append_left back member)
      have right := busySum_idle fun x member => idle x (List.mem_append_right front member)
      refine Or.inl ⟨rfl, ?_⟩
      simp only [busySum_append, busySum_cons, left, right, free, status, if_true]
      simp
      omega
    | free =>
      exact Or.inr ⟨rfl, tidy.unchanged status idle run⟩

namespace OramUse

/-- The first state is balanced. -/
theorem balanced_init : Balanced buf (init buf) := ⟨_, Oram.tidy_init, rfl⟩

/-- A balanced state reports what its busy nodes have. -/
theorem Balanced.counted (balanced : use.Balanced buf) : use.Counted := by
  obtain ⟨cells, tidy, sum⟩ := balanced
  rw [Counted, tidy.holds.cells_eq]
  exact sum

/-- A call that meets no stale address keeps the balance and ignores what nobody holds. -/
theorem Balanced.sound (balanced : use.Balanced buf) (taken : use.step call = some after)
    (fresh : use.Fresh call after) : after.Balanced buf ∧ use.Ignored call after := by
  obtain ⟨cells, tidy, sum⟩ := balanced
  obtain ⟨result, returned, cases⟩ := step_cases call tidy
  cases taken.symm.trans returned
  have here := tidy.holds.cells_eq
  rcases cases with ⟨other, oram, addr, outcome, rfl⟩ | ⟨addr, oram, rfl, outcome, rfl⟩
  · -- An allocation is not a free.
    obtain ⟨cells', after, counted⟩ := outcome.counted tidy
    exact ⟨⟨cells', after, counted sum⟩, fun addr free => (other addr free).elim⟩
  · have visible := buf.visible
    obtain ⟨cells', after, cases⟩ := outcome.counted tidy
    have there := after.holds.cells_eq
    have bound := busySum_le tidy
    rcases cases with ⟨rfl, rfl, _⟩ | ⟨x, search, used, busy | free⟩
    · exact ⟨⟨cells', after, sum⟩, fun _ _ _ => ⟨rfl, rfl⟩⟩
    · -- The node was busy, so its address was held.
      obtain ⟨status, less⟩ := busy
      refine ⟨⟨cells', after, ?_⟩, fun other same unknown => ?_⟩
      · show oram.memoryUsed = _
        omega
      · cases same
        have found := List.find?_some search
        have member := List.mem_of_find?_eq_some search
        exact (unknown ⟨x, by rw [here]; exact member, status, by simpa using found⟩).elim
    · -- The node was free, so it must have been empty.
      obtain ⟨status, rfl⟩ := free
      have empty : x.2.length = 0 := by
        by_contra long
        exact fresh addr rfl ⟨x, by rw [here]; exact search, status, long⟩
      have same : oram.memoryUsed = use.oram.memoryUsed := by omega
      exact ⟨⟨cells', after, same.trans sum⟩, fun _ _ _ => ⟨there.trans here.symm, same⟩⟩

/-- A call that keeps the count has met no stale address. -/
theorem Balanced.exact (balanced : use.Balanced buf) (taken : use.step call = some after)
    (counted : after.Counted) : use.Fresh call after := by
  obtain ⟨cells, tidy, sum⟩ := balanced
  intro addr free stale
  subst free
  obtain ⟨x, search, status, long⟩ := stale
  rw [tidy.holds.cells_eq] at search
  obtain ⟨result, returned, cases⟩ := step_cases (.free addr) tidy
  cases taken.symm.trans returned
  rcases cases with ⟨other, _⟩ | ⟨addr', oram, same, outcome, rfl⟩
  · exact other addr rfl
  · cases same
    have visible := buf.visible
    have bound := busySum_le tidy
    obtain ⟨cells', after, cases⟩ := outcome.counted tidy
    -- The report counts the empty space of the free node as freed.
    have report : oram.memoryUsed = busySum cells' := by
      rw [← after.holds.cells_eq]
      exact counted
    rcases cases with ⟨_, _, absent⟩ | ⟨y, again, used, busy | idle⟩
    · have found := List.find?_some search
      exact absent x (List.mem_of_find?_eq_some search) (by simpa using found)
    · cases search.symm.trans again
      rw [status] at busy
      cases busy.1
    · cases search.symm.trans again
      obtain ⟨_, rfl⟩ := idle
      obtain ⟨low, high⟩ := tidy.bounds (List.mem_of_find?_eq_some search)
      omega

/--
The reported size is exact in every state, and a free of an address that nobody holds is ignored,
exactly when no free of the run meets an address that a free node still carries.
-/
theorem usedSize_exact (buf : SocMemBuf) (calls : List OramCall) :
    (∃ use, Runs.exec step (init buf) calls = some use) ∧
    ((Runs.Always step Counted (init buf) calls ∧ Runs.Each step Ignored (init buf) calls) ↔
      Runs.Each step Fresh (init buf) calls) := by
  -- Stale addresses spoil the count and not the list, so every call returns in any case.
  refine ⟨returns buf calls, Runs.safe_iff (fun use balanced => balanced.counted)
    (fun use call after balanced taken fresh => balanced.sound taken fresh)
    (fun use call after balanced taken counted _ => balanced.exact taken counted) balanced_init⟩

/-- Freeing `NULL` while a remainder is free counts the remainder out, below zero. -/
theorem usedSize_wraps :
    ¬ (Runs.Always step Counted (init .uncached) [.malloc 100 true, .free 0] ∧
      Runs.Each step Ignored (init .uncached) [.malloc 100 true, .free 0]) := by
  intro claim
  exact absurd (claim.1.last rfl) (by decide)

end OramUse

end Aip
