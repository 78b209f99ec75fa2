import Aip.Memory.Oram

/-! What one call does to the list of the on-chip memory, and that the list keeps tiling it. -/

namespace Aip

open Dlist Blocks

/-- Nodes as blocks of an address space, known by the address a user holds. -/
def Buf.view (start key : Buf → Nat) : View Buf where
  region := fun buf => ⟨start buf, buf.length⟩
  busy := fun buf => buf.status = .busy
  key := key

/-- Nodes as blocks of virtual memory. -/
abbrev Buf.virtual : View Buf := Buf.view Buf.va Buf.usrVa

/-- Nodes as blocks of physical memory. -/
abbrev Buf.physical : View Buf := Buf.view Buf.pa Buf.usrPa

/-- The list consists of these nodes, and they cut both address spaces of the memory. -/
structure Oram.Tidy (buf : SocMemBuf) (o : Oram) (cells : List (Nat × Buf)) : Prop where
  holds : o.list.Holds cells
  virtual : Cut Buf.virtual buf.vaddr (buf.vaddr + buf.size) (cells.map Prod.snd)
  physical : Cut Buf.physical buf.paddr (buf.paddr + buf.size) (cells.map Prod.snd)

/-- A free node is taken whole, or cut into a busy one and a free one behind it. -/
inductive Served (size : Nat) : List (Nat × Buf) → List (Nat × Buf) → Buf → Prop where
  | split {xs ys : List (Nat × Buf)} {p q ofs : Nat} {b : Buf} (free : b.status = .free)
      (fits : size + ofs ≤ b.length) : Served size (xs ++ (p, b) :: ys)
        (xs ++ (p, b.take ofs (size + ofs)) :: (q, b.rest (size + ofs)) :: ys)
        (b.take ofs (size + ofs))
  | whole {xs ys : List (Nat × Buf)} {p ofs : Nat} {b : Buf} (free : b.status = .free)
      (fits : size + ofs ≤ b.length) : Served size (xs ++ (p, b) :: ys)
        (xs ++ (p, b.take ofs b.length) :: ys) (b.take ofs b.length)

/-- What an allocation comes to: the state and the address it answers with. -/
inductive AllocOutcome (o : Oram) (cells : List (Nat × Buf)) (size : Nat) : Oram → Nat → Prop where
  | refused : AllocOutcome o cells size o 0
  | served {cells' : List (Nat × Buf)} {t : Buf} {list : BufList}
      (served : Served size cells cells' t) (holds : list.Holds cells') :
      AllocOutcome o cells size
        { o with list := list, memoryUsed := (o.memoryUsed + t.length) % 2 ^ 32 } t.usrVa

/-- What a free comes to: nothing, or the first node with the address joins its free run. -/
inductive FreeOutcome (o : Oram) (cells : List (Nat × Buf)) (addr : Nat) : Oram → Prop where
  | unknown (absent : ∀ x ∈ cells, x.2.usrVa ≠ addr) : FreeOutcome o cells addr o
  | released {before front back after rest : List (Nat × Buf)} {p s : Nat} {b h : Buf}
      {list : BufList} (same : cells = before ++ (front ++ (p, b) :: back) ++ after)
      (found : b.usrVa = addr) (earlier : ∀ x ∈ before ++ front, x.2.usrVa ≠ addr)
      (idle : ∀ x ∈ front ++ back, x.2.status = .free)
      (prev : ∀ x ∈ before.getLast?, x.2.status ≠ .free)
      (next : ∀ x ∈ after.head?, x.2.status ≠ .free)
      (run : front ++ (p, { b with status := .free }) :: back = (s, h) :: rest)
      (holds : list.Holds (before ++
        (s, { h with length := (((s, h) :: rest).map fun x => x.2.length).sum }) :: after)) :
      FreeOutcome o cells addr
        { o with list := list, memoryUsed := (o.memoryUsed + 2 ^ 32 - b.length) % 2 ^ 32 }

/-- An address that some user holds, as far as the nodes go. -/
def OramUse.Known (use : OramUse) (addr : Nat) : Prop :=
  ∃ x ∈ use.oram.list.cells, x.2.status = .busy ∧ x.2.usrVa = addr

variable {buf : SocMemBuf} {o : Oram} {cells cells' xs ys : List (Nat × Buf)} {b t : Buf}
  {p size align fuel : Nat} {node : Bool}

/-- A node is either free or busy. -/
theorem Buf.busy_iff {start key : Buf → Nat} : (Buf.view start key).busy b = true ↔
    b.status ≠ .free := by
  cases status : b.status <;> simp [Buf.view, status]

/-- A node that is free counts as a free block. -/
theorem Buf.idle {start key : Buf → Nat} (free : b.status = .free) :
    (Buf.view start key).busy b = false := by
  simp [Buf.view, free]

namespace Oram

/-- One node for the whole memory is a tidy list. -/
theorem tidy_init : Tidy buf (init buf) [(0, Buf.whole buf)] where
  holds := ⟨rfl, rfl, ⟨rfl, trivial⟩, by simp⟩
  virtual := Cut.init rfl rfl
  physical := Cut.init rfl rfl

/-- Every node lies inside the memory, on both sides of the mapping. -/
theorem Tidy.bounds (tidy : Tidy buf o cells) (member : (p, b) ∈ cells) :
    buf.vaddr ≤ b.va ∧ b.va + b.length ≤ buf.vaddr + buf.size ∧
      buf.paddr ≤ b.pa ∧ b.pa + b.length ≤ buf.paddr + buf.size := by
  have place : b ∈ cells.map Prod.snd := List.mem_map_of_mem (f := Prod.snd) member
  obtain ⟨low, high⟩ := tidy.virtual.tiles.within place
  obtain ⟨bottom, top⟩ := tidy.physical.tiles.within place
  exact ⟨low, high, bottom, top⟩

/-- Cutting a free node in two hands out its first part. -/
theorem split_served (ofs : Nat) (holds : o.list.Holds (xs ++ (p, b) :: ys))
    (free : b.status = .free) (fits : size + ofs ≤ b.length) :
    ∃ after addr, o.split p b ofs (size + ofs) = some (after, addr) ∧
      AllocOutcome o (xs ++ (p, b) :: ys) size after addr := by
  -- The new node is created, the old one is written to, and the new one goes behind it.
  obtain ⟨created, there, fresh⟩ := holds.createNode (b := b.rest (size + ofs))
  obtain ⟨taken, written, kept, others⟩ := created.setBuf fun c => c.take ofs (size + ofs)
  have notHere : o.list.heap.length ≠ p := Ne.symm (fresh (p, b) (by simp))
  have still := (others _ notHere).trans there
  obtain ⟨list, inserted, done⟩ := kept.insertAfter still (by
    intro x member
    simp only [List.mem_append, List.mem_cons] at member
    rcases member with left | same | right
    · exact fresh x (by simp [left])
    · rw [same]
      exact notHere.symm
    · exact fresh x (by simp [right]))
  refine ⟨_, _, ?_, .served (.split free fits) done⟩
  simp only [Oram.split, written, inserted, Option.bind_eq_bind, Option.bind_some]
  rfl

/-- The loop of `oram_malloc` serves a free node ahead of it or refuses. -/
theorem mallocFrom_outcome (holds : o.list.Holds (xs ++ ys)) (enough : ys.length < fuel) :
    ∃ after addr, o.mallocFrom size node fuel (first ys none) = some (after, addr) ∧
      AllocOutcome o (xs ++ ys) size after addr := by
  induction ys generalizing xs fuel with
  | nil =>
    obtain ⟨fuel, rfl⟩ := Nat.exists_eq_succ_of_ne_zero (show fuel ≠ 0 by omega)
    exact ⟨o, 0, rfl, .refused⟩
  | cons y ys ih =>
    obtain ⟨r, c⟩ := y
    obtain ⟨fuel, rfl⟩ := Nat.exists_eq_succ_of_ne_zero (show fuel ≠ 0 by omega)
    by_cases fit : c.status = .free ∧ size ≤ c.length
    · cases node with
      | false => exact ⟨o, 0, by simp [mallocFrom, holds.look, fit], .refused⟩
      | true =>
        have room : size + 0 ≤ c.length := fit.2
        obtain ⟨after, addr, cut, outcome⟩ := split_served 0 holds fit.1 room
        exact ⟨after, addr, by simpa [mallocFrom, holds.look, fit] using cut, outcome⟩
    · -- The walk goes on behind the node.
      have moved : o.list.Holds ((xs ++ [(r, c)]) ++ ys) := by simpa using holds
      obtain ⟨after, addr, looped, outcome⟩ := ih moved (Nat.lt_of_succ_lt_succ enough)
      refine ⟨after, addr, ?_, by simpa using outcome⟩
      simpa [mallocFrom, holds.look, fit] using looped

/-- On 32 bits, it makes no difference whether what is subtracted is signed. -/
theorem toUInt32_sub_toInt32 (n m : Nat) : toUInt32 (n - toInt32 m) = toUInt32 (n - m) := by
  simp only [toUInt32, toInt32]
  split <;> omega

/-- The bytes skipped in front lead to the next multiple of the alignment. -/
theorem curOfs_eq (aligned : align < 2 ^ 32) (positive : 0 < align) : b.curOfs align =
    toInt32 (if b.pa % align = 0 then 0 else align - b.pa % align) := by
  -- The difference that is computed on 32 bits is between zero and the alignment.
  have small := Nat.mod_lt b.pa positive
  have zero : b.misfit align = 0 ↔ b.pa % align = 0 := by
    simp only [Buf.misfit, toInt32]
    split <;> omega
  have difference : toUInt32 (align - b.misfit align) = align - b.pa % align := by
    rw [Buf.misfit, toUInt32_sub_toInt32, toUInt32]
    omega
  by_cases none : b.pa % align = 0
  · rw [Buf.curOfs, if_neg (not_not.mpr (zero.mpr none)), if_pos none]
    rfl
  · rw [Buf.curOfs, if_pos (fun given => none (zero.mp given)), if_neg none, difference]

/-- The bytes skipped in front bring no wrap-around, and are counted exactly when they fit. -/
theorem curOfs_spec (tidy : Tidy buf o cells) (member : (p, b) ∈ cells) (aligned : align < 2 ^ 32)
    (positive : 0 < align) (fit : size ≤ b.length) : ∃ ofs : Nat,
      toUInt32 (size + b.curOfs align) = size + ofs ∧
      (size + ofs ≤ b.length → b.curOfs align = ofs) := by
  have bounds := tidy.bounds member
  have physical := buf.physical
  have small := Nat.mod_lt b.pa positive
  have near := fun short : b.pa < align => Nat.mod_eq_of_lt short
  -- The node is shorter than its own address, so the sum stays on 32 bits.
  refine ⟨if b.pa % align = 0 then 0 else align - b.pa % align, ?_, ?_⟩
  · rw [curOfs_eq aligned positive]
    simp only [toInt32, toUInt32]
    split_ifs <;> omega
  · rw [curOfs_eq aligned positive]
    simp only [toInt32]
    split_ifs <;> omega

/-- The loop of `oram_memalign` serves a free node ahead of it or refuses. -/
theorem memalignFrom_outcome (tidy : Tidy buf o (xs ++ ys)) (aligned : align < 2 ^ 32)
    (positive : 0 < align) (enough : ys.length < fuel) :
    ∃ after addr, o.memalignFrom align size node fuel (first ys none) = some (after, addr) ∧
      AllocOutcome o (xs ++ ys) size after addr := by
  induction ys generalizing xs fuel with
  | nil =>
    obtain ⟨fuel, rfl⟩ := Nat.exists_eq_succ_of_ne_zero (show fuel ≠ 0 by omega)
    exact ⟨o, 0, rfl, .refused⟩
  | cons y ys ih =>
    obtain ⟨r, c⟩ := y
    obtain ⟨fuel, rfl⟩ := Nat.exists_eq_succ_of_ne_zero (show fuel ≠ 0 by omega)
    have holds := tidy.holds
    have moved : Tidy buf o ((xs ++ [(r, c)]) ++ ys) := by simpa using tidy
    obtain ⟨after, addr, looped, outcome⟩ := ih moved (Nat.lt_of_succ_lt_succ enough)
    rw [List.append_assoc] at outcome
    by_cases fit : c.status = .free ∧ size ≤ c.length
    · obtain ⟨ofs, total, exact⟩ := curOfs_spec tidy (b := c) (p := r) (by simp) aligned positive
        fit.2
      by_cases short : c.length < size + ofs
      · -- With what is skipped, the node is too small after all.
        refine ⟨after, addr, ?_, outcome⟩
        simpa [memalignFrom, holds.look, fit, positive.ne', total, short] using looped
      · have skipped := exact (by omega)
        rw [skipped] at total
        by_cases little : toInt32 (c.length - (size + ofs)) < 1024
        · -- What is left over stays with the user.
          obtain ⟨list, written, kept, _⟩ := holds.setBuf fun d => d.take ofs d.length
          refine ⟨_, _, ?_, .served (.whole fit.1 (by omega)) kept⟩
          simp only [memalignFrom, first_cons, holds.look, Option.bind_eq_bind, Option.bind_some,
            if_pos fit, if_neg positive.ne', skipped, total, if_neg short, if_pos little, written]
          rfl
        · cases node with
          | false =>
            refine ⟨o, 0, ?_, .refused⟩
            simp [memalignFrom, holds.look, fit, positive.ne', skipped, total, short, little]
          | true =>
            obtain ⟨done, answer, cut, result⟩ := split_served ofs holds fit.1
              (show size + ofs ≤ c.length by omega)
            refine ⟨done, answer, ?_, result⟩
            simpa [memalignFrom, holds.look, fit, positive.ne', skipped, total, short, little]
              using cut
    · -- The walk goes on behind the node.
      refine ⟨after, addr, ?_, outcome⟩
      simpa [memalignFrom, holds.look, fit] using looped

/-- The lengths of neighbouring nodes add up to no more than the memory has. -/
theorem Tidy.lengths_le {before run after : List (Nat × Buf)}
    (tidy : Tidy buf o (before ++ run ++ after)) :
    (run.map fun x => x.2.length).sum ≤ buf.size := by
  -- The run covers a stretch between the ends of the memory.
  have tiles := tidy.virtual.tiles
  rw [List.map_append, List.map_append] at tiles
  obtain ⟨stop, front, back⟩ := Tiling.tiles_append.mp tiles
  obtain ⟨start, first, middle⟩ := Tiling.tiles_append.mp front
  have left := first.sum
  have here := middle.sum
  have right := back.sum
  rw [List.map_map] at here
  have total : start + (run.map fun x => x.2.length).sum = stop := here
  omega

/-- A free finds the first node with the address and joins it with the free nodes around it. -/
theorem free_outcome (tidy : Tidy buf o cells) (addr : Nat) :
    ∃ after, o.free addr = some after ∧ FreeOutcome o cells addr after := by
  have holds := tidy.holds
  have visible := buf.visible
  cases search : cells.find? fun x => x.2.usrVa = addr with
  | none =>
    refine ⟨o, by simp [Oram.free, holds.findNode, search], .unknown fun x member => ?_⟩
    simpa using List.find?_eq_none.mp search x member
  | some x =>
    obtain ⟨p, b⟩ := x
    obtain ⟨found, left, right, rfl, earlier⟩ := List.find?_eq_some_iff_append.mp search
    simp only [decide_eq_true_eq, Bool.not_eq_true', decide_eq_false_iff_not] at found earlier
    -- The free run around the node ends at busy nodes.
    obtain ⟨before, front, rfl, idleFront, prev⟩ :=
      Splice.exists_run_behind (fun x : Nat × Buf => x.2.status = .free) left
    obtain ⟨back, after, rfl, idleBack, next⟩ :=
      Splice.exists_run_ahead (fun x : Nat × Buf => x.2.status = .free) right
    simp only [decide_eq_true_eq, decide_eq_false_iff_not] at idleFront idleBack prev next
    obtain ⟨freed, written, kept, _⟩ := holds.setBuf fun c => { c with status := .free }
    obtain ⟨⟨s, h⟩, rest, run⟩ := List.exists_cons_of_ne_nil
      (show front ++ (p, { b with status := .free }) :: back ≠ [] by simp)
    have idle : ∀ x ∈ (s, h) :: rest, x.2.status = .free := by
      rw [← run]
      intro x member
      rcases List.mem_append.mp member with inFront | inBack
      · exact idleFront x inFront
      rcases List.mem_cons.mp inBack with same | inBack
      · rw [same]
      · exact idleBack x inBack
    have lengths : (((s, h) :: rest).map fun x => x.2.length).sum =
        ((front ++ (p, b) :: back).map fun x => x.2.length).sum := by
      rw [← run]
      simp
    have whole : Tidy buf o (before ++ (front ++ (p, b) :: back) ++ after) := by simpa using tidy
    have fits : (((s, h) :: rest).map fun x => x.2.length).sum < 2 ^ 32 := by
      rw [lengths]
      have bound := whole.lengths_le
      omega
    have member : (p, { b with status := .free }) ∈ (s, h) :: rest := by
      rw [← run]
      simp
    have around : freed.Holds (before ++ ((s, h) :: rest ++ after)) := by
      rw [← run]
      simpa using kept
    obtain ⟨merged, joined, done⟩ := around.mergeNode member idle prev next fits
    refine ⟨_, ?_, .released (by simp) found earlier ?_ prev next run done⟩
    · have here := holds.look
      simp only [Oram.free, holds.findNode, search, Option.map_some, Option.bind_eq_bind,
        Option.bind_some, here, written, joined]
      rfl
    · intro x member
      rcases List.mem_append.mp member with inFront | inBack
      · exact idleFront x inFront
      · exact idleBack x inBack

end Oram

section Moves

variable {start key : Buf → Nat} {low high ofs len : Nat} {before front back after rest :
  List (Nat × Buf)} {s : Nat} {h : Buf}

/-- The two halves of a node cover what it covered. -/
theorem Buf.split_covers (start : Buf → Nat) (stays : start (b.take ofs len) = start b)
    (moves : start (b.rest len) = (start b + len) % 2 ^ 32) (fits : len ≤ b.length)
    (small : start b + b.length < 2 ^ 32) :
    Tiling.Tiles (fun c : Buf => ⟨start c, c.length⟩) (start b) [b.take ofs len, b.rest len]
      (start b + b.length) := by
  -- Neither the address of the rest nor its length wraps.
  have place : (start b + len) % 2 ^ 32 = start b + len := Nat.mod_eq_of_lt (by omega)
  have size : (b.length + 2 ^ 32 - len) % 2 ^ 32 = b.length - len := by omega
  refine ⟨stays, moves.trans place, ?_⟩
  show start b + len + (b.length + 2 ^ 32 - len) % 2 ^ 32 = start b + b.length
  omega

/-- A node that is taken whole covers what it covered. -/
theorem Buf.whole_covers (start : Buf → Nat) (stays : start (b.take ofs b.length) = start b) :
    Tiling.Tiles (fun c : Buf => ⟨start c, c.length⟩) (start b) [b.take ofs b.length]
      (start b + b.length) := ⟨stays, rfl⟩

/-- Serving an allocation keeps the nodes a cut of either address space. -/
theorem Served.cut (served : Served size cells cells' t)
    (cut : Cut (Buf.view start key) low high (cells.map Prod.snd)) (small : high < 2 ^ 32)
    (stays : ∀ (b : Buf) (ofs : Int) len, start (b.take ofs len) = start b)
    (moves : ∀ (b : Buf) len, start (b.rest len) = (start b + len) % 2 ^ 32) :
    Cut (Buf.view start key) low high (cells'.map Prod.snd) := by
  -- The node is taken with a free rest behind it, or as it is.
  cases served with
  | @split xs ys p q ofs b free fits =>
    rw [List.map_append, List.map_cons] at cut
    have bound : start b + b.length ≤ high := (cut.tiles.within (x := b) (by simp)).2
    have covers := Buf.split_covers start (stays b ofs (size + ofs)) (moves b _) fits (by omega)
    have taken := cut.take (Buf.idle free) covers rfl (Or.inr ⟨_, rfl, rfl⟩)
    simpa using taken
  | @whole xs ys p ofs b free fits =>
    rw [List.map_append, List.map_cons] at cut
    have covers := Buf.whole_covers start (stays b ofs b.length)
    have taken := cut.take (Buf.idle free) covers rfl (Or.inl rfl)
    simpa using taken

/-- The first node of a run, with the length of the whole run, covers what the run covered. -/
theorem Buf.join_covers (start : Buf → Nat)
    (run : front ++ (p, { b with status := .free }) :: back = (s, h) :: rest)
    (keeps : ∀ (c : Buf) status, start { c with status := status } = start c)
    (grows : ∀ (c : Buf) length, start { c with length := length } = start c) (lower upper : Nat)
    (tiles : Tiling.Tiles (fun c : Buf => ⟨start c, c.length⟩) lower
      ((front ++ (p, b) :: back).map Prod.snd) upper) :
    Tiling.Tiles (fun c : Buf => ⟨start c, c.length⟩) lower
      [{ h with length := (((s, h) :: rest).map fun x => x.2.length).sum }] upper := by
  -- The status of a node has no part in what it covers.
  have same : ((front ++ (p, b) :: back).map Prod.snd).map (fun c : Buf =>
      (⟨start c, c.length⟩ : Region)) = (((s, h) :: rest).map Prod.snd).map fun c : Buf =>
      (⟨start c, c.length⟩ : Region) := by
    rw [← run]
    simp [keeps]
  have moved := (Tiling.tiles_congr same).mp tiles
  rw [List.map_cons] at moved
  apply moved.merge (grows h _)
  show (((s, h) :: rest).map fun x => x.2.length).sum = _
  simp [Function.comp_def]

/-- Whatever comes first in the run of a freed node is free. -/
theorem Buf.join_free (run : front ++ (p, { b with status := .free }) :: back = (s, h) :: rest)
    (idle : ∀ x ∈ front ++ back, x.2.status = .free) : h.status = .free := by
  have inside : (s, h) ∈ front ++ (p, { b with status := .free }) :: back := by simp [run]
  rcases List.mem_append.mp inside with left | right
  · exact idle (s, h) (by simp [left])
  rcases List.mem_cons.mp right with here | right
  · rw [(Prod.mk.inj here).2]
  · exact idle (s, h) (by simp [right])

/-- A list that does not end with a free node does not end with a free block. -/
theorem Buf.last_busy (prev : ∀ x ∈ before.getLast?, x.2.status ≠ .free) :
    ∀ w ∈ (before.map Prod.snd).getLast?, (Buf.view start key).busy w = true := by
  intro w member
  rw [List.getLast?_map, Option.mem_def, Option.map_eq_some_iff] at member
  obtain ⟨x, place, rfl⟩ := member
  exact Buf.busy_iff.mpr (prev x place)

/-- A list that does not begin with a free node does not begin with a free block. -/
theorem Buf.head_busy (next : ∀ x ∈ after.head?, x.2.status ≠ .free) :
    ∀ w ∈ (after.map Prod.snd).head?, (Buf.view start key).busy w = true := by
  intro w member
  rw [List.head?_map, Option.mem_def, Option.map_eq_some_iff] at member
  obtain ⟨x, place, rfl⟩ := member
  exact Buf.busy_iff.mpr (next x place)

/-- Freeing a node keeps the nodes a cut of either address space. -/
theorem released_cut (cut : Cut (Buf.view start key) low high
      ((before ++ (front ++ (p, b) :: back) ++ after).map Prod.snd))
    (run : front ++ (p, { b with status := .free }) :: back = (s, h) :: rest)
    (prev : ∀ x ∈ before.getLast?, x.2.status ≠ .free)
    (next : ∀ x ∈ after.head?, x.2.status ≠ .free)
    (keeps : ∀ (c : Buf) status, start { c with status := status } = start c)
    (grows : ∀ (c : Buf) length, start { c with length := length } = start c) :
    Cut (Buf.view start key) low high ((before ++
      (s, { h with length := (((s, h) :: rest).map fun x => x.2.length).sum }) :: after).map
        Prod.snd) := by
  -- The run that is joined ends at busy nodes on both sides.
  rw [List.map_append, List.map_append] at cut
  rw [List.map_append, List.map_cons]
  exact cut.join (fun lower upper _ tiles => Buf.join_covers start run keeps grows lower upper tiles)
    (Buf.last_busy prev) (Buf.head_busy next)

end Moves

namespace Oram

variable {list : BufList}

/-- An allocation that is served leaves a tidy list. -/
theorem Tidy.served (tidy : Tidy buf o cells) (served : Served size cells cells' t)
    (holds : list.Holds cells') (used : Nat) :
    Tidy buf { o with list := list, memoryUsed := used } cells' := by
  have visible := buf.visible
  have physical := buf.physical
  exact ⟨holds, served.cut tidy.virtual (by omega) (fun _ _ _ => rfl) (fun _ _ => rfl),
    served.cut tidy.physical (by omega) (fun _ _ _ => rfl) (fun _ _ => rfl)⟩

/-- A node that is freed leaves a tidy list. -/
theorem Tidy.released {before front back after rest : List (Nat × Buf)} {s : Nat} {h : Buf}
    (tidy : Tidy buf o (before ++ (front ++ (p, b) :: back) ++ after))
    (run : front ++ (p, { b with status := .free }) :: back = (s, h) :: rest)
    (prev : ∀ x ∈ before.getLast?, x.2.status ≠ .free)
    (next : ∀ x ∈ after.head?, x.2.status ≠ .free)
    (holds : list.Holds (before ++
      (s, { h with length := (((s, h) :: rest).map fun x => x.2.length).sum }) :: after))
    (used : Nat) : Tidy buf { o with list := list, memoryUsed := used } (before ++
      (s, { h with length := (((s, h) :: rest).map fun x => x.2.length).sum }) :: after) :=
  -- Both address spaces are cut alike.
  ⟨holds, released_cut tidy.virtual run prev next (fun _ _ => rfl) (fun _ _ => rfl),
    released_cut tidy.physical run prev next (fun _ _ => rfl) (fun _ _ => rfl)⟩

/-- A free node stands alone among busy ones. -/
theorem Tidy.alone {before front back after : List (Nat × Buf)}
    (tidy : Tidy buf o (before ++ (front ++ (p, b) :: back) ++ after))
    (free : b.status = .free) (idle : ∀ x ∈ front ++ back, x.2.status = .free) :
    front = [] ∧ back = [] := by
  -- A free neighbour would break the chain next to the node.
  have chain := tidy.virtual.single
  simp only [List.map_append, List.map_cons, List.append_assoc] at chain
  have right := (List.isChain_append.mp chain).2.1
  obtain ⟨_, linked, links, _⟩ := Splice.isChain_around.mp right
  constructor
  · cases front using List.reverseRecOn with
    | nil => rfl
    | append_singleton front x =>
      have busy := linked x.2 (by simp)
      rw [Buf.busy_iff, Buf.busy_iff] at busy
      have freed := idle x (by simp)
      tauto
  · cases back with
    | nil => rfl
    | cons x back =>
      have busy := links x.2 (by simp)
      rw [Buf.busy_iff, Buf.busy_iff] at busy
      have freed := idle x (by simp)
      tauto

/-- Freeing a node that is free already changes no node. -/
theorem Tidy.unchanged {before front back after rest : List (Nat × Buf)} {s : Nat} {h : Buf}
    (tidy : Tidy buf o (before ++ (front ++ (p, b) :: back) ++ after)) (free : b.status = .free)
    (idle : ∀ x ∈ front ++ back, x.2.status = .free)
    (run : front ++ (p, { b with status := .free }) :: back = (s, h) :: rest) :
    before ++ (s, { h with length := (((s, h) :: rest).map fun x => x.2.length).sum }) :: after =
      before ++ (front ++ (p, b) :: back) ++ after := by
  -- The run consists of the node alone.
  obtain ⟨rfl, rfl⟩ := tidy.alone free idle
  simp only [List.nil_append, List.cons.injEq, Prod.mk.injEq] at run
  obtain ⟨⟨rfl, rfl⟩, rfl⟩ := run
  simp [← free]

/-- The first node with an address is the one that is found. -/
theorem find_first {before front : List (Nat × Buf)} {addr : Nat} (p : Nat)
    (back after : List (Nat × Buf)) (found : b.usrVa = addr)
    (earlier : ∀ x ∈ before ++ front, x.2.usrVa ≠ addr) :
    ((before ++ (front ++ (p, b) :: back) ++ after).find? fun x => x.2.usrVa = addr) =
      some (p, b) := by
  rw [List.find?_eq_some_iff_append]
  exact ⟨by simpa using found, before ++ front, back ++ after, by simp, by simpa using earlier⟩

/-- `oram_malloc` returns and serves the request or refuses it. -/
theorem malloc_outcome (tidy : Tidy buf o cells) (size : Nat) (node : Bool) : ∃ after addr,
    o.malloc size node = some (after, addr) ∧ AllocOutcome o cells size after addr := by
  have whole : o.list.Holds ([] ++ cells) := tidy.holds
  have bound := tidy.holds.length_le
  rw [Oram.malloc, tidy.holds.head]
  exact mallocFrom_outcome whole (by omega)

/-- `oram_memalign` returns and serves the request or refuses it. -/
theorem memalign_outcome (tidy : Tidy buf o cells) (aligned : align < 2 ^ 32)
    (positive : 0 < align) (size : Nat) (node : Bool) : ∃ after addr,
    o.memalign align size node = some (after, addr) ∧ AllocOutcome o cells size after addr := by
  have whole : Tidy buf o ([] ++ cells) := tidy
  have bound := tidy.holds.length_le
  rw [Oram.memalign, tidy.holds.head]
  exact memalignFrom_outcome whole aligned positive (by omega)

end Oram

/-- A call returns, and it is an allocation with its outcome or a free with its outcome. -/
theorem OramUse.step_cases {use : OramUse} (call : OramCall) (tidy : use.oram.Tidy buf cells) :
    ∃ after, use.step call = some after ∧
      ((∀ addr, call ≠ .free addr) ∧ (∃ oram addr, AllocOutcome use.oram cells call.size oram addr ∧
        after = use.granted oram addr call.size) ∨
      ∃ addr oram, call = .free addr ∧ FreeOutcome use.oram cells addr.toNat oram ∧
        after = use.returned oram addr.toNat) := by
  -- Both allocations have outcomes of one kind.
  cases call with
  | malloc size node =>
    obtain ⟨oram, addr, answer, outcome⟩ := Oram.malloc_outcome tidy size.toNat node
    exact ⟨_, by simp [OramUse.step, answer, OramCall.size], Or.inl ⟨by simp, oram, addr, outcome, rfl⟩⟩
  | memalign align size node nonzero =>
    have positive : 0 < align.toNat := by
      rw [Nat.pos_iff_ne_zero]
      intro zero
      exact nonzero (UInt32.toNat_inj.mp zero)
    obtain ⟨oram, addr, answer, outcome⟩ :=
      Oram.memalign_outcome tidy align.toNat_lt positive size.toNat node
    exact ⟨_, by simp [OramUse.step, answer, OramCall.size], Or.inl ⟨by simp, oram, addr, outcome, rfl⟩⟩
  | free addr =>
    obtain ⟨oram, answer, outcome⟩ := Oram.free_outcome tidy addr.toNat
    exact ⟨_, by simp [OramUse.step, answer], Or.inr ⟨addr, oram, rfl, outcome, rfl⟩⟩

/-- An allocation leaves a tidy list. -/
theorem AllocOutcome.tidy {oram : Oram} {addr : Nat}
    (outcome : AllocOutcome o cells size oram addr) (tidy : o.Tidy buf cells) :
    ∃ cells', oram.Tidy buf cells' := by
  cases outcome with
  | refused => exact ⟨cells, tidy⟩
  | served served holds => exact ⟨_, tidy.served served holds _⟩

/-- A free leaves a tidy list. -/
theorem FreeOutcome.tidy {oram : Oram} {addr : Nat} (outcome : FreeOutcome o cells addr oram)
    (tidy : o.Tidy buf cells) : ∃ cells', oram.Tidy buf cells' := by
  cases outcome with
  | unknown absent => exact ⟨cells, tidy⟩
  | released same found earlier idle prev next run holds =>
    subst same
    exact ⟨_, tidy.released run prev next holds _⟩

/-- Every call of every run returns. -/
theorem OramUse.returns (buf : SocMemBuf) (calls : List OramCall) :
    ∃ use, Runs.exec OramUse.step (OramUse.init buf) calls = some use := by
  -- A tidy list lets every call return, and every outcome leaves a tidy list.
  have total : ∃ use, Runs.exec OramUse.step (OramUse.init buf) calls = some use ∧
      ∃ cells, use.oram.Tidy buf cells := by
    refine Runs.exec_total (fun use call given => ?_) ⟨_, Oram.tidy_init⟩
    obtain ⟨cells, tidy⟩ := given
    obtain ⟨after, taken, cases⟩ := OramUse.step_cases call tidy
    refine ⟨after, taken, ?_⟩
    rcases cases with ⟨_, oram, addr, outcome, rfl⟩ | ⟨addr, oram, rfl, outcome, rfl⟩
    · exact outcome.tidy tidy
    · exact outcome.tidy tidy
  obtain ⟨use, reached, _⟩ := total
  exact ⟨use, reached⟩

end Aip
