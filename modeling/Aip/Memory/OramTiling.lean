import Aip.Memory.OramLaws

/-! The nodes of the on-chip memory tile it and hold the ranges of its users. -/

namespace Aip

open Blocks

namespace OramUse

/-- What is expected of the nodes from head to tail and of the ranges that users hold. -/
structure Tiled (buf : SocMemBuf) (use : OramUse) : Prop where
  linked : use.oram.list.Holds use.oram.list.cells
  virtual : Tiling.Tiles (fun b : Buf => ⟨b.va, b.length⟩) buf.vaddr
    (use.oram.list.cells.map Prod.snd) (buf.vaddr + buf.size)
  physical : Tiling.Tiles (fun b : Buf => ⟨b.pa, b.length⟩) buf.paddr
    (use.oram.list.cells.map Prod.snd) (buf.paddr + buf.size)
  lengths : (use.oram.list.cells.map fun x => x.2.length).sum = buf.size
  separated : (use.oram.list.cells.map Prod.snd).IsChain
    fun x y => ¬ (x.status = .free ∧ y.status = .free)
  ranges : ∃ ranges, ranges.Perm use.live ∧ List.Forall₂
    (fun (b : Buf) r => r.start = b.usrVa ∧ r.Inside ⟨b.va, b.length⟩)
    ((use.oram.list.cells.map Prod.snd).filter fun b => b.status = .busy) ranges
  apart : use.live.Pairwise Region.Apart
  restored : use.live = [] → ∃ x, use.oram.list.cells = [x] ∧ x.2.status = .free ∧
    x.2.va = buf.vaddr ∧ x.2.pa = buf.paddr ∧ x.2.length = buf.size

/-- The call is not a free of a held address whose first node in the list is a free one. -/
def Found (use : OramUse) (call : OramCall) (_ : OramUse) : Prop :=
  ∀ addr, call = .free addr → use.Known addr.toNat →
    ∃ x, (use.oram.list.cells.find? fun x => x.2.usrVa = addr.toNat) = some x ∧
      x.2.status = .busy

/-- The list is tidy and its busy nodes hold the live ranges. -/
structure Sound (buf : SocMemBuf) (use : OramUse) (cells : List (Nat × Buf)) : Prop where
  tidy : use.oram.Tidy buf cells
  held : Held Buf.virtual buf.vaddr (buf.vaddr + buf.size) (cells.map Prod.snd) use.live

variable {buf : SocMemBuf} {cells cells' : List (Nat × Buf)} {use after : OramUse}
  {call : OramCall} {t : Buf} {oram : Oram} {size addr : Nat}

/-- The first state is sound. -/
theorem sound_init : Sound buf (init buf) [(0, Buf.whole buf)] where
  tidy := Oram.tidy_init
  held := Held.init rfl rfl rfl

/-- A sound state has all that is expected of it. -/
theorem Sound.tiled (sound : Sound buf use cells) : Tiled buf use := by
  obtain ⟨tidy, held⟩ := sound
  have here := tidy.holds.cells_eq
  constructor <;> try rw [here]
  case linked => exact tidy.holds
  case virtual => exact tidy.virtual.tiles
  case physical => exact tidy.physical.tiles
  case lengths =>
    have sum := tidy.virtual.tiles.sum
    rw [List.map_map] at sum
    exact Nat.add_left_cancel sum
  case separated =>
    apply held.single.imp
    intro x y
    rw [Buf.busy_iff, Buf.busy_iff]
    tauto
  case ranges => exact held.matched
  case apart => exact held.apart
  case restored =>
    intro none
    rw [none] at held
    obtain ⟨b, single, idle, start, size⟩ := held.restored
    obtain ⟨x, only, rfl⟩ := List.map_eq_singleton_iff.mp single
    -- The only node starts the physical memory as well.
    have physical := tidy.physical.tiles
    rw [single] at physical
    refine ⟨x, only, ?_, start, physical.1, Nat.add_left_cancel size⟩
    by_contra busy
    rw [Buf.busy_iff.mpr busy] at idle
    cases idle

/-- A node that is taken holds the range of the user, whose address is not `NULL`. -/
theorem take_fits {b : Buf} {ofs len : Nat} (low : buf.vaddr ≤ b.va)
    (high : b.va + b.length ≤ buf.vaddr + buf.size) (fits : size + ofs ≤ len)
    (room : len ≤ b.length) : (b.take ofs len).usrVa ≠ 0 ∧
      Fits Buf.virtual (b.take ofs len) ⟨(b.take ofs len).usrVa, size⟩ := by
  -- The memory is in the lower addresses, so nothing wraps, and it does not start at `NULL`.
  have visible := buf.visible
  have place : (b.take ofs len).usrVa = b.va + ofs := by
    simp only [Buf.take, toUInt32]
    omega
  rw [place]
  refine ⟨by omega, place.symm, Nat.le_add_right b.va ofs, ?_⟩
  show b.va + ofs + size ≤ b.va + len
  omega

/-- Serving an allocation adds the range of the user to those that are held. -/
theorem Served.held {live : List Region} (served : Served size cells cells' t)
    (held : Held Buf.virtual buf.vaddr (buf.vaddr + buf.size) (cells.map Prod.snd) live) :
    t.usrVa ≠ 0 ∧
      Held Buf.virtual buf.vaddr (buf.vaddr + buf.size) (cells'.map Prod.snd)
        (⟨t.usrVa, size⟩ :: live) := by
  -- As for the cut, with the range of the user inside the node that is taken.
  have visible := buf.visible
  cases served with
  | @split xs ys p q ofs b free fits =>
    rw [List.map_append, List.map_cons] at held
    have bound : buf.vaddr ≤ b.va ∧ b.va + b.length ≤ buf.vaddr + buf.size :=
      held.tiles.within (x := b) (by simp)
    have covers : Tiling.Tiles Buf.virtual.region b.va
        [b.take ofs (size + ofs), b.rest (size + ofs)] (b.va + b.length) :=
      Buf.split_covers Buf.va rfl rfl fits (by omega)
    obtain ⟨given, inside⟩ := take_fits bound.1 bound.2 (Nat.le_refl (size + ofs)) fits
    have taken := held.take (Buf.idle free) covers rfl (Or.inr ⟨_, rfl, rfl⟩) inside
    exact ⟨given, by simpa using taken⟩
  | @whole xs ys p ofs b free fits =>
    rw [List.map_append, List.map_cons] at held
    have bound : buf.vaddr ≤ b.va ∧ b.va + b.length ≤ buf.vaddr + buf.size :=
      held.tiles.within (x := b) (by simp)
    have covers : Tiling.Tiles Buf.virtual.region b.va [b.take ofs b.length] (b.va + b.length) :=
      Buf.whole_covers Buf.va rfl
    obtain ⟨given, inside⟩ := take_fits bound.1 bound.2 fits (Nat.le_refl b.length)
    have taken := held.take (Buf.idle free) covers rfl (Or.inl rfl) inside
    exact ⟨given, by simpa using taken⟩

/-- An allocation keeps the state sound. -/
theorem Sound.granted (sound : Sound buf use cells)
    (outcome : AllocOutcome use.oram cells size oram addr) :
    ∃ cells', Sound buf (use.granted oram addr size) cells' := by
  -- A refusal leaves the list alone.
  obtain ⟨tidy, held⟩ := sound
  cases outcome with
  | refused => exact ⟨cells, tidy, held⟩
  | served served holds =>
    obtain ⟨given, more⟩ := Served.held served held
    refine ⟨_, tidy.served served holds _, ?_⟩
    rw [OramUse.granted, if_neg given]
    exact more

/-- An address that no busy node carries is the start of no range. -/
theorem Sound.unknown (sound : Sound buf use cells) (unknown : ¬ use.Known addr) :
    (use.live.eraseP fun r => r.start = addr) = use.live := by
  apply sound.held.unknown
  intro b member busy same
  obtain ⟨x, place, rfl⟩ := List.mem_map.mp member
  refine unknown ⟨x, ?_, by simpa [Buf.view] using busy, same⟩
  rw [sound.tidy.holds.cells_eq]
  exact place

/-- A free that finds a busy node, or no held address, keeps the state sound. -/
theorem Sound.returned (sound : Sound buf use cells)
    (outcome : FreeOutcome use.oram cells addr oram)
    (found : use.Known addr →
      ∃ x, (cells.find? fun x => x.2.usrVa = addr) = some x ∧ x.2.status = .busy) :
    ∃ cells', Sound buf (use.returned oram addr) cells' := by
  cases outcome with
  | unknown absent =>
    have unknown : ¬ use.Known addr := by
      intro known
      obtain ⟨x, search, _⟩ := found known
      exact absent x (List.mem_of_find?_eq_some search) (by simpa using List.find?_some search)
    refine ⟨cells, sound.tidy, ?_⟩
    rw [OramUse.returned, sound.unknown unknown]
    exact sound.held
  | @released before front back after rest p s b h list same address earlier idle prev next run
      holds =>
    subst same
    have search := Oram.find_first p back after address earlier
    have done := sound.tidy.released run prev next holds
      ((use.oram.memoryUsed + 2 ^ 32 - b.length) % 2 ^ 32)
    refine ⟨_, done, ?_⟩
    cases status : b.status with
    | free =>
      -- The node has no free neighbour, and nobody held the address.
      have unknown : ¬ use.Known addr := by
        intro known
        obtain ⟨x, again, busy⟩ := found known
        cases search.symm.trans again
        rw [status] at busy
        cases busy
      rw [OramUse.returned, sound.unknown unknown, sound.tidy.unchanged status idle run]
      exact sound.held
    | busy =>
      have held := sound.held
      simp only [List.map_append, List.map_cons] at held
      have idleFront : ∀ y ∈ front.map Prod.snd ++ back.map Prod.snd,
          Buf.virtual.busy y = false := by
        intro y member
        rw [← List.map_append] at member
        obtain ⟨x, place, rfl⟩ := List.mem_map.mp member
        exact Buf.idle (idle x place)
      have first : ∀ w ∈ before.map Prod.snd, w.usrVa ≠ b.usrVa := by
        intro w member
        obtain ⟨x, place, rfl⟩ := List.mem_map.mp member
        rw [address]
        exact earlier x (List.mem_append_left front place)
      have covers := Buf.join_covers Buf.va run (fun _ _ => rfl) fun _ _ => rfl
      rw [List.map_append, List.map_cons] at covers
      have joined := Buf.join_free run idle
      have released := held.release (Buf.busy_iff.mpr (by simp [status])) idleFront
        (fun lower upper _ tiles => covers lower upper tiles)
        (Buf.idle joined) (Buf.last_busy prev) (Buf.head_busy next) first
      rw [List.map_append, List.map_cons, OramUse.returned, ← address]
      exact released

/-- A call that finds what it frees keeps the state sound. -/
theorem Sound.step (sound : Sound buf use cells) (taken : use.step call = some after)
    (found : use.Found call after) : ∃ cells', Sound buf after cells' := by
  obtain ⟨result, returned, cases⟩ := step_cases call sound.tidy
  cases taken.symm.trans returned
  rcases cases with ⟨_, oram, addr, outcome, rfl⟩ | ⟨addr, oram, rfl, outcome, rfl⟩
  · exact sound.granted outcome
  · apply sound.returned outcome
    intro known
    rw [← sound.tidy.holds.cells_eq]
    exact found addr rfl known

/-- A call after which the nodes still hold the live ranges has found what it freed. -/
theorem Sound.exact (sound : Sound buf use cells) (taken : use.step call = some after)
    (tiled : Tiled buf after) : use.Found call after := by
  intro addr free known
  subst free
  obtain ⟨result, returned, cases⟩ := step_cases (.free addr) sound.tidy
  cases taken.symm.trans returned
  rcases cases with ⟨other, _⟩ | ⟨addr', oram, same, outcome, rfl⟩
  · exact (other addr rfl).elim
  cases same
  have here := sound.tidy.holds.cells_eq
  obtain ⟨y, carries, busy, key⟩ := known
  rw [here] at carries ⊢
  cases outcome with
  | unknown absent => exact (absent y carries key).elim
  | @released before front back after rest p s b h list same address earlier idle prev next run
      holds =>
    subst same
    have search := Oram.find_first p back after address earlier
    refine ⟨(p, b), search, ?_⟩
    cases status : b.status with
    | busy => rfl
    | free =>
      -- The nodes stay as they are, and one range fewer is live.
      have same : list.cells = before ++ (front ++ (p, b) :: back) ++ after :=
        holds.cells_eq.trans (sound.tidy.unchanged status idle run)
      obtain ⟨ranges, fewer, fit⟩ := tiled.ranges
      obtain ⟨r, live, fits⟩ := sound.held.matched.partner (List.mem_map_of_mem (f := Prod.snd) carries)
        (Buf.busy_iff.mpr (by simp [busy]))
      have less := List.length_eraseP_of_mem (p := fun r => decide (r.start = addr.toNat)) live
        (by simpa using fits.1.trans key)
      have positive := List.length_pos_of_mem live
      have count := sound.held.matched.count
      have matched := fit.length_eq.trans fewer.length_eq
      simp only [OramUse.returned, same] at matched
      rw [less] at matched
      have equal := count.symm.trans matched
      omega

/--
The nodes tile the memory and hold the live ranges in every state, exactly when no free of the run
meets a free node before the busy one with the same address.
-/
theorem nodesTiled_iff (buf : SocMemBuf) (calls : List OramCall) :
    (∃ use, Runs.exec step (init buf) calls = some use) ∧
    (Runs.Always step (Tiled buf) (init buf) calls ↔ Runs.Each step Found (init buf) calls) := by
  -- Soundness follows from finding, and finding from the tiling after the step.
  refine ⟨returns buf calls, ?_⟩
  apply Runs.always_safe_iff (I := fun use => ∃ cells, Sound buf use cells)
  · intro use given
    obtain ⟨cells, sound⟩ := given
    exact sound.tiled
  · intro use call after given taken found
    obtain ⟨cells, sound⟩ := given
    exact sound.step taken found
  · intro use call after given taken tiled
    obtain ⟨cells, sound⟩ := given
    exact sound.exact taken tiled
  · exact ⟨_, sound_init⟩

/-- The call asks for at least one byte if it asks for any memory. -/
def Solid (_ : OramUse) (call : OramCall) (_ : OramUse) : Prop :=
  (∀ addr, call ≠ .free addr) → call.size ≠ 0

/-- A free node keeps no address, or one inside itself. -/
def Settled (b : Buf) : Prop :=
  b.status = .free → b.usrVa = 0 ∨ b.va ≤ b.usrVa ∧ b.usrVa < b.va + b.length

/-- A sound state where all ranges have bytes and the free nodes are settled. -/
structure Plain (buf : SocMemBuf) (use : OramUse) (cells : List (Nat × Buf)) : Prop
    extends Sound buf use cells where
  solid : ∀ r ∈ use.live, 0 < r.size
  settled : ∀ x ∈ use.oram.list.cells, Settled x.2

/-- In a plain state, the address of a busy node lies inside the node. -/
theorem Plain.within (plain : Plain buf use cells) {x : Nat × Buf} (member : x ∈ cells)
    (busy : x.2.status = .busy) : ∃ r ∈ use.live, r.start = x.2.usrVa ∧
      x.2.va ≤ x.2.usrVa ∧ x.2.usrVa < x.2.va + x.2.length := by
  obtain ⟨r, live, start, low, high⟩ := plain.held.matched.partner
    (List.mem_map_of_mem (f := Prod.snd) member) (Buf.busy_iff.mpr (by simp [busy]))
  have bytes := plain.solid r live
  simp only [Buf.view] at start low high
  exact ⟨r, live, start, by omega, by omega⟩

/-- In a plain state, every free finds what it frees. -/
theorem Plain.found (plain : Plain buf use cells) (call : OramCall) (after : OramUse) :
    use.Found call after := by
  intro addr _ known
  have here := plain.tidy.holds.cells_eq
  obtain ⟨y, carries, busy, key⟩ := known
  rw [here] at carries ⊢
  have visible := buf.visible
  obtain ⟨r, live, start, low, high⟩ := plain.within carries busy
  have bound := (plain.tidy.bounds (p := y.1) (b := y.2) carries).1
  have same : r.start = addr.toNat := start.trans key
  obtain ⟨b, search, idle⟩ := plain.held.first plain.solid live fun z member free carried => by
    -- A free node that keeps an address keeps one of its own.
    obtain ⟨x, place, rfl⟩ := List.mem_map.mp member
    have status : x.2.status = .free := by
      by_contra busy
      rw [Buf.busy_iff.mpr busy] at free
      cases free
    rw [← here] at place
    have carried : x.2.usrVa = r.start := carried
    rw [← carried]
    exact (plain.settled x place status).resolve_left (by omega)
  rw [List.find?_map, Option.map_eq_some_iff] at search
  obtain ⟨x, search, rfl⟩ := search
  refine ⟨x, ?_, by simpa [Buf.view] using idle⟩
  rw [← same]
  exact search

/-- An allocation leaves the free nodes settled. -/
theorem settled_granted {o : Oram} (outcome : AllocOutcome o cells size oram addr)
    (holds : o.list.Holds cells) (settled : ∀ x ∈ cells, Settled x.2) :
    ∀ x ∈ oram.list.cells, Settled x.2 := by
  -- The node taken is busy, and its rest starts where that one ends.
  cases outcome with
  | refused =>
    rw [holds.cells_eq]
    exact settled
  | served served holds =>
    show ∀ x ∈ BufList.cells _, Settled x.2
    rw [holds.cells_eq]
    intro x member
    cases served with
    | split free fits =>
      simp only [List.mem_append, List.mem_cons] at member
      rcases member with left | here | new | right
      · exact settled x (by simp [left])
      · intro idle
        rw [here] at idle
        cases idle
      · exact fun _ => Or.inl (by rw [new]; rfl)
      · exact settled x (by simp [right])
    | whole free fits =>
      simp only [List.mem_append, List.mem_cons] at member
      rcases member with left | here | right
      · exact settled x (by simp [left])
      · intro idle
        rw [here] at idle
        cases idle
      · exact settled x (by simp [right])

/-- A free leaves the free nodes settled when busy nodes keep their address inside. -/
theorem settled_returned {o : Oram} (outcome : FreeOutcome o cells addr oram)
    (holds : o.list.Holds cells) (settled : ∀ x ∈ cells, Settled x.2)
    (within : ∀ x ∈ cells, x.2.status = .busy →
      x.2.va ≤ x.2.usrVa ∧ x.2.usrVa < x.2.va + x.2.length) :
    ∀ x ∈ oram.list.cells, Settled x.2 := by
  cases outcome with
  | unknown absent =>
    rw [holds.cells_eq]
    exact settled
  | @released before front back after rest p s b h list same address earlier idle prev next run
      merged =>
    subst same
    show ∀ x ∈ list.cells, Settled x.2
    rw [merged.cells_eq]
    intro x member
    simp only [List.mem_append, List.mem_cons] at member
    rcases member with left | here | right
    · exact settled x (by simp [left])
    · -- The joined node keeps the address of the first one, and is not shorter.
      subst here
      have inside : (s, h) ∈ front ++ (p, { b with status := .free }) :: back := by simp [run]
      have kept : h.usrVa = 0 ∨ h.va ≤ h.usrVa ∧ h.usrVa < h.va + h.length := by
        rcases List.mem_append.mp inside with inFront | inBack
        · exact settled (s, h) (by simp [inFront]) (idle (s, h) (by simp [inFront]))
        rcases List.mem_cons.mp inBack with same | inBack
        · obtain ⟨rfl, rfl⟩ := Prod.mk.inj same
          cases status : b.status with
          | free => exact settled (s, b) (by simp) status
          | busy => exact Or.inr (within (s, b) (by simp) status)
        · exact settled (s, h) (by simp [inBack]) (idle (s, h) (by simp [inBack]))
      intro _
      simp only [List.map_cons, List.sum_cons]
      omega
    · exact settled x (by simp [right])

/-- A call that asks for bytes keeps the state plain. -/
theorem Plain.step (plain : Plain buf use cells) (taken : use.step call = some after)
    (bytes : use.Solid call after) : ∃ cells', Plain buf after cells' := by
  -- A sound state stays sound; what is new are the sizes and the free nodes.
  obtain ⟨cells', sound⟩ := plain.toSound.step taken (plain.found call after)
  suffices both : (∀ r ∈ after.live, 0 < r.size) ∧ ∀ x ∈ after.oram.list.cells, Settled x.2 from
    ⟨cells', sound, both.1, both.2⟩
  have settled := plain.settled
  rw [plain.tidy.holds.cells_eq] at settled
  obtain ⟨result, returned, cases⟩ := step_cases call plain.tidy
  cases taken.symm.trans returned
  rcases cases with ⟨other, oram, addr, outcome, rfl⟩ | ⟨addr, oram, rfl, outcome, rfl⟩
  · refine ⟨fun r member => ?_, settled_granted outcome plain.tidy.holds settled⟩
    by_cases null : addr = 0
    · rw [OramUse.granted, if_pos null] at member
      exact plain.solid r member
    · rw [OramUse.granted, if_neg null] at member
      rcases List.mem_cons.mp member with new | old
      · rw [new]
        exact Nat.pos_of_ne_zero (bytes other)
      · exact plain.solid r old
  · refine ⟨fun r member => plain.solid r (List.mem_of_mem_eraseP member), ?_⟩
    apply settled_returned outcome plain.tidy.holds settled
    intro x member busy
    obtain ⟨_, _, _, within⟩ := plain.within member busy
    exact within

/-- Runs without empty requests find everything they free. -/
theorem found_of_solid (calls : List OramCall) (solid : Runs.Each step Solid (init buf) calls) :
    Runs.Each step Found (init buf) calls := by
  -- In a plain state every free finds its node.
  apply Runs.each_of_invariant (I := fun use => ∃ cells, Plain buf use cells) ?_ ?_ ?_ solid
  · intro use call after given taken bytes
    obtain ⟨cells, plain⟩ := given
    exact plain.step taken bytes
  · intro use call after given _ _
    obtain ⟨cells, plain⟩ := given
    exact plain.found call after
  · have mapped := buf.mapped
    refine ⟨_, sound_init, by simp [init], ?_⟩
    have here : (init buf).oram.list.cells = [(0, Buf.whole buf)] := Oram.tidy_init.holds.cells_eq
    rw [here]
    intro x member _
    rw [List.mem_singleton.mp member]
    exact Or.inr ⟨Nat.le_refl _, Nat.lt_add_of_pos_right mapped⟩

/-- The address of an empty range is handed out again, and freeing both frees one of them. -/
theorem nodesTiled_leaks : ¬ Runs.Always step (Tiled .uncached) (init .uncached)
    [.malloc 0 true, .malloc 100 true, .free 0x10000000, .free 0x10000000] := by
  intro claim
  -- In the end nothing is live, and the second node is still a busy one.
  obtain ⟨x, only, _⟩ := (claim.last rfl).restored (by decide)
  exact absurd (congrArg List.length only) (by simp only [List.length_singleton]; decide)

end OramUse

end Aip
