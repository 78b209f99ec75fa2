import Aip.Hal.Counting

/-! Process calls and deinits of the library, and the balance of a whole run of calls. -/

namespace Aip

namespace AipLib

variable {chip : Chip} {lib after : AipLib} {call : ProcessCall}

/-- Between an init and its deinit a cache is only replaced, and never read while it is empty. -/
theorem growCache_live (call : ProcessCall) (tracks : Tracks chip lib) (some : lib.outstanding ≠ 0) :
    ((lib.growCache chip call).1 = true ↔ call.malloc = true ∨ ¬ Grows chip lib call) ∧
    ∃ cache, (lib.growCache chip call).2 = { lib with cache := cache } ∧
      (∀ index, (cache index).ptr ≠ .stale) ∧
      ∀ index, (cache index).ptr = .null → (cache index).size = 0 := by
  have kept := (tracks.live some).cache
  cases own : call.cache with
  | none =>
    have still : ¬ Grows chip lib call := by
      rintro ⟨index, size, same, _⟩
      rw [own] at same
      cases same
    simp only [growCache, own]
    exact ⟨⟨fun _ => .inr still, fun _ => trivial⟩, lib.cache, rfl, kept, tracks.empty⟩
  | some pair =>
    obtain ⟨index, size⟩ := pair
    have grows : Grows chip lib call ↔ (lib.cache index).size < call.nodeBytes chip size := by
      constructor
      · rintro ⟨_, _, same, small⟩
        rw [own] at same
        cases same
        exact small
      · exact fun small => ⟨index, size, own, small⟩
    simp only [growCache, own, grows]
    split
    case isTrue small =>
      have release : lib.releasing (lib.cache index).ptr = lib := by simp [releasing, kept]
      rw [release]
      cases malloc : call.malloc with
      | true =>
        refine ⟨by simp, _, rfl, fun other => ?_, fun other => ?_⟩
        · split
          · exact Ptr.noConfusion
          · exact kept other
        · split
          · exact fun live => by cases live
          · exact tracks.empty other
      | false =>
        refine ⟨by simp [small], _, rfl, fun other => ?_, fun other => ?_⟩
        · split
          · exact Ptr.noConfusion
          · exact kept other
        · split
          · exact fun _ => rfl
          · exact tracks.empty other
    case isFalse large =>
      -- Nodes that fit are not in a cache that is not there.
      have used : ¬ (0 < call.nodeBytes chip size ∧ (lib.cache index).ptr ≠ .live) := by
        rintro ⟨positive, absent⟩
        cases ptr : (lib.cache index).ptr with
        | null =>
          have := tracks.empty index ptr
          omega
        | live => exact absent ptr
        | stale => exact kept index ptr
      refine ⟨by simp [large], lib.cache, ?_, kept, tracks.empty⟩
      simp [used]

/-- A process call between an init and its deinit, from the library with its new caches. -/
theorem process_live (tracks : Tracks chip lib) (some : lib.outstanding ≠ 0)
    {cache : CacheIndex → NodeCache}
    (grown : lib.growCache chip call = (true, { lib with cache := cache })) :
    lib.process chip call =
      let alloc := aipChainbufAlloc lib.chainBufSize (lib.prepared chip call) call.answers
      { lib.setManage call.index alloc.manage with
        cache := cache
        chainBufSize := alloc.chainBufSize
        broken := alloc.tooMuch && decide ((lib.manage call.index).fd ≠ .live) } := by
  have live := tracks.live some
  have dummy : ¬ (chip = .a1 ∧ call.kind = .resize ∧ lib.dummy ≠ .live) :=
    fun given => given.2.2 (live.dummy given.1)
  have ptr := (live.manager call.index).ptr
  simp only [process, grown, dummy, decide_false, Bool.or_false, chainInit, ptr, reduceCtorEq,
    if_false, setManage, prepared, tracks.unbroken, Bool.false_or]

/-- A manager serves whatever length and size a call writes to it. -/
theorem prepared_serving (call : ProcessCall) (live : lib.Live chip) : (lib.prepared chip call).Serving :=
  ⟨(live.manager call.index).ptr, (live.manager call.index).opened, (live.manager call.index).closed⟩

/-- A library whose managers and caches are replaced by ones in order is as sound as it was. -/
theorem tracks_replaced (chainBufSize : Nat) (tracks : Tracks chip lib)
    (some : lib.outstanding ≠ 0) {manage : AipIndex → AipManage} {cache : CacheIndex → NodeCache}
    (serving : ∀ index, (manage index).Serving) (kept : ∀ index, (cache index).ptr ≠ .stale)
    (empty : ∀ index, (cache index).ptr = .null → (cache index).size = 0) :
    Tracks chip { lib with
      manage := manage, cache := cache, chainBufSize := chainBufSize, broken := false } :=
  have live := tracks.live some
  { unbroken := rfl
    kept := tracks.kept
    live := fun _ => ⟨live.regs, live.memFd, serving, kept, live.dummy⟩
    idle := fun none => absurd none some
    t41 := tracks.t41
    a1 := tracks.a1
    unused := tracks.unused
    gone := fun none => absurd none some
    empty := empty }

/-- A process call between an init and its deinit keeps the invariant, or harms a manager. -/
theorem tracks_process_live (tracks : Tracks chip lib) (some : lib.outstanding ≠ 0) :
    (ProcessFits chip lib call → Tracks chip (lib.process chip call)) ∧
      (Sound chip (lib.process chip call) → ProcessFits chip lib call) := by
  have live := tracks.live some
  obtain ⟨done, cache, left, kept, empty⟩ := growCache_live call tracks some
  simp only [ProcessFits, if_neg some, ← done]
  cases grown : lib.growCache chip call with
  | mk success grownLib =>
    rw [grown] at left
    cases left
    cases success with
    | false =>
      -- There was no memory for the nodes, and the managers are not touched.
      have process : lib.process chip call = { lib with cache := cache } := by
        simp [AipLib.process, grown]
      rw [process]
      refine ⟨fun _ => ?_, fun _ given => by cases given⟩
      have replaced := tracks_replaced lib.chainBufSize tracks some live.manager kept empty
      rwa [← tracks.unbroken] at replaced
    | true =>
      rw [process_live tracks some grown]
      have alloc := AipManage.serving_alloc lib.chainBufSize call.answers (prepared_serving call live)
      constructor
      · intro fits
        have allocates := fits rfl
        have fine := AipManage.tooMuch_alloc allocates
        simp only [fine, Bool.false_and]
        refine tracks_replaced _ tracks some (fun index => ?_) kept empty
        simp only [setManage]
        split
        · exact alloc.mpr allocates
        · exact live.manager index
      · intro sound _
        have serving := (sound.live some).manager call.index
        exact alloc.mp (by simpa [setManage] using serving)

/-- A manager that is not there is refused, so that only the caches and the dummy buffer are used. -/
theorem process_idle (gone : ∀ index, lib.manage index = .null) :
    lib.process chip call = { (lib.growCache chip call).2 with
      broken := (lib.growCache chip call).2.broken || ((lib.growCache chip call).1 &&
        decide (chip = .a1 ∧ call.kind = .resize ∧ lib.dummy ≠ .live)) } := by
  -- Growing a cache touches neither managers nor the dummy buffer.
  have frame : (lib.growCache chip call).2.manage = lib.manage ∧
      (lib.growCache chip call).2.dummy = lib.dummy := by
    simp only [growCache, releasing, setCache]
    repeat' split
    all_goals exact ⟨rfl, rfl⟩
  cases grown : lib.growCache chip call with
  | mk success left =>
    rw [grown] at frame
    obtain ⟨manage, dummy⟩ : left.manage = lib.manage ∧ left.dummy = lib.dummy := frame
    cases success with
    | false => simp [process, grown]
    | true => simp [process, grown, chainInit, manage, gone, dummy, AipManage.null]

/-- Without an init outstanding a process call must not get as far as a cache or the dummy buffer. -/
theorem tracks_process_idle (tracks : Tracks chip lib) (none : lib.outstanding = 0) :
    (ProcessFits chip lib call → Tracks chip (lib.process chip call)) ∧
      (Sound chip (lib.process chip call) → ProcessFits chip lib call) := by
  have idle := tracks.idle none
  have unbroken := tracks.unbroken
  simp only [ProcessFits, if_pos none, process_idle (tracks.gone none)]
  cases own : call.cache with
  | none =>
    have covert : call.kind ≠ .resize := by
      intro resize
      simp [ProcessCall.cache, resize] at own
    simp only [growCache, own, covert, false_and, and_false, decide_false, Bool.and_false,
      Bool.or_false]
    exact ⟨fun _ => tracks, fun _ _ _ other => by cases other⟩
  | some pair =>
    obtain ⟨index, size⟩ := pair
    have ptr := idle.cache index
    simp only [growCache, own]
    by_cases small : (lib.cache index).size < call.nodeBytes chip size
    · simp only [if_pos small]
      constructor
      · intro fits
        have given := fits index size rfl
        rw [if_pos small] at given
        obtain ⟨null, malloc⟩ := given
        have cache : (⟨.null, 0⟩ : NodeCache) = lib.cache index := by
          have zero := tracks.empty index null
          cases entry : lib.cache index
          rw [entry] at null zero
          cases null
          cases zero
          rfl
        have release : lib.releasing (lib.cache index).ptr = lib := by simp [releasing, null]
        simpa [malloc, release, cache, setCache_self] using tracks
      · intro sound other size' same
        cases same
        rw [if_pos small]
        -- Otherwise a stale cache is freed again, or there is a live one.
        cases state : (lib.cache index).ptr with
        | live => exact absurd state ptr
        | stale =>
          have harm := sound.unbroken
          cases malloc : call.malloc <;> simp [malloc, releasing, setCache, state] at harm
        | null =>
          refine ⟨rfl, ?_⟩
          cases malloc : call.malloc with
          | false => rfl
          | true =>
            have absent := (sound.idle (by simpa [malloc, releasing, setCache] using none)).cache index
            simp [malloc, releasing, setCache] at absent
    · simp only [if_neg small]
      constructor
      · intro fits
        have given := fits index size rfl
        rw [if_neg small] at given
        obtain ⟨zero, resize⟩ := given
        have unused : ¬ (chip = .a1 ∧ call.kind = .resize ∧ lib.dummy ≠ .live) :=
          fun both => resize both.1 both.2.1
        simpa [zero, unused] using tracks
      · intro sound other size' same
        cases same
        rw [if_neg small]
        have harm := sound.unbroken
        simp only [unbroken, Bool.false_or, Bool.or_eq_false_iff, decide_eq_false_iff_not,
          Bool.true_and] at harm
        refine ⟨?_, fun a1 resize => harm.2 ⟨a1, resize, idle.dummy⟩⟩
        by_contra some
        exact harm.1 ⟨Nat.pos_of_ne_zero some, ptr⟩

/-- A deinit of the T41 that finds its counter below three gives everything back. -/
theorem deinit_frees (tracks : Tracks .t41 lib) (some : lib.outstanding ≠ 0) (few : lib.count < 3) :
    lib.deinit .t41 = { lib with
      count := lib.count - 1
      outstanding := lib.outstanding - 1
      regs := .stale
      memFd := .stale
      manage := fun _ => .null
      cache := fun index => if (lib.cache index).ptr = .null then lib.cache index
        else { lib.cache index with ptr := .stale }
      leaked := (lib.manage .p).chainbufFree.1.held +
        (lib.manage .f).chainbufFree.1.held + (lib.manage .t).chainbufFree.1.held
      broken := (lib.manage .p).chainbufFree.2 ||
        (lib.manage .f).chainbufFree.2 || (lib.manage .t).chainbufFree.2 } := by
  have live := tracks.live some
  obtain ⟨low, _, _, positive⟩ := tracks.t41 rfl
  have counted := positive some
  -- The counter is below three and positive, so the branch that frees is taken.
  have same : (lib.count - 1) % 2 ^ 32 = lib.count - 1 := by omega
  simp only [deinit, same]
  rw [if_neg (by omega), freeCaches_eq, memFree_eq]
  · simp [tracks.kept, tracks.unbroken]
  · exact fun index => (live.manager index).ptr
  · exact live.regs
  · exact live.memFd
  · exact live.cache

/-- The last deinit of the T41 loses nothing exactly when every manager is covered. -/
theorem deinit_last (tracks : Tracks .t41 lib) (one : lib.outstanding = 1) :
    ((∀ index, (lib.manage index).Covered) → Tracks .t41 (lib.deinit .t41)) ∧
      (Sound .t41 (lib.deinit .t41) → ∀ index, (lib.manage index).Covered) := by
  have some : lib.outstanding ≠ 0 := by omega
  have live := tracks.live some
  obtain ⟨low, high, _, positive⟩ := tracks.t41 rfl
  have counted := positive some
  have first : lib.count = 1 := by omega
  have result := deinit_frees tracks some (by omega)
  rw [one, first] at result
  rw [result]
  -- A manager gives everything back exactly when it is covered.
  have gives := fun index => AipManage.chainbufFree_iff (live.manager index)
  constructor
  · intro covered
    have each := fun index => (gives index).mpr (covered index)
    simp only [(each _).1, (each _).2]
    exact
      { unbroken := rfl
        kept := rfl
        live := fun none => absurd rfl none
        idle := fun _ => ⟨by simp, by simp, fun _ => ⟨Ptr.noConfusion, rfl⟩, fun index => by
          dsimp only
          split
          case isTrue null => simp [null]
          case isFalse => exact Ptr.noConfusion, by simp [tracks.unused rfl]⟩
        t41 := fun _ => by simp
        a1 := fun other => by cases other
        unused := fun _ => tracks.unused rfl
        gone := fun _ _ => rfl
        empty := fun index => by
          dsimp only
          split
          case isTrue => exact tracks.empty index
          case isFalse => exact fun other => by cases other }
  · intro sound index
    have kept := sound.kept
    have unbroken := sound.unbroken
    simp only [Nat.add_eq_zero_iff, Bool.or_eq_false_iff] at kept unbroken
    obtain ⟨⟨p, f⟩, t⟩ := kept
    obtain ⟨⟨p', f'⟩, t'⟩ := unbroken
    apply (gives index).mp
    cases index with
    | p => exact ⟨p, p'⟩
    | f => exact ⟨f, f'⟩
    | t => exact ⟨t, t'⟩

/-- Without an init outstanding a deinit moves the counter, on both chips. -/
theorem deinit_extra (tracks : Tracks chip lib) (none : lib.outstanding = 0) :
    lib.deinit chip ≠ lib := by
  intro same
  -- The counter goes below zero, and on the T41 it wraps around there.
  have moved := congrArg count same
  cases chip with
  | t41 =>
    obtain ⟨low, high, _⟩ := tracks.t41 rfl
    have zero : lib.count = 0 := by omega
    simp [deinit, zero] at moved
  | a1 =>
    have counted := (tracks.a1 rfl).1
    have zero : lib.count = 0 := by omega
    simp [deinit, freeCaches, zero] at moved

/-- The last deinit of the A1 leaves the registers mapped. -/
theorem deinit_regs : (lib.deinit .a1).regs = lib.regs := by
  simp only [deinit]
  split <;> simp [freeCaches, memFree, releaseIoaddr]

/-- A deinit is counted once. -/
theorem deinit_outstanding : (lib.deinit chip).outstanding = lib.outstanding - 1 := by
  cases chip with
  | t41 =>
    simp only [deinit]
    split <;> simp [freeCaches, memFree, releaseIoaddr]
  | a1 =>
    simp only [deinit]
    split <;> simp [freeCaches, memFree, releaseIoaddr]

/-- A deinit that fits keeps the invariant, and there is an init for it. -/
theorem tracks_deinit (tracks : Tracks chip lib) (fits : DeinitFits chip lib) :
    Tracks chip (lib.deinit chip) ∧ Respects chip lib .deinit (lib.deinit chip) := by
  -- The counter stays above zero, or this is the last deinit.
  obtain ⟨rfl, many | ⟨one, covered⟩⟩ := fits
  · obtain ⟨low, high, wide, _⟩ := tracks.t41 rfl
    have some : lib.outstanding ≠ 0 := by omega
    have left : lib.outstanding - 1 ≠ 0 := by omega
    have live := tracks.live some
    have same : (lib.count - 1) % 2 ^ 32 = lib.count - 1 := by omega
    have result : lib.deinit .t41 =
        { lib with count := lib.count - 1 - 1, outstanding := lib.outstanding - 1 } := by
      simp only [deinit, same]
      rw [if_pos (by omega)]
    refine ⟨?_, fun none => absurd none some⟩
    rw [result]
    exact
      { unbroken := tracks.unbroken
        kept := tracks.kept
        live := fun _ => ⟨live.regs, live.memFd, live.manager, live.cache, live.dummy⟩
        idle := fun none => absurd none left
        t41 := fun _ => ⟨by dsimp only; omega, by dsimp only; omega, by dsimp only; omega,
          fun _ => by dsimp only; omega⟩
        a1 := fun other => by cases other
        unused := tracks.unused
        gone := fun none => absurd none left
        empty := tracks.empty }
  · exact ⟨(deinit_last tracks one).1 covered, fun none => by omega⟩

/-- A deinit that leaves a sound state, and changes nothing without an init, fits. -/
theorem fits_deinit (tracks : Tracks chip lib) (sound : Sound chip (lib.deinit chip))
    (respects : Respects chip lib .deinit (lib.deinit chip)) : DeinitFits chip lib := by
  have some : lib.outstanding ≠ 0 :=
    fun none => deinit_extra tracks none (respects none)
  have live := tracks.live some
  cases chip with
  | a1 =>
    have last : (lib.deinit .a1).outstanding = 0 := by
      have := (tracks.a1 rfl).2
      rw [deinit_outstanding]
      omega
    exact absurd (deinit_regs.trans live.regs) (sound.idle last).regs
  | t41 =>
    refine ⟨rfl, ?_⟩
    by_cases many : 3 ≤ lib.count
    · exact .inl many
    · have result := deinit_frees tracks some (by omega)
      -- Everything is gone, so this was the last deinit.
      have one : lib.outstanding = 1 := by
        by_contra more
        have regs := (sound.live (by rw [deinit_outstanding]; omega)).regs
        rw [result] at regs
        cases regs
      exact .inr ⟨one, (deinit_last tracks one).2 sound⟩

/-- A careful call keeps the invariant and respects what is in use. -/
theorem tracks_step {step' : LibStep} (tracks : Tracks chip lib)
    (taken : step chip lib step' = some after) (careful : Careful chip lib step') :
    Tracks chip after ∧ Respects chip lib step' after := by
  -- One case for each call, with its own law.
  cases step' with
  | init answers =>
    cases taken
    exact tracks_init tracks careful
  | process call =>
    simp only [step, Option.ite_none_right_eq_some, Option.some.injEq] at taken
    obtain ⟨_, rfl⟩ := taken
    refine ⟨?_, trivial⟩
    by_cases none : lib.outstanding = 0
    · exact (tracks_process_idle tracks none).1 careful
    · exact (tracks_process_live tracks none).1 careful
  | deinit =>
    cases taken
    exact tracks_deinit tracks careful

/-- A call that is not careful leaves an unsound state, or changes what is in use. -/
theorem careful_step {step' : LibStep} (tracks : Tracks chip lib)
    (taken : step chip lib step' = some after) (sound : Sound chip after)
    (respects : Respects chip lib step' after) : Careful chip lib step' := by
  -- The same cases, from what the call leaves.
  cases step' with
  | init answers =>
    cases taken
    exact fits_init tracks sound respects
  | process call =>
    simp only [step, Option.ite_none_right_eq_some, Option.some.injEq] at taken
    obtain ⟨_, rfl⟩ := taken
    by_cases none : lib.outstanding = 0
    · exact (tracks_process_idle tracks none).2 sound
    · exact (tracks_process_live tracks none).2 sound
  | deinit =>
    cases taken
    exact fits_deinit tracks sound respects

/--
In every run of inits, process calls and deinits on either chip, every state is sound and every
call respects what is in use exactly when every call is careful.
-/
theorem balanced_iff (chip : Chip) (run : List LibStep) :
    (Runs.Always (step chip) (Sound chip) start run ∧
      Runs.Each (step chip) (Respects chip) start run) ↔
    Runs.Each (step chip) (fun lib call _ => Careful chip lib call) start run :=
  Runs.safe_iff (fun _ tracks => tracks.toSound)
    (fun _ _ _ tracks taken careful => tracks_step tracks taken careful)
    (fun _ _ _ tracks taken sound respects => careful_step tracks taken sound respects)
    (tracks_start chip)

/-- Everything that an init can ask for. -/
def everything : InitAnswers :=
  { managers := fun _ => true, opened := true, mapped := true, dummy := true }

/--
On the T41 the first of two deinits gives everything back, and on the A1 the only one leaves the
registers mapped.
-/
theorem unbalanced :
    ¬ Runs.Always (step .t41) (Sound .t41) start [.init everything, .init everything, .deinit] ∧
      ¬ Runs.Always (step .a1) (Sound .a1) start [.init everything, .deinit] := by
  constructor
  · intro always
    have sound := ((always.2 _ rfl).2 _ rfl).2 _ rfl
    exact absurd (sound.live (by decide)).regs (by decide)
  · intro always
    have sound := (always.2 _ rfl).2 _ rfl
    exact absurd (sound.idle (by decide)).regs (by decide)

end AipLib

end Aip
