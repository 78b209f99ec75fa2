import Mathlib.Algebra.Order.Ring.Int
import Mathlib.Algebra.Order.Ring.Nat
import Mathlib.Data.List.Basic

/-! Finite runs of a labelled partial step function, and the rules that lift step facts to them. -/

namespace Runs

variable {σ ι : Type*} (step : σ → ι → Option σ)

/-- The state a list of labels leads to, provided every step is enabled when its turn comes. -/
def exec : σ → List ι → Option σ
  -- A disabled step leaves no state to continue from.
  | s, [] => some s
  | s, a :: as =>
    match step s a with
    | some t => exec t as
    | none => none

/-- The property holds in every state the run passes through, its first state included. -/
def Always (P : σ → Prop) : σ → List ι → Prop
  -- Nothing is required beyond a disabled step, because the run has ended there.
  | s, [] => P s
  | s, a :: as => P s ∧ ∀ t, step s a = some t → Always P t as

/-- Every step the run takes is related to the states before and after it. -/
def Each (Q : σ → ι → σ → Prop) : σ → List ι → Prop
  -- A relation that ignores its last argument is a condition on the state before the step.
  | _, [] => True
  | s, a :: as => ∀ t, step s a = some t → Q s a t ∧ Each Q t as

variable {step}

/-- A run that reaches a state has taken its first step and reaches it from there. -/
theorem exec_cons {s u : σ} {a : ι} {as : List ι} :
    exec step s (a :: as) = some u ↔ ∃ t, step s a = some t ∧ exec step t as = some u := by
  -- The run continues only when the first step is enabled.
  cases taken : step s a with
  | none => simp [exec, taken]
  | some t => simp [exec, taken]

/-- A relation on every step of a run is one on its first step and on the rest of the run. -/
theorem each_cons {Q : σ → ι → σ → Prop} {s t : σ} {a : ι} {as : List ι}
    (taken : step s a = some t) : Each step Q s (a :: as) ↔ Q s a t ∧ Each step Q t as := by
  constructor
  · exact fun each => each t taken
  · intro both u also
    cases taken.symm.trans also
    exact both

/-- Running two label lists one after the other is running their concatenation. -/
theorem exec_append {s u : σ} {as bs : List ι} :
    exec step s (as ++ bs) = some u ↔ ∃ t, exec step s as = some t ∧ exec step t bs = some u := by
  -- The induction moves the first step of the left list out of both sides.
  induction as generalizing s with
  | nil => simp [exec]
  | cons a as ih =>
    simp only [List.cons_append, exec_cons, ih]
    constructor
    · intro given
      obtain ⟨t, taken, v, first, second⟩ := given
      exact ⟨v, ⟨t, taken, first⟩, second⟩
    · intro given
      obtain ⟨v, ⟨t, taken, first⟩, second⟩ := given
      exact ⟨t, taken, v, first, second⟩

/-- A property of every state is a property of every state reached by a prefix of the run. -/
theorem always_iff {P : σ → Prop} {s : σ} {run : List ι} :
    Always step P s run ↔ ∀ pre t, pre <+: run → exec step s pre = some t → P t := by
  -- Dropping the first label turns prefixes of the run into prefixes of its tail.
  induction run generalizing s with
  | nil =>
    constructor
    · intro holds pre t within reached
      have none : pre = [] := List.prefix_nil.mp within
      subst none
      cases reached
      exact holds
    · intro holds
      exact holds [] s (List.prefix_refl _) rfl
  | cons a as ih =>
    constructor
    · intro given pre u within reached
      obtain ⟨here, later⟩ := given
      cases pre with
      | nil => cases reached; exact here
      | cons b bs =>
        obtain ⟨rfl, tail⟩ := List.cons_prefix_cons.mp within
        obtain ⟨t, taken, rest⟩ := exec_cons.mp reached
        exact ih.mp (later t taken) bs u tail rest
    · intro holds
      refine ⟨holds [] s (List.nil_prefix) rfl, fun t taken => ih.mpr ?_⟩
      intro pre u within reached
      exact holds (a :: pre) u (List.cons_prefix_cons.mpr ⟨rfl, within⟩)
        (exec_cons.mpr ⟨t, taken, reached⟩)

/-- A relation on every step is a relation on each step taken after a prefix of the run. -/
theorem each_iff {Q : σ → ι → σ → Prop} {s : σ} {run : List ι} :
    Each step Q s run ↔ ∀ pre a t u, pre ++ [a] <+: run →
      exec step s pre = some t → step t a = some u → Q t a u := by
  -- The first step is the empty prefix, and every later one extends a prefix of the tail.
  induction run generalizing s with
  | nil =>
    constructor
    · intro _ pre a t u within
      simp at within
    · intro _
      trivial
  | cons b bs ih =>
    constructor
    · intro holds pre a t u within reached taken
      cases pre with
      | nil =>
        cases reached
        obtain ⟨rfl, _⟩ := List.cons_prefix_cons.mp within
        exact (holds u taken).1
      | cons c cs =>
        obtain ⟨rfl, tail⟩ := List.cons_prefix_cons.mp within
        obtain ⟨v, first, rest⟩ := exec_cons.mp reached
        exact ih.mp (holds v first).2 cs a t u tail rest taken
    · intro holds v first
      refine ⟨holds [] b s v ?_ rfl first, ih.mpr ?_⟩
      · exact List.cons_prefix_cons.mpr ⟨rfl, List.nil_prefix⟩
      · intro pre a t u within reached taken
        exact holds (b :: pre) a t u (List.cons_prefix_cons.mpr ⟨rfl, within⟩)
          (exec_cons.mpr ⟨v, first, reached⟩) taken

/-- The last state of a run has every property that holds throughout the run. -/
theorem Always.last {P : σ → Prop} {s t : σ} {run : List ι} (holds : Always step P s run)
    (reached : exec step s run = some t) : P t :=
  always_iff.mp holds run t (List.prefix_refl _) reached

/-- A property of every state may be weakened state by state. -/
theorem Always.mono {P P' : σ → Prop} (weaker : ∀ s, P s → P' s) {s : σ} {run : List ι}
    (holds : Always step P s run) : Always step P' s run := by
  -- Both properties are tested at the same prefixes.
  rw [always_iff] at holds ⊢
  exact fun pre t within reached => weaker t (holds pre t within reached)

section Invariants

variable {I : σ → Prop} {ok : σ → ι → σ → Prop} {s : σ} {run : List ι}

/-- A property of the first state and of the target of every step is one of every state. -/
theorem always_iff_each {P : σ → Prop} (start : P s) :
    Always step P s run ↔ Each step (fun _ _ t => P t) s run := by
  -- The target of one step is the first state of the rest of the run.
  induction run generalizing s with
  | nil => exact ⟨fun _ => trivial, fun _ => start⟩
  | cons a as ih =>
    constructor
    · intro holds t taken
      have rest := holds.2 t taken
      have here : P t := by
        cases as with
        | nil => exact rest
        | cons b bs => exact rest.1
      exact ⟨here, (ih here).mp rest⟩
    · intro holds
      exact ⟨start, fun t taken => (ih (holds t taken).1).mpr (holds t taken).2⟩

/-- An invariant of the steps that meet a condition holds throughout a run meeting it. -/
theorem always_of_invariant
    (preserved : ∀ s a t, I s → step s a = some t → ok s a t → I t)
    (start : I s) (meets : Each step ok s run) : Always step I s run := by
  -- The run is unfolded from the left, carrying the invariant along.
  induction run generalizing s with
  | nil => exact start
  | cons a as ih =>
    refine ⟨start, fun t taken => ?_⟩
    obtain ⟨met, rest⟩ := meets t taken
    exact ih (preserved s a t start taken met) rest

/-- Steps taken from invariant states, meeting the condition, all satisfy what one such step does. -/
theorem each_of_invariant {Q : σ → ι → σ → Prop}
    (preserved : ∀ s a t, I s → step s a = some t → ok s a t → I t)
    (related : ∀ s a t, I s → step s a = some t → ok s a t → Q s a t)
    (start : I s) (meets : Each step ok s run) : Each step Q s run := by
  -- Each step is taken from a state with the invariant, which the step then passes on.
  induction run generalizing s with
  | nil => trivial
  | cons a as ih =>
    intro t taken
    obtain ⟨met, rest⟩ := meets t taken
    exact ⟨related s a t start taken met, ih (preserved s a t start taken met) rest⟩

/-- Without a condition on its steps, an invariant holds throughout every run. -/
theorem always_of_preserved (preserved : ∀ s a t, I s → step s a = some t → I t) (start : I s) :
    Always step I s run := by
  -- The invariant of the first state is handed from step to step.
  induction run generalizing s with
  | nil => exact start
  | cons a as ih => exact ⟨start, fun t taken => ih (preserved s a t start taken)⟩

/-- A run never stops early when every state with the invariant has a step that keeps it. -/
theorem exec_total (enabled : ∀ s a, I s → ∃ t, step s a = some t ∧ I t) (start : I s) :
    ∃ t, exec step s run = some t ∧ I t := by
  -- Each label finds a step, taken from a state with the invariant.
  induction run generalizing s with
  | nil => exact ⟨s, rfl, start⟩
  | cons a as ih =>
    obtain ⟨t, taken, kept⟩ := enabled s a start
    obtain ⟨u, reached, holds⟩ := ih kept
    exact ⟨u, exec_cons.mpr ⟨t, taken, reached⟩, holds⟩

/-- A relation that always holds holds of each step. -/
theorem each_true : Each step (fun _ _ _ => True) s run := by
  rw [each_iff]
  exact fun _ _ _ _ _ _ _ => trivial

/-- Two relations that agree on allowed steps from an invariant state agree on runs of such steps. -/
theorem each_congr_within {Q allowed : σ → ι → σ → Prop}
    (preserved : ∀ s a t, I s → step s a = some t → allowed s a t → I t)
    (same : ∀ s a t, I s → step s a = some t → (Q s a t ↔ ok s a t)) (start : I s)
    (within : Each step allowed s run) : Each step Q s run ↔ Each step ok s run := by
  -- The two conditions agree on the first step, and the invariant holds behind it.
  induction run generalizing s with
  | nil => exact Iff.rfl
  | cons a as ih =>
    refine forall_congr' fun t => forall_congr' fun taken => ?_
    obtain ⟨may, rest⟩ := within t taken
    exact and_congr (same s a t start taken) (ih (preserved s a t start taken may) rest)

/-- Two relations that agree on every step from an invariant state agree on every run. -/
theorem each_congr {Q : σ → ι → σ → Prop} (preserved : ∀ s a t, I s → step s a = some t → I t)
    (same : ∀ s a t, I s → step s a = some t → (Q s a t ↔ ok s a t)) (start : I s) :
    Each step Q s run ↔ Each step ok s run :=
  each_congr_within (fun s a t here taken _ => preserved s a t here taken) same start each_true

/--
The condition on the steps is exactly what a run of allowed steps needs to be safe.

Each step meeting it keeps the invariant and does no harm, and each step violating it does harm.
-/
theorem safe_iff_within {P : σ → Prop} {Q allowed : σ → ι → σ → Prop}
    (safe : ∀ s, I s → P s)
    (sound : ∀ s a t, I s → step s a = some t → allowed s a t → ok s a t → I t ∧ Q s a t)
    (exact : ∀ s a t, I s → step s a = some t → allowed s a t → P t → Q s a t → ok s a t)
    (start : I s) (within : Each step allowed s run) :
    (Always step P s run ∧ Each step Q s run) ↔ Each step ok s run := by
  induction run generalizing s with
  | nil => exact ⟨fun _ => trivial, fun _ => ⟨safe s start, trivial⟩⟩
  | cons a as ih =>
    constructor
    · intro given t taken
      -- A first step that violated the condition would be one the hypotheses call harmful.
      obtain ⟨always, each⟩ := given
      obtain ⟨may, rest⟩ := within t taken
      obtain ⟨related, others⟩ := each t taken
      have later := always.2 t taken
      have here : P t := by
        cases as with
        | nil => exact later
        | cons b bs => exact later.1
      have met := exact s a t start taken may here related
      exact ⟨met, (ih (sound s a t start taken may met).1 rest).mp ⟨later, others⟩⟩
    · intro meets
      refine ⟨⟨safe s start, fun t taken => ?_⟩, fun t taken => ?_⟩
      · obtain ⟨may, rest⟩ := within t taken
        obtain ⟨met, others⟩ := meets t taken
        exact ((ih (sound s a t start taken may met).1 rest).mpr others).1
      · obtain ⟨may, rest⟩ := within t taken
        obtain ⟨met, others⟩ := meets t taken
        obtain ⟨kept, related⟩ := sound s a t start taken may met
        exact ⟨related, ((ih kept rest).mpr others).2⟩

/-- The condition on the steps is exactly what a run of any steps needs to be safe. -/
theorem safe_iff {P : σ → Prop} {Q : σ → ι → σ → Prop}
    (safe : ∀ s, I s → P s)
    (sound : ∀ s a t, I s → step s a = some t → ok s a t → I t ∧ Q s a t)
    (exact : ∀ s a t, I s → step s a = some t → P t → Q s a t → ok s a t)
    (start : I s) :
    (Always step P s run ∧ Each step Q s run) ↔ Each step ok s run :=
  safe_iff_within safe (fun s a t h taken _ => sound s a t h taken)
    (fun s a t h taken _ => exact s a t h taken) start each_true

/-- A condition that is exact for a property of states alone. -/
theorem always_safe_iff {P : σ → Prop}
    (safe : ∀ s, I s → P s)
    (sound : ∀ s a t, I s → step s a = some t → ok s a t → I t)
    (exact : ∀ s a t, I s → step s a = some t → P t → ok s a t)
    (start : I s) : Always step P s run ↔ Each step ok s run := by
  -- Every step satisfies the relation that always holds.
  have both : (Always step P s run ∧ Each step (fun _ _ _ => True) s run) ↔ Each step ok s run :=
    safe_iff safe (fun s a t h taken met => ⟨sound s a t h taken met, trivial⟩)
      (fun s a t h taken here _ => exact s a t h taken here) start
  exact ⟨fun always => both.mp ⟨always, each_true⟩, fun meets => (both.mpr meets).1⟩

end Invariants

end Runs
