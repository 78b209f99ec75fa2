import Mathlib.Algebra.Order.Ring.Int
import Mathlib.Algebra.Order.Ring.Nat
import Mathlib.Data.List.Chain
import Mathlib.Data.List.Nodup
import Mathlib.Data.List.Perm.Basic
import Mathlib.Logic.Function.Basic

/-! Lanes of items that are merged into one list by taking from the front of one lane at a time. -/

namespace Merge

variable {ι α σ : Type*} [DecidableEq ι]

/-- Items leave from the front of the lanes, each `ahead` of what then stands in front of any lane. -/
inductive Merges (ahead : α → α → Prop) : (ι → List α) → List α → (ι → List α) → Prop
  | done (lanes : ι → List α) : Merges ahead lanes [] lanes
  | take {lanes last : ι → List α} {taken : List α} {lane : ι} {item : α} {rest : List α}
      (front : lanes lane = item :: rest)
      (least : ∀ other next, (lanes other).head? = some next → ahead item next)
      (more : Merges ahead (Function.update lanes lane rest) taken last) :
      Merges ahead lanes (item :: taken) last

variable {ahead : α → α → Prop} {lanes last : ι → List α} {taken rest : List α} {order : List ι}
  {lane : ι} {item : α}

/-- What stands in a lane after a take stood in that lane before it. -/
theorem mem_of_mem_update (front : lanes lane = item :: rest) {other : ι} {next : α}
    (member : next ∈ Function.update lanes lane rest other) : next ∈ lanes other := by
  by_cases same : other = lane
  · subst same
    rw [Function.update_self] at member
    rw [front]
    exact List.mem_cons_of_mem _ member
  · rwa [Function.update_of_ne same] at member

/-- Every item taken comes from one of the lanes. -/
theorem Merges.from_lane (merges : Merges ahead lanes taken last) (member : item ∈ taken) :
    ∃ lane, item ∈ lanes lane := by
  -- Each take only makes a lane shorter.
  induction merges with
  | done lanes => simp at member
  | @take lanes last taken lane first rest front least more ih =>
    rcases List.mem_cons.mp member with rfl | later
    · exact ⟨lane, by rw [front]; exact List.mem_cons_self⟩
    · obtain ⟨other, there⟩ := ih later
      exact ⟨other, mem_of_mem_update front there⟩

/-- Merging lanes that are in order gives a list in order. -/
theorem Merges.sorted (trans : ∀ a b c, ahead a b → ahead b c → ahead a c)
    (merges : Merges ahead lanes taken last) (ordered : ∀ lane, (lanes lane).Pairwise ahead) :
    taken.Pairwise ahead := by
  induction merges with
  | done lanes => exact List.Pairwise.nil
  | @take lanes last taken lane first rest front least more ih =>
    have shorter : ∀ other, (Function.update lanes lane rest other).Pairwise ahead := by
      intro other
      by_cases same : other = lane
      · subst same
        have whole := ordered other
        rw [front, List.pairwise_cons] at whole
        rw [Function.update_self]
        exact whole.2
      · rw [Function.update_of_ne same]
        exact ordered other
    refine List.pairwise_cons.mpr ⟨fun later member => ?_, ih shorter⟩
    -- What comes later still stands somewhere, behind the front of its lane or in front itself.
    obtain ⟨other, there⟩ := more.from_lane member
    have before := mem_of_mem_update front there
    have inOrder := ordered other
    cases shape : lanes other with
    | nil =>
      rw [shape] at before
      simp at before
    | cons head tail =>
      have leads := least other head (by rw [shape]; rfl)
      rw [shape] at before inOrder
      rcases List.mem_cons.mp before with rfl | behind
      · exact leads
      · exact trans _ _ _ leads ((List.pairwise_cons.mp inOrder).1 later behind)

/-- Taking the front of one lane takes that item out of what the lanes hold together. -/
theorem take_perm (nodup : order.Nodup) (listed : lane ∈ order)
    (front : lanes lane = item :: rest) :
    (order.flatMap lanes).Perm (item :: order.flatMap (Function.update lanes lane rest)) := by
  -- The lane stands at one place of the order, and all the others keep what they hold.
  obtain ⟨before, after, rfl⟩ := List.append_of_mem listed
  have elsewhere : ∀ some : List ι, lane ∉ some →
      some.flatMap (Function.update lanes lane rest) = some.flatMap lanes := by
    intro some absent
    refine List.flatMap_congr fun other member => Function.update_of_ne ?_ _ _
    rintro rfl
    exact absent member
  have absent := List.nodup_middle.mp nodup
  have apart := (List.nodup_cons.mp absent).1
  rw [List.mem_append, not_or] at apart
  simp only [List.flatMap_append, List.flatMap_cons, elsewhere _ apart.1, elsewhere _ apart.2,
    Function.update_self, front, List.cons_append]
  exact List.perm_middle

/-- Nothing is lost and nothing is doubled: the items are those taken and those that remain. -/
theorem Merges.perm (nodup : order.Nodup) (merges : Merges ahead lanes taken last)
    (outside : ∀ lane, lane ∉ order → lanes lane = []) :
    (order.flatMap lanes).Perm (taken ++ order.flatMap last) := by
  -- The induction is on the merge; each step moves the front of one lane to the items taken.
  induction merges with
  | done lanes => exact List.Perm.refl _
  | @take lanes last taken lane first rest front least more ih =>
    have listed : lane ∈ order := by
      by_contra absent
      rw [outside lane absent] at front
      cases front
    have still : ∀ other, other ∉ order → Function.update lanes lane rest other = [] := by
      intro other absent
      rw [Function.update_of_ne (by rintro rfl; exact absent listed)]
      exact outside other absent
    exact (take_perm nodup listed front).trans ((ih still).cons first)

/-- The front of another lane stays where it is in a take. -/
theorem chain_update {R : α → α → Prop} (front : lanes lane = item :: rest)
    (chains : ∀ other, (lanes other).IsChain R) (other : ι) :
    (Function.update lanes lane rest other).IsChain R := by
  by_cases same : other = lane
  · subst same
    rw [Function.update_self]
    have whole := chains other
    rw [front] at whole
    exact whole.tail
  · rw [Function.update_of_ne same]
    exact chains other

/--
Neighbours in a merge are related where neighbours in the lanes are.

Two neighbours from different lanes stood in front of their lanes together, so the first is ahead.
-/
theorem Merges.isChain {R : α → α → Prop} (weaker : ∀ a b, ahead a b → R a b)
    (merges : Merges ahead lanes taken last) (chains : ∀ lane, (lanes lane).IsChain R) :
    taken.IsChain R := by
  induction merges with
  | done lanes => exact List.IsChain.nil
  | @take lanes last taken lane first rest front least more ih =>
    have later := ih (chain_update front chains)
    cases more with
    | done => exact List.IsChain.singleton first
    | @take _ _ taken other second tail front' least' more' =>
      refine List.IsChain.cons_cons ?_ later
      -- The second item comes from the same lane, or it stood in front of another one.
      by_cases same : other = lane
      · subst same
        have whole := chains other
        rw [Function.update_self] at front'
        rw [front, front'] at whole
        exact (List.isChain_cons_cons.mp whole).1
      · rw [Function.update_of_ne same] at front'
        exact weaker _ _ (least other second (by rw [front']; rfl))

/--
Neighbours in a lane stay neighbours in the merge where the second one goes before all that the
first one is ahead of.
-/
theorem Merges.adjacent {a b : α} (sharp : ∀ c, ahead a c → ¬ ahead c b)
    (merges : Merges ahead lanes taken last) (drained : ∀ lane, last lane = [])
    (adjacent : [a, b] <:+: lanes lane) : [a, b] <:+: taken := by
  induction merges with
  | done lanes =>
    rw [drained lane] at adjacent
    exact absurd (List.infix_nil.mp adjacent) (List.cons_ne_nil _ _)
  | @take lanes last taken other first rest front least more ih =>
    by_cases same : lane = other
    · subst same
      rw [front] at adjacent
      rcases List.infix_cons_iff.mp adjacent with ahead' | behind
      · -- Nothing but the second item can leave after the first one.
        obtain ⟨tail, shape⟩ := ahead'
        obtain ⟨rfl, rfl⟩ := List.cons.inj shape
        cases more with
        | done =>
          have empty := drained lane
          rw [Function.update_self] at empty
          exact absurd empty (List.cons_ne_nil _ _)
        | @take _ _ taken other second rest front' least' more' =>
          by_cases again : other = lane
          · subst again
            rw [Function.update_self] at front'
            obtain ⟨rfl, -⟩ := List.cons.inj front'
            exact ⟨[], taken, rfl⟩
          · rw [Function.update_of_ne again] at front'
            refine absurd (least' lane b (by rw [Function.update_self]; rfl)) (sharp second ?_)
            exact least other second (by rw [front']; rfl)
      · refine List.infix_cons (ih drained ?_)
        rw [Function.update_self]
        exact behind
    · refine List.infix_cons (ih drained ?_)
      rw [Function.update_of_ne same]
      exact adjacent

/-- Neighbours of drained lanes are related in the merge exactly where they are in the lanes. -/
theorem Merges.isChain_iff {R : α → α → Prop} (weaker : ∀ a b, ahead a b → R a b)
    (sharp : ∀ a b, ¬ R a b → ∀ c, ahead a c → ¬ ahead c b)
    (merges : Merges ahead lanes taken fun _ => []) :
    taken.IsChain R ↔ ∀ lane, (lanes lane).IsChain R := by
  constructor
  · intro chain lane
    rw [List.isChain_iff_forall_rel_of_append_cons_cons]
    intro a b before after shape
    by_contra unrelated
    have adjacent : [a, b] <:+: lanes lane := ⟨before, after, by rw [shape]; simp⟩
    have found := chain.infix (merges.adjacent (sharp a b unrelated) (fun _ => rfl) adjacent)
    exact unrelated (List.isChain_cons_cons.mp found).1
  · exact fun chains => merges.isChain weaker chains

/-- A loop body that may fail, so many times. -/
def loop (body : σ → Option σ) : Nat → σ → Option σ
  | 0, state => some state
  | n + 1, state => (body state).bind (loop body n)

/--
A loop that takes one item from the front of a lane in every round has merged all lanes in the end.

What a state shows of the lanes, and the invariant the body needs, is the relation `Shows`.
-/
theorem drain (ahead : α → α → Prop) (body : σ → Option σ) (visited : σ → List α)
    (Shows : σ → (ι → List α) → Prop) (nodup : order.Nodup)
    (outside : ∀ state lanes, Shows state lanes → ∀ lane, lane ∉ order → lanes lane = [])
    (step : ∀ state lanes, Shows state lanes → (∃ lane, lanes lane ≠ []) →
      ∃ next lane item rest, body state = some next ∧ lanes lane = item :: rest ∧
        (∀ other front, (lanes other).head? = some front → ahead item front) ∧
        visited next = visited state ++ [item] ∧ Shows next (Function.update lanes lane rest))
    (state : σ) (lanes : ι → List α) (shows : Shows state lanes) :
    ∃ final taken, loop body (order.flatMap lanes).length state = some final ∧
      visited final = visited state ++ taken ∧ Merges ahead lanes taken (fun _ => []) ∧
      Shows final (fun _ => []) := by
  -- The number of rounds is the number of items left, and each round takes one of them.
  generalize rounds : (order.flatMap lanes).length = n
  induction n generalizing state lanes with
  | zero =>
    have empty : lanes = fun _ => [] := by
      funext lane
      by_cases listed : lane ∈ order
      · have none := List.flatMap_eq_nil_iff.mp (List.eq_nil_of_length_eq_zero rounds)
        exact none lane listed
      · exact outside state lanes shows lane listed
    subst empty
    exact ⟨state, [], rfl, (List.append_nil _).symm, Merges.done _, shows⟩
  | succ n ih =>
    have someLane : ∃ lane, lanes lane ≠ [] := by
      by_contra none
      push Not at none
      have empty : order.flatMap lanes = [] :=
        List.flatMap_eq_nil_iff.mpr fun lane _ => none lane
      rw [empty] at rounds
      simp at rounds
    obtain ⟨next, lane, item, rest, moved, front, least, logged, after⟩ :=
      step state lanes shows someLane
    have listed : lane ∈ order := by
      by_contra absent
      rw [outside state lanes shows lane absent] at front
      cases front
    have fewer : (order.flatMap (Function.update lanes lane rest)).length = n := by
      have count := (take_perm nodup listed front).length_eq
      rw [List.length_cons] at count
      omega
    obtain ⟨final, taken, ran, sum, merges, finally_⟩ := ih next _ after fewer
    refine ⟨final, item :: taken, ?_, ?_, Merges.take front least merges, finally_⟩
    · rw [loop, moved]
      exact ran
    · rw [sum, logged, List.append_assoc]
      rfl

end Merge
