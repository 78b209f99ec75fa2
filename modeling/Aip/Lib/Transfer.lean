import Aip.Lib.Paint

/-! Loops that read from the canvas they paint, and what they leave at the places they fill. -/

namespace Transfer

open Paint (paint paint_append paint_untouched paint_uniform)

variable {α β γ ι : Type*}

/--
The jobs look at a part of the canvas only, and store none of it.

What a job stores may depend on the canvas that it finds.
-/
structure Apart (stores : (α → β) → γ → List (α × β)) (jobs : List γ) (reads : α → Prop) :
    Prop where
  looks : ∀ {image other : α → β}, (∀ place, reads place → image place = other place) →
    ∀ job ∈ jobs, stores image job = stores other job
  spares : ∀ image, ∀ job ∈ jobs, ∀ store ∈ stores image job, ¬ reads store.1

namespace Apart

variable {stores : (α → β) → γ → List (α × β)} {jobs : List γ} {reads : α → Prop}
  {canvas : α → β}

theorem of_cons {job : γ} (apart : Apart stores (job :: jobs) reads) : Apart stores jobs reads :=
  ⟨fun same other member => apart.looks same other (List.mem_cons_of_mem job member),
    fun image other member => apart.spares image other (List.mem_cons_of_mem job member)⟩

/-- Such a loop paints what its jobs would store from the canvas of the start. -/
theorem foldl_eq [DecidableEq α] (apart : Apart stores jobs reads) :
    jobs.foldl (fun image job => paint image (stores image job)) canvas =
      paint canvas (jobs.flatMap (stores canvas)) := by
  -- The part that is read stays as it was, so it is carried through the induction.
  suffices ∀ image : α → β, (∀ place, reads place → image place = canvas place) →
      jobs.foldl (fun image job => paint image (stores image job)) image =
        paint image (jobs.flatMap (stores canvas)) from this canvas fun _ _ => rfl
  induction jobs with
  | nil => exact fun image _ => rfl
  | cons job jobs ih =>
    intro image same
    have first : stores image job = stores canvas job := apart.looks same job List.mem_cons_self
    have kept : ∀ place, reads place → paint image (stores image job) place = canvas place := by
      intro place read
      refine (paint_untouched fun store member here => ?_).trans (same place read)
      exact apart.spares image job List.mem_cons_self store member (here ▸ read)
    rw [List.foldl_cons, ih apart.of_cons _ kept, List.flatMap_cons, paint_append, first]

end Apart

/-- Each index has its value in its cell, and every other place is as it was. -/
structure Filled (canvas after : α → β) (indices : List ι) (cell : ι → α) (value : ι → β) :
    Prop where
  fills : ∀ i ∈ indices, after (cell i) = value i
  keeps : ∀ place, (∀ i ∈ indices, cell i ≠ place) → after place = canvas place

namespace Filled

variable {canvas middle after other : α → β} {indices more : List ι} {cell : ι → α} {value : ι → β}

/-- Nothing is filled by no index. -/
theorem nil : Filled canvas canvas ([] : List ι) cell value :=
  ⟨fun _ member => (List.not_mem_nil member).elim, fun _ _ => rfl⟩

/-- Stores that are those of the indices fill their cells, if no two cells are one. -/
theorem of_paint [DecidableEq α] {writes : List (α × β)}
    (members : ∀ store, store ∈ writes ↔ ∃ i ∈ indices, store = (cell i, value i))
    (once : (indices.map cell).Nodup) : Filled canvas (paint canvas writes) indices cell value := by
  constructor
  · intro i member
    refine paint_uniform ⟨_, (members _).mpr ⟨i, member, rfl⟩, rfl⟩ ?_
    intro store stored here
    obtain ⟨j, member', rfl⟩ := (members store).mp stored
    rw [List.inj_on_of_nodup_map once member' member here]
  · intro place away
    refine paint_untouched fun store stored here => ?_
    obtain ⟨i, member, rfl⟩ := (members store).mp stored
    exact away i member here

/-- Cells filled later are added to those filled before, if none of them is the same. -/
theorem append (first : Filled canvas middle indices cell value)
    (second : Filled middle after more cell value)
    (apart : ∀ i ∈ indices, ∀ j ∈ more, cell j ≠ cell i) :
    Filled canvas after (indices ++ more) cell value := by
  constructor
  · intro i member
    rcases List.mem_append.mp member with earlier | later
    · rw [second.keeps _ (apart i earlier), first.fills i earlier]
    · exact second.fills i later
  · intro place away
    rw [second.keeps place fun j member => away j (List.mem_append_right indices member),
      first.keeps place fun i member => away i (List.mem_append_left more member)]

/-- The order of the indices does not matter, and neither does how often they are listed. -/
theorem of_mem_iff (filled : Filled canvas after indices cell value)
    (same : ∀ i, i ∈ more ↔ i ∈ indices) : Filled canvas after more cell value :=
  ⟨fun i member => filled.fills i ((same i).mp member),
    fun place away => filled.keeps place fun i member => away i ((same i).mpr member)⟩

/-- Indices may be named by others, which have the same cells and the same values. -/
theorem of_map {κ : Type*} {names : List κ} {name : κ → ι} {cell' : κ → α} {value' : κ → β}
    (filled : Filled canvas after names cell' value')
    (same : ∀ k ∈ names, cell' k = cell (name k) ∧ value' k = value (name k)) :
    Filled canvas after (names.map name) cell value := by
  constructor
  · intro i member
    obtain ⟨k, listed, rfl⟩ := List.mem_map.mp member
    rw [← (same k listed).1, ← (same k listed).2, filled.fills k listed]
  · intro place away
    refine filled.keeps place fun k listed => ?_
    rw [(same k listed).1]
    exact away _ (List.mem_map.mpr ⟨k, listed, rfl⟩)

/-- Only the values of the listed indices count. -/
theorem congr {value' : ι → β} (filled : Filled canvas after indices cell value)
    (same : ∀ i ∈ indices, value i = value' i) : Filled canvas after indices cell value' :=
  ⟨fun i member => (filled.fills i member).trans (same i member), filled.keeps⟩

/-- There is only one canvas that is filled so. -/
theorem unique (filled : Filled canvas after indices cell value)
    (filled' : Filled canvas other indices cell value) : after = other := by
  funext place
  by_cases touched : ∃ i ∈ indices, cell i = place
  · obtain ⟨i, member, rfl⟩ := touched
    rw [filled.fills i member, filled'.fills i member]
  · push Not at touched
    rw [filled.keeps place touched, filled'.keeps place touched]

end Filled

end Transfer
