import Mathlib.Algebra.Order.Ring.Int
import Mathlib.Algebra.Order.Ring.Nat
import Mathlib.Data.List.Basic

/-! Lists of increasing tickets, and lists whose first element alone is being served. -/

namespace Ticket

/-- Tickets wait in increasing order, all after the last one served and none beyond the last issued. -/
structure Window (served issued : Nat) (tickets : List Nat) : Prop where
  sorted : tickets.Pairwise (· < ·)
  pending : ∀ t ∈ tickets, served < t
  known : ∀ t ∈ tickets, t ≤ issued

/-- No ticket waits before the first one is issued. -/
theorem Window.empty (served issued : Nat) : Window served issued [] := by
  constructor <;> simp

/-- The next ticket goes behind every ticket already waiting. -/
theorem Window.issue {served issued : Nat} {tickets : List Nat} (window : Window served issued tickets)
    (order : served ≤ issued) : Window served (issued + 1) (tickets ++ [issued + 1]) := by
  constructor
  · -- Every earlier ticket is at most the last one issued.
    rw [List.pairwise_append]
    refine ⟨window.sorted, List.pairwise_singleton _ _, ?_⟩
    intro t waiting u last
    have bound := window.known t waiting
    have same : u = issued + 1 := by simpa using last
    omega
  · intro t member
    rcases List.mem_append.mp member with waiting | last
    · exact window.pending t waiting
    · have same : t = issued + 1 := by simpa using last
      omega
  · intro t member
    rcases List.mem_append.mp member with waiting | last
    · exact Nat.le_succ_of_le (window.known t waiting)
    · have same : t = issued + 1 := by simpa using last
      omega

/-- Serving the first ticket leaves only later ones waiting. -/
theorem Window.serve {served issued t : Nat} {tickets : List Nat}
    (window : Window served issued (t :: tickets)) : Window t issued tickets := by
  -- The tickets behind the first are later than it.
  have sorted := List.pairwise_cons.mp window.sorted
  exact ⟨sorted.2, sorted.1, fun u later => window.known u (List.mem_cons_of_mem t later)⟩

/-- Withdrawing any of the tickets leaves the others in order. -/
theorem Window.withdraw {served issued : Nat} {tickets kept : List Nat}
    (window : Window served issued tickets) (fewer : kept.Sublist tickets) :
    Window served issued kept :=
  ⟨window.sorted.sublist fewer, fun t member => window.pending t (fewer.subset member),
    fun t member => window.known t (fewer.subset member)⟩

variable {α : Type*} {p : α → Prop}

/-- The first element of the list has the property, and no other element has it. -/
def HeadOnly (p : α → Prop) : List α → Prop
  -- Nothing is served in an empty list.
  | [] => True
  | a :: as => p a ∧ ∀ b ∈ as, ¬ p b

/-- An unserved element joins a nonempty list at its end. -/
theorem HeadOnly.append {a b : α} {as : List α} (served : HeadOnly p (a :: as)) (idle : ¬ p b) :
    HeadOnly p (a :: as ++ [b]) := by
  -- The head is unchanged, and the new element is behind it.
  refine ⟨served.1, fun c member => ?_⟩
  rcases List.mem_append.mp member with waiting | last
  · exact served.2 c waiting
  · have same : c = b := by simpa using last
    exact same ▸ idle

/-- Dropping elements while keeping the head leaves the head the only one served. -/
theorem HeadOnly.keep {a : α} {as kept : List α} (served : HeadOnly p (a :: as))
    (fewer : kept ⊆ as) : HeadOnly p (a :: kept) :=
  ⟨served.1, fun b member => served.2 b (fewer member)⟩

end Ticket
