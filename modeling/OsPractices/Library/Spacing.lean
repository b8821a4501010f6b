import Mathlib.Algebra.Group.Int.Defs
import Mathlib.Algebra.Order.Ring.Int
import Mathlib.Data.List.Basic

/-!
# Events that keep a distance

Instants each of which comes a given time after those before it. In a window of time
there are no more of them than fit in.
-/

set_option autoImplicit false

namespace OsPractices.Library

/-- Each instant is at least `gap` behind those before it. -/
def Spaced (gap : Int) (instants : List Int) : Prop :=
  instants.Pairwise fun earlier later => earlier + gap ≤ later

theorem Spaced.sublist {gap : Int} {instants part : List Int} (spaced : Spaced gap instants)
    (sublist : part.Sublist instants) : Spaced gap part := List.Pairwise.sublist sublist spaced

/-- From the first instant to the last it takes as many gaps as there are between. -/
theorem Spaced.first_le {gap first low high : Int} {rest : List Int}
    (spaced : Spaced gap (first :: rest)) (within : ∀ instant ∈ first :: rest,
      low ≤ instant ∧ instant ≤ high) : first + rest.length * gap ≤ high := by
  induction rest generalizing first with
  | nil =>
      have last := (within first List.mem_cons_self).2
      simpa using last
  | cons second rest ih =>
      obtain ⟨after, later⟩ := List.pairwise_cons.mp spaced
      have step := after second List.mem_cons_self
      have total := ih later fun instant member => within instant (List.mem_cons_of_mem _ member)
      rw [List.length_cons]
      push_cast
      rw [add_mul]
      omega

/-- How many instants there are in a window. -/
theorem Spaced.length_le {gap low high : Int} {instants : List Int} (spaced : Spaced gap instants)
    (within : ∀ instant ∈ instants, low ≤ instant ∧ instant ≤ high) (some : instants ≠ []) :
    (instants.length - 1) * gap ≤ high - low := by
  cases instants with
  | nil => exact absurd rfl some
  | cons first rest =>
      have total := spaced.first_le within
      have start := (within first List.mem_cons_self).1
      rw [List.length_cons]
      push_cast
      rw [add_sub_cancel_right]
      omega

end OsPractices.Library
