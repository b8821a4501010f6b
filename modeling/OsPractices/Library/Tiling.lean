import Mathlib.Data.List.Basic

/-!
# Items laid end to end

`Tiled first length start items stop` says that the items fill the interval
from `start` to `stop` in order, each beginning where the one before ends.
-/

set_option autoImplicit false

namespace OsPractices.Library

variable {Item : Type} (first length : Item → Nat)

def Tiled : Nat → List Item → Nat → Prop
  | start, [], stop => start = stop
  | start, item :: rest, stop => first item = start ∧ Tiled (start + length item) rest stop

namespace Tiled

variable {first length}

theorem append_iff {start stop : Nat} {front back : List Item} :
    Tiled first length start (front ++ back) stop ↔
      ∃ middle, Tiled first length start front middle ∧ Tiled first length middle back stop := by
  induction front generalizing start with
  | nil => simp [Tiled]
  | cons item rest ih => simp only [List.cons_append, Tiled, ih, and_assoc, exists_and_left]

theorem start_le_stop {start stop : Nat} {items : List Item}
    (tiled : Tiled first length start items stop) : start ≤ stop := by
  induction items generalizing start with
  | nil => exact Nat.le_of_eq tiled
  | cons item rest ih =>
      have := ih tiled.2
      omega

theorem length_le {start stop : Nat} {items : List Item} (tiled : Tiled first length start items stop)
    (positive : ∀ item ∈ items, 1 ≤ length item) : start + items.length ≤ stop := by
  induction items generalizing start with
  | nil => exact Nat.le_of_eq tiled
  | cons item rest ih =>
      have later := ih tiled.2 fun other member => positive other (List.mem_cons_of_mem _ member)
      have size := positive item List.mem_cons_self
      rw [List.length_cons]
      omega

/-- A member starts where the items before it end, and the items after it
start where it ends. -/
theorem split {start stop : Nat} {front back : List Item} {item : Item}
    (tiled : Tiled first length start (front ++ item :: back) stop) :
    Tiled first length start front (first item) ∧
      Tiled first length (first item + length item) back stop := by
  obtain ⟨middle, left, starts, right⟩ := append_iff.mp tiled
  subst starts
  exact ⟨left, right⟩

theorem bounds {start stop : Nat} {items : List Item} {item : Item}
    (tiled : Tiled first length start items stop) (member : item ∈ items) :
    start ≤ first item ∧ first item + length item ≤ stop := by
  obtain ⟨front, back, rfl⟩ := List.append_of_mem member
  obtain ⟨left, right⟩ := tiled.split
  exact ⟨left.start_le_stop, right.start_le_stop⟩

/-- Items whose lengths are multiples of a number start at multiples of it. -/
theorem multiples {start stop factor : Nat} {items : List Item}
    (tiled : Tiled first length start items stop) (starts : factor ∣ start)
    (lengths : ∀ item ∈ items, factor ∣ length item) :
    (∀ item ∈ items, factor ∣ first item) ∧ factor ∣ stop := by
  induction items generalizing start with
  | nil => exact ⟨by simp, tiled ▸ starts⟩
  | cons item rest ih =>
      obtain ⟨place, tail⟩ := tiled
      obtain ⟨others, last⟩ := ih tail (Nat.dvd_add starts (lengths item List.mem_cons_self))
        fun other later => lengths other (List.mem_cons_of_mem _ later)
      refine ⟨fun other member => ?_, last⟩
      cases member with
      | head => exact place ▸ starts
      | tail _ later => exact others other later

/-- The item before a member ends where the member starts. -/
theorem getLast_end {start stop : Nat} {front : List Item} {last : Item}
    (tiled : Tiled first length start (front ++ [last]) stop) :
    first last + length last = stop := by
  obtain ⟨_, _, rfl, ends⟩ := append_iff.mp tiled
  exact ends

theorem apart {start stop : Nat} {items : List Item} {left right : Item}
    (tiled : Tiled first length start items stop) (leftMember : left ∈ items)
    (rightMember : right ∈ items) (different : left ≠ right) :
    first left + length left ≤ first right ∨ first right + length right ≤ first left := by
  obtain ⟨front, back, rfl⟩ := List.append_of_mem leftMember
  obtain ⟨before, behind⟩ := tiled.split
  rcases List.mem_append.mp rightMember with inFront | inRest
  · exact .inr (before.bounds inFront).2
  · cases inRest with
    | head => exact absurd rfl different
    | tail _ inBack => exact .inl (behind.bounds inBack).1

/-- Items of positive length are determined by where they start. -/
theorem eq_of_first_eq {start stop : Nat} {items : List Item} {left right : Item}
    (tiled : Tiled first length start items stop) (leftMember : left ∈ items)
    (rightMember : right ∈ items) (leftLong : 0 < length left) (rightLong : 0 < length right)
    (same : first left = first right) : left = right := by
  apply Classical.byContradiction
  intro different
  cases tiled.apart leftMember rightMember different with
  | inl before => omega
  | inr behind => omega

/-- The item named in a decomposition occurs nowhere else in it. -/
theorem first_ne {start stop : Nat} {front back : List Item} {item : Item}
    (tiled : Tiled first length start (front ++ item :: back) stop)
    (long : ∀ other ∈ front ++ item :: back, 0 < length other) :
    ∀ other ∈ front ++ back, first other ≠ first item := by
  obtain ⟨before, behind⟩ := tiled.split
  have itemLong := long item (by simp)
  intro other member same
  cases List.mem_append.mp member with
  | inl inFront =>
      have ends := (before.bounds inFront).2
      have otherLong := long other (List.mem_append_left _ inFront)
      omega
  | inr inBack =>
      have starts := (behind.bounds inBack).1
      omega

/-- Replace a stretch of items by others that fill the same interval. -/
theorem replace {start stop : Nat} {front middle back other : List Item}
    (tiled : Tiled first length start (front ++ middle ++ back) stop)
    (same : ∀ {left right}, Tiled first length left middle right →
      Tiled first length left other right) :
    Tiled first length start (front ++ other ++ back) stop := by
  obtain ⟨seam, outer, right⟩ := append_iff.mp tiled
  obtain ⟨left, before, inner⟩ := append_iff.mp outer
  exact append_iff.mpr ⟨seam, append_iff.mpr ⟨left, before, same inner⟩, right⟩

end Tiled

/-! ## Members around a place -/

section Around

variable {front back : List Item} {item other : Item}

theorem mem_beside (item : Item) (beside : other ∈ front ++ back) :
    other ∈ front ++ item :: back :=
  ((List.sublist_cons_self item back).append_left front).subset beside

theorem mem_behind (next : Item) (member : other ∈ front ++ item :: back) :
    other ∈ front ++ item :: next :: back :=
  (((List.sublist_cons_self next back).cons_cons item).append_left front).subset member

theorem beside_of_ne (member : other ∈ front ++ item :: back) (apart : other ≠ item) :
    other ∈ front ++ back := by
  cases List.mem_append.mp member with
  | inl inFront => exact List.mem_append_left back inFront
  | inr inBack =>
      exact List.mem_append_right front ((List.mem_cons.mp inBack).resolve_left apart)

end Around

end OsPractices.Library
