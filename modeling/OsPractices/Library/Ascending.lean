import Mathlib.Data.List.Sort

/-!
# Ascending lists

A search from a bound on, in the numbers below a limit or in an ascending list
of those that pass a test. In an ascending list, a search behind an item finds
the one that follows it.
-/

set_option autoImplicit false

namespace OsPractices.Library

theorem range'_eq_filter (bound limit : Nat) :
    List.range' bound (limit - bound) = (List.range limit).filter fun item => bound ≤ item := by
  induction limit with
  | zero => simp
  | succ limit ih =>
      rw [List.range_succ, List.filter_append, ← ih]
      cases Nat.lt_or_ge limit bound with
      | inl below => simp [Nat.sub_eq_zero_of_le below, Nat.sub_eq_zero_of_le (Nat.le_of_lt below),
          Nat.not_le_of_gt below]
      | inr above =>
          rw [Nat.succ_sub above, List.range'_1_concat, Nat.add_sub_cancel' above]
          simp [above]

/-- A search through the numbers from a bound on is one through those that pass. -/
theorem find?_range' (passes : Nat → Bool) (bound limit : Nat) :
    (List.range' bound (limit - bound)).find? passes =
      ((List.range limit).filter passes).find? fun item => bound ≤ item := by
  rw [range'_eq_filter, List.find?_filter, List.find?_filter]
  congr 1
  funext item
  simp [and_comm]

theorem pairwise_filter_range (passes : Nat → Bool) (limit : Nat) :
    ((List.range limit).filter passes).Pairwise (· < ·) :=
  List.pairwise_lt_range.filter passes

/-- A search behind an item finds the next one. -/
theorem find?_behind {items : List Nat} (ascending : items.Pairwise (· < ·)) {place item : Nat}
    (found : items[place]? = some item) :
    (items.find? fun other => item + 1 ≤ other) = items[place + 1]? := by
  induction items generalizing place with
  | nil => simp at found
  | cons first rest ih =>
      obtain ⟨above, ascending⟩ := List.pairwise_cons.mp ascending
      cases place with
      | zero =>
          cases found
          rw [List.find?_cons_of_neg (by simp), List.getElem?_cons_succ]
          cases rest with
          | nil => rfl
          | cons second rest =>
              have next : item + 1 ≤ second := above second List.mem_cons_self
              rw [List.find?_cons_of_pos (by simpa using next)]
              rfl
      | succ place =>
          have before := above item (List.mem_of_getElem? found)
          rw [List.find?_cons_of_neg (by simpa using Nat.lt_succ_of_lt before)]
          exact ih ascending found

end OsPractices.Library
