import Mathlib.Data.List.Basic

/-!
# Overlays

An array over which a piece of data is laid at an offset.
-/

set_option autoImplicit false

namespace OsPractices.Library

variable {Cell : Type}

/-- The array with `data` laid over it from `offset` on. -/
def overlay (array : List Cell) (offset : Nat) (data : List Cell) : List Cell :=
  array.take offset ++ data ++ array.drop (offset + data.length)

/-- Data that reaches the end leaves nothing behind it. -/
theorem overlay_of_reaches {array data : List Cell} {offset : Nat}
    (reaches : array.length ≤ offset + data.length) :
    overlay array offset data = array.take offset ++ data := by
  rw [overlay, List.drop_eq_nil_of_le reaches, List.append_nil]

theorem overlay_take {array data : List Cell} {offset before : Nat} (early : before ≤ offset)
    (inside : offset ≤ array.length) :
    (overlay array offset data).take before = array.take before := by
  have size : (array.take offset).length = offset := List.length_take_of_le inside
  rw [overlay, List.append_assoc, List.take_append_of_le_length (by omega),
    List.take_take, Nat.min_eq_left early]

theorem overlay_drop {array data : List Cell} {offset : Nat} (inside : offset ≤ array.length) :
    (overlay array offset data).drop offset = data ++ array.drop (offset + data.length) := by
  rw [overlay, List.append_assoc]
  exact List.drop_left' (List.length_take_of_le inside)

theorem length_overlay {array data : List Cell} {offset : Nat}
    (inside : offset + data.length ≤ array.length) :
    (overlay array offset data).length = array.length := by
  simp only [overlay, List.length_append, List.length_take, List.length_drop]
  omega

end OsPractices.Library
