import OsPractices.Library.Overlay

/-!
# Strings in a buffer

The string functions of C over a buffer of fixed size. Each is `none` if it reads
or writes outside of the buffer.
-/

set_option autoImplicit false

namespace OsPractices.Library.CString

/-- The string that starts at an offset: the bytes up to a NUL. -/
def strAt (buffer : List UInt8) (offset : Nat) : Option (List UInt8) :=
  if 0 ∈ buffer.drop offset then some ((buffer.drop offset).takeWhile (· ≠ 0)) else none

def load (buffer : List UInt8) (offset length : Nat) : Option (List UInt8) :=
  if offset + length ≤ buffer.length then some ((buffer.drop offset).take length) else none

/-- Store some bytes: `memcpy` from another block. -/
def memcpy (buffer : List UInt8) (offset : Nat) (bytes : List UInt8) : Option (List UInt8) :=
  if offset + bytes.length ≤ buffer.length then some (overlay buffer offset bytes) else none

/-- `memmove` within the buffer. -/
def memmove (buffer : List UInt8) (target source length : Nat) : Option (List UInt8) :=
  (load buffer source length).bind (memcpy buffer target)

/-- `strncpy` to the start of the buffer: no NUL follows a text that is not
shorter than `size`. -/
def strncpy (buffer text : List UInt8) (size : Nat) : Option (List UInt8) :=
  memcpy buffer 0 (text.take size ++ List.replicate (size - text.length) 0)

variable {buffer text rest bytes : List UInt8} {offset : Nat}

theorem strAt_of_drop (plain : 0 ∉ text) (here : buffer.drop offset = text ++ 0 :: rest) :
    strAt buffer offset = some text := by
  have nonzero : ∀ byte ∈ text, decide (byte ≠ 0) = true := by
    intro byte inside
    exact decide_eq_true fun zero => plain (zero ▸ inside)
  rw [strAt, here, if_pos (by simp), List.takeWhile_append_of_pos nonzero]
  simp

theorem strAt_unterminated (open' : 0 ∉ buffer) : strAt buffer offset = none :=
  if_neg fun inside => open' (List.mem_of_mem_drop inside)

theorem load_of_drop (here : buffer.drop offset = bytes ++ rest)
    (inside : offset ≤ buffer.length) : load buffer offset bytes.length = some bytes := by
  have size := congrArg List.length here
  rw [List.length_drop, List.length_append] at size
  rw [load, if_pos (by omega), here, List.take_left' rfl]

theorem memcpy_eq_some {written : List UInt8} : memcpy buffer offset bytes = some written ↔
    offset + bytes.length ≤ buffer.length ∧ overlay buffer offset bytes = written := by
  simp [memcpy]

/-- A block of zeros after `strncpy` over all of it. -/
theorem strncpy_zeros (text : List UInt8) (size : Nat) :
    strncpy (List.replicate size 0) text size =
      some (text.take size ++ List.replicate (size - text.length) 0) := by
  refine memcpy_eq_some.mpr ⟨?_, ?_⟩
  · simp only [List.length_append, List.length_take, List.length_replicate]
    omega
  · rw [overlay_of_reaches, List.take_zero, List.nil_append]
    simp only [List.length_append, List.length_take, List.length_replicate]
    omega

/-- `memmove` of the end of a string, with its NUL. -/
theorem memmove_end {target source : Nat} (inside : source ≤ text.length) :
    memmove (text ++ 0 :: rest) target source ((text.drop source).length + 1) =
      memcpy (text ++ 0 :: rest) target (text.drop source ++ [0]) := by
  have here : (text ++ 0 :: rest).drop source = (text.drop source ++ [0]) ++ rest := by
    rw [List.drop_append_of_le_length inside, List.append_assoc]
    rfl
  have given := load_of_drop here (by rw [List.length_append]; omega)
  rw [List.length_append, List.length_singleton] at given
  rw [memmove, given, Option.bind_some]

/-- The end of a string is moved, and other bytes are put in the place of those
between. -/
theorem exchange {start source : Nat} {bytes : List UInt8} (ordered : start ≤ source)
    (inside : source ≤ text.length)
    (fits : start + bytes.length + (text.length - source) < (text ++ 0 :: rest).length) :
    ∃ behind, (memmove (text ++ 0 :: rest) (start + bytes.length) source
        ((text.drop source).length + 1)).bind (memcpy · start bytes) =
      some (text.take start ++ bytes ++ text.drop source ++ 0 :: behind) := by
  have size : (text.drop source ++ [0]).length = text.length - source + 1 := by simp
  have reach : start + bytes.length + (text.drop source ++ [0]).length ≤
      (text ++ 0 :: rest).length := by omega
  refine ⟨(text ++ 0 :: rest).drop (start + bytes.length + (text.drop source ++ [0]).length), ?_⟩
  rw [memmove_end inside, memcpy_eq_some.mpr ⟨reach, rfl⟩, Option.bind_some]
  refine memcpy_eq_some.mpr ⟨by rw [length_overlay reach]; omega, ?_⟩
  rw [overlay, overlay_drop (by omega), overlay_take (Nat.le_add_right _ _) (by omega),
    List.take_append_of_le_length (Nat.le_trans ordered inside)]
  simp only [List.append_assoc, List.singleton_append]

theorem exchange_beyond {start source : Nat} {bytes : List UInt8}
    (inside : source ≤ text.length)
    (beyond : (text ++ 0 :: rest).length ≤ start + bytes.length + (text.length - source)) :
    (memmove (text ++ 0 :: rest) (start + bytes.length) source
      ((text.drop source).length + 1)).bind (memcpy · start bytes) = none := by
  have size : (text.drop source ++ [0]).length = text.length - source + 1 := by simp
  have out : ¬ start + bytes.length + (text.drop source ++ [0]).length ≤
      (text ++ 0 :: rest).length := by omega
  rw [memmove_end inside, memcpy, if_neg out, Option.bind_none]

end OsPractices.Library.CString
