import OsPractices.Library.TextStream

/-!
# Formatted input

The directives `%d`, `%u` and `%s` of `fscanf`, as the C library reads them from
the rest of a file: a number is that of `strtol` or `strtoul`, cut to 32 bits. A
conversion that fails stores nothing; of what it has read, only the byte that
does not belong to a number stays in the file.
-/

set_option autoImplicit false

namespace OsPractices.Library

open InStream (isSpace isDigit digitsValue)

/-- A decimal number with an optional sign. -/
structure Numeral where
  negative : Bool
  magnitude : Nat
  deriving DecidableEq, Repr

namespace Numeral

/-- `strtol` -/
def long (numeral : Numeral) : Int :=
  max (-2 ^ 63) (min (2 ^ 63 - 1)
    (if numeral.negative then -numeral.magnitude else numeral.magnitude))

/-- `strtoul` -/
def unsignedLong (numeral : Numeral) : Nat :=
  if 2 ^ 64 ≤ numeral.magnitude then 2 ^ 64 - 1
  else if numeral.negative then (2 ^ 64 - numeral.magnitude) % 2 ^ 64
  else numeral.magnitude

/-- What is stored in an `int` by `%d`. -/
def stored (numeral : Numeral) : Int := Int.bmod numeral.long (2 ^ 32)

/-- What an `int` holds after `%u` has stored an `unsigned int` there. -/
def storedUnsigned (numeral : Numeral) : Int := Int.bmod numeral.unsignedLong (2 ^ 32)

end Numeral

def scanNumeral (rest : List UInt8) : Option Numeral × List UInt8 :=
  match rest.dropWhile isSpace with
  | [] => (none, [])
  | first :: later =>
      let body := if first = 45 ∨ first = 43 then later else first :: later
      let digits := body.takeWhile isDigit
      if digits = [] then (none, body)
      else (some ⟨first = 45, digitsValue digits⟩, body.dropWhile isDigit)

/-- `%d` into an `int` -/
def scanInt (rest : List UInt8) : Option Int × List UInt8 :=
  ((scanNumeral rest).1.map Numeral.stored, (scanNumeral rest).2)

/-- `%u` into an `int` -/
def scanUnsigned (rest : List UInt8) : Option Int × List UInt8 :=
  ((scanNumeral rest).1.map Numeral.storedUnsigned, (scanNumeral rest).2)

/-- `%s`: none at the end of the file. -/
def scanWord (rest : List UInt8) : Option (List UInt8 × List UInt8) :=
  match rest.dropWhile isSpace with
  | [] => none
  | first :: later =>
      some ((first :: later).takeWhile (!isSpace ·), (first :: later).dropWhile (!isSpace ·))

/-- A byte of the format itself, after a conversion. -/
def scanLiteral (literal : UInt8) : List UInt8 → List UInt8
  | [] => []
  | first :: rest => if first = literal then rest else first :: rest

/-! ## What is printed is read back -/

theorem stored_of_isInt {value : Int} (inRange : IsInt value) :
    (Numeral.mk (value < 0) value.natAbs).stored = value := by
  have low := inRange.1
  have high := inRange.2
  unfold intMin at low
  unfold intMax at high
  unfold Numeral.stored Numeral.long
  have same : (if decide (value < 0) = true then -(value.natAbs : Int) else value.natAbs) = value := by
    split
    case isTrue negative =>
      have := of_decide_eq_true negative
      omega
    case isFalse positive =>
      have : ¬ value < 0 := fun negative => positive (decide_eq_true negative)
      omega
  rw [same, min_eq_right (by omega), max_eq_right (by omega)]
  exact wrapInt_of_isInt inRange

theorem storedUnsigned_of_isInt {value : Int} (inRange : IsInt value) :
    (Numeral.mk (value < 0) value.natAbs).storedUnsigned = value := by
  obtain ⟨low, high⟩ := inRange
  unfold intMin at low
  unfold intMax at high
  unfold Numeral.storedUnsigned Numeral.unsignedLong
  dsimp only
  rw [if_neg (by omega)]
  cases Int.decLt value 0 with
  | isTrue negative =>
      simp only [negative, decide_true, if_true]
      rw [Int.bmod_def]
      split <;> omega
  | isFalse positive =>
      simp only [positive, decide_false, Bool.false_eq_true, if_false]
      rw [Int.bmod_def]
      split <;> omega

theorem scan_formatNat_before (value : Nat) {rest : List UInt8}
    (ends : ∀ byte ∈ rest.head?, EndsNumber byte) :
    (formatNat value ++ rest).takeWhile isDigit = formatNat value ∧
      (formatNat value ++ rest).dropWhile isDigit = rest := by
  cases rest with
  | nil =>
      rw [List.append_nil]
      exact ⟨List.takeWhile_eq_self_iff.mpr (formatNat_isDigit value),
        List.dropWhile_eq_nil_iff.mpr (formatNat_isDigit value)⟩
  | cons byte rest => exact scan_formatNat value (ends byte rfl) rest

/-- A printed `int` after any blanks, and before the end or a byte that is no digit. -/
theorem scanNumeral_formatInt (value : Int) {spaces : List UInt8}
    (blank : ∀ byte ∈ spaces, isSpace byte = true) {rest : List UInt8}
    (ends : ∀ byte ∈ rest.head?, EndsNumber byte) :
    scanNumeral (spaces ++ (formatInt value ++ rest)) =
      (some ⟨value < 0, value.natAbs⟩, rest) := by
  obtain ⟨taken, dropped⟩ := scan_formatNat_before value.natAbs ends
  have read := digitsValue_formatNat value.natAbs
  have filled := formatNat_ne_nil value.natAbs
  unfold scanNumeral
  rw [List.dropWhile_append_of_pos blank]
  unfold formatInt
  cases Int.decLt value 0 with
  | isTrue negative =>
      rw [if_pos negative, List.cons_append, List.dropWhile_cons_of_neg (by decide)]
      simp only [true_or, if_true, taken, dropped, filled, if_false, read, negative, decide_true]
  | isFalse positive =>
      obtain ⟨first, digits, same, digit⟩ := formatNat_head value.natAbs
      obtain ⟨notMinus, notPlus, notSpace⟩ := digit_not_sign digit
      rw [if_neg positive]
      rw [same] at taken dropped read ⊢
      rw [List.cons_append] at taken dropped ⊢
      rw [List.dropWhile_cons_of_neg (by simp [notSpace])]
      simp only [notMinus, notPlus, or_self, if_false, taken, dropped, List.cons_ne_nil, read,
        positive]

theorem endsNumber_head {byte : UInt8} (ends : EndsNumber byte) (rest : List UInt8) :
    ∀ first ∈ (byte :: rest).head?, EndsNumber first := by
  intro first member
  rw [← Option.mem_some.mp member]
  exact ends

theorem scanInt_formatInt {value : Int} (inRange : IsInt value) {spaces : List UInt8}
    (blank : ∀ byte ∈ spaces, isSpace byte = true) {byte : UInt8} (ends : EndsNumber byte)
    (rest : List UInt8) :
    scanInt (spaces ++ (formatInt value ++ byte :: rest)) = (some value, byte :: rest) := by
  unfold scanInt
  rw [scanNumeral_formatInt value blank (endsNumber_head ends rest)]
  exact congrArg (fun read => (some read, byte :: rest)) (stored_of_isInt inRange)

theorem scanUnsigned_formatInt {value : Int} (inRange : IsInt value) {spaces : List UInt8}
    (blank : ∀ byte ∈ spaces, isSpace byte = true) {byte : UInt8} (ends : EndsNumber byte)
    (rest : List UInt8) :
    scanUnsigned (spaces ++ (formatInt value ++ byte :: rest)) = (some value, byte :: rest) := by
  unfold scanUnsigned
  rw [scanNumeral_formatInt value blank (endsNumber_head ends rest)]
  exact congrArg (fun read => (some read, byte :: rest)) (storedUnsigned_of_isInt inRange)

/-- No number stands where a word does. -/
theorem scanUnsigned_word {spaces : List UInt8} (blank : ∀ byte ∈ spaces, isSpace byte = true)
    {letter : UInt8} (notSpace : isSpace letter = false) (notSign : letter ≠ 45 ∧ letter ≠ 43)
    (notDigit : EndsNumber letter) (rest : List UInt8) :
    scanUnsigned (spaces ++ letter :: rest) = (none, letter :: rest) := by
  unfold EndsNumber at notDigit
  unfold scanUnsigned scanNumeral
  rw [List.dropWhile_append_of_pos blank, List.dropWhile_cons_of_neg (by simp [notSpace])]
  simp only [notSign.1, notSign.2, or_self, if_false]
  rw [List.takeWhile_cons_of_neg (by simp [notDigit]), if_pos rfl]
  rfl

end OsPractices.Library
