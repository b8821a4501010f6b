import OsPractices.Library.Scan

/-!
# Texts in Perl

A script's input as its lines, the words that `split` makes of a line, and what
a text is as a truth value and as a number. A value that is undefined reads as
the empty text.
-/

set_option autoImplicit false

namespace OsPractices.Library

open InStream (isSpace isDigit)

/-! ## Lines -/

/-- What `<STDIN>` reads, line by line, and `chomp` leaves. -/
def textLines : List UInt8 → List (List UInt8)
  | [] => []
  | byte :: rest =>
      if byte = 10 then [] :: textLines rest
      else
        match textLines rest with
        | [] => [[byte]]
        | line :: lines => (byte :: line) :: lines

def joinLines (lines : List (List UInt8)) : List UInt8 := lines.flatMap (· ++ [10])

/-- A text without a line break in it. -/
def IsLine (line : List UInt8) : Prop := ∀ byte ∈ line, byte ≠ 10

@[simp] theorem isLine_nil : IsLine [] := fun _ member => absurd member List.not_mem_nil

@[simp] theorem isLine_cons {byte : UInt8} {line : List UInt8} :
    IsLine (byte :: line) ↔ byte ≠ 10 ∧ IsLine line := List.forall_mem_cons

@[simp] theorem isLine_append {first second : List UInt8} :
    IsLine (first ++ second) ↔ IsLine first ∧ IsLine second := List.forall_mem_append

theorem textLines_line {line : List UInt8} (isLine : IsLine line) (rest : List UInt8) :
    textLines (line ++ 10 :: rest) = line :: textLines rest := by
  induction line with
  | nil => rfl
  | cons byte line ih =>
      have first := isLine byte List.mem_cons_self
      have later : IsLine line := fun other member => isLine other (List.mem_cons_of_mem byte member)
      rw [List.cons_append, textLines, if_neg first, ih later]

/-- The lines that are printed are the lines that are read. -/
theorem textLines_joinLines {lines : List (List UInt8)} (isLine : ∀ line ∈ lines, IsLine line) :
    textLines (joinLines lines) = lines := by
  induction lines with
  | nil => rfl
  | cons line lines ih =>
      have later := fun other member => isLine other (List.mem_cons_of_mem line member)
      unfold joinLines at ih ⊢
      rw [List.flatMap_cons, List.append_assoc, List.singleton_append,
        textLines_line (isLine line List.mem_cons_self), ih later]

theorem isLine_textLines (text : List UInt8) : ∀ line ∈ textLines text, IsLine line := by
  induction text with
  | nil => exact fun line member => absurd member List.not_mem_nil
  | cons byte rest ih =>
      intro line member
      rw [textLines] at member
      split at member
      case isTrue =>
        cases member with
        | head => exact fun other inside => absurd inside List.not_mem_nil
        | tail _ later => exact ih line later
      case isFalse notBreak =>
        split at member
        case h_1 =>
          rw [List.mem_singleton.mp member]
          exact fun other inside => List.mem_singleton.mp inside ▸ notBreak
        case h_2 first lines found =>
          rw [found] at ih
          cases member with
          | head =>
              intro other inside
              cases inside with
              | head => exact notBreak
              | tail _ within => exact ih first List.mem_cons_self other within
          | tail _ later => exact ih line (List.mem_cons_of_mem first later)

/-! ## Words -/

/-- The first word of what is left of a line, and what follows it. -/
def firstWord (rest : List UInt8) : List UInt8 × List UInt8 := (scanWord rest).getD ([], [])

/-- A text without a blank in it. -/
def IsWord (word : List UInt8) : Prop := ∀ byte ∈ word, isSpace byte = false

theorem isWord_firstWord (rest : List UInt8) : IsWord (firstWord rest).1 := by
  unfold firstWord scanWord
  intro byte member
  split at member
  case h_1 => exact absurd member List.not_mem_nil
  case h_2 =>
    have read := List.mem_takeWhile_imp member
    simpa using read

theorem IsWord.isLine {word : List UInt8} (isWord : IsWord word) : IsLine word := by
  intro byte member same
  have notSpace := isWord byte member
  rw [same] at notSpace
  exact absurd notSpace (by decide)

/-- A word after any blanks, and before the end or a blank. -/
theorem firstWord_word {spaces word rest : List UInt8}
    (blank : ∀ byte ∈ spaces, isSpace byte = true) (isWord : IsWord word) (filled : word ≠ [])
    (ends : ∀ byte ∈ rest.head?, isSpace byte = true) :
    firstWord (spaces ++ (word ++ rest)) = (word, rest) := by
  have taken : (word ++ rest).takeWhile (!isSpace ·) = word ∧
      (word ++ rest).dropWhile (!isSpace ·) = rest := by
    have inside : ∀ byte ∈ word, (!isSpace byte) = true := fun byte member => by
      rw [isWord byte member]
      rfl
    rw [List.takeWhile_append_of_pos inside, List.dropWhile_append_of_pos inside]
    cases rest with
    | nil => exact ⟨List.append_nil _, rfl⟩
    | cons byte rest =>
        have space := ends byte rfl
        rw [List.takeWhile_cons_of_neg (by simp [space]), List.dropWhile_cons_of_neg (by simp [space])]
        exact ⟨List.append_nil _, rfl⟩
  cases word with
  | nil => exact absurd rfl filled
  | cons first word =>
      unfold firstWord scanWord
      rw [List.dropWhile_append_of_pos blank, List.cons_append, List.dropWhile_cons_of_neg (by
        simp [isWord first List.mem_cons_self])]
      dsimp only
      rw [List.cons_append] at taken
      rw [taken.1, taken.2]
      rfl

/-- A word at the end of a line may be missing. -/
theorem firstWord_last {spaces word : List UInt8} (blank : ∀ byte ∈ spaces, isSpace byte = true)
    (isWord : IsWord word) : firstWord (spaces ++ word) = (word, []) := by
  cases word with
  | nil =>
      unfold firstWord scanWord
      rw [List.append_nil, List.dropWhile_eq_nil_iff.mpr blank]
      rfl
  | cons first word =>
      have read := @firstWord_word spaces (first :: word) [] blank isWord (List.cons_ne_nil _ _)
        (by simp)
      rwa [List.append_nil] at read

theorem isWord_formatInt (value : Int) : IsWord (formatInt value) := by
  have digits : IsWord (formatNat value.natAbs) := fun byte member =>
    (digit_not_sign (formatNat_isDigit value.natAbs byte member)).2.2
  unfold formatInt
  intro byte member
  split at member
  case isFalse => exact digits byte member
  case isTrue =>
    cases member with
    | head => rfl
    | tail _ later => exact digits byte later

theorem formatInt_ne_nil (value : Int) : formatInt value ≠ [] := by
  unfold formatInt
  split
  case isTrue => exact List.cons_ne_nil _ _
  case isFalse => exact formatNat_ne_nil _

theorem formatInt_injective : Function.Injective formatInt := by
  intro first second same
  have read : ∀ value, scanNumeral (formatInt value) =
      (some ⟨value < 0, value.natAbs⟩, []) := by
    intro value
    have found := scanNumeral_formatInt value (by simp : ∀ byte ∈ ([] : List UInt8), isSpace byte = true)
      (by simp : ∀ byte ∈ ([] : List UInt8).head?, EndsNumber byte)
    rwa [List.nil_append, List.append_nil] at found
  have numerals := (read first).symm.trans ((congrArg scanNumeral same).trans (read second))
  simp only [Prod.mk.injEq, Option.some.injEq, Numeral.mk.injEq, decide_eq_decide, and_true]
    at numerals
  obtain ⟨sign, magnitude⟩ := numerals
  omega

/-! ## Values -/

/-- An undefined value, the empty text and `0` are false. -/
def truth (text : List UInt8) : Bool := text ≠ [] && text ≠ [48]

/-- `!` of a text. -/
def negation (text : List UInt8) : List UInt8 := if truth text then [] else [49]

/-- The number that a text is read as, where that is an integer of 64 bits. -/
def numericValue (text : List UInt8) : Option Int :=
  let integer : Int → Option Int := fun value =>
    if -2 ^ 63 ≤ value ∧ value < 2 ^ 64 then some value else none
  match scanNumeral text with
  -- `.5`, `Inf` and `NaN` are numbers as well
  | (none, rest) => if rest.headD 0 ∈ [46, 73, 105, 78, 110] then none else some 0
  | (some numeral, rest) =>
      if rest.headD 0 ∈ [46, 69, 101] then none
      else integer (if numeral.negative then -numeral.magnitude else numeral.magnitude)

theorem numericValue_low {text : List UInt8} {value : Int} (read : numericValue text = some value) :
    -2 ^ 63 ≤ value := by
  unfold numericValue at read
  split at read
  case h_1 =>
    split at read
    case isTrue => cases read
    case isFalse =>
      cases read
      decide
  case h_2 =>
    split at read
    case isTrue => cases read
    case isFalse =>
      dsimp only at read
      obtain ⟨inRange, same⟩ := Option.ite_none_right_eq_some.mp read
      exact Option.some.inj same ▸ inRange.1

theorem numericValue_formatInt {value : Int} (low : -2 ^ 63 ≤ value) (high : value < 2 ^ 64) :
    numericValue (formatInt value) = some value := by
  have read := scanNumeral_formatInt value (by simp : ∀ byte ∈ ([] : List UInt8), isSpace byte = true)
    (by simp : ∀ byte ∈ ([] : List UInt8).head?, EndsNumber byte)
  rw [List.nil_append, List.append_nil] at read
  have signed : (if decide (value < 0) = true then -(value.natAbs : Int) else value.natAbs) =
      value := by
    split
    case isTrue negative =>
      have := of_decide_eq_true negative
      omega
    case isFalse positive =>
      have : ¬ value < 0 := fun negative => positive (decide_eq_true negative)
      omega
  unfold numericValue
  rw [read]
  dsimp only
  rw [if_neg (by decide), signed, if_pos ⟨low, high⟩]

end OsPractices.Library
