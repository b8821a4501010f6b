import Mathlib.Data.List.TakeWhile
import Mathlib.Data.Nat.Digits.Defs

/-!
# Text streams

Decimal output of integers and formatted input from a string, byte by byte, as
the standard streams of C++ define them: `<<` and `>>` on a 32-bit `int`,
`ignore` up to a delimiter and `getline`.
-/

set_option autoImplicit false

namespace OsPractices.Library

def intMin : Int := -2 ^ 31
def intMax : Int := 2 ^ 31 - 1

/-- The values of a 32-bit `int`. -/
def IsInt (value : Int) : Prop := intMin ≤ value ∧ value ≤ intMax

instance (value : Int) : Decidable (IsInt value) := inferInstanceAs (Decidable (_ ∧ _))

/-- What an `int` keeps of a sum. The language leaves overflow open; the machine's
registers wrap. -/
def wrapInt (value : Int) : Int := Int.bmod value (2 ^ 32)

theorem wrapInt_of_isInt {value : Int} (inRange : IsInt value) : wrapInt value = value := by
  obtain ⟨low, high⟩ := inRange
  unfold intMin at low
  unfold intMax at high
  apply Int.bmod_eq_of_le <;> omega

theorem wrapInt_above {value : Int} (above : intMax < value) (below : value < 2 ^ 32) :
    wrapInt value = value - 2 ^ 32 := by
  unfold intMax at above
  rw [wrapInt, Int.bmod_def]
  split <;> omega

/-! ## Output -/

def digitByte (digit : Nat) : UInt8 := UInt8.ofNat (48 + digit)

def formatNat (value : Nat) : List UInt8 :=
  if value = 0 then [48] else ((Nat.digits 10 value).reverse).map digitByte

def formatInt (value : Int) : List UInt8 :=
  if value < 0 then 45 :: formatNat value.natAbs else formatNat value.natAbs

/-! ## Input -/

/-- The unread bytes of an input stream and its `eofbit` and `failbit`. -/
structure InStream where
  rest : List UInt8
  eof : Bool
  fail : Bool
  deriving DecidableEq, Repr

namespace InStream

def ofBytes (bytes : List UInt8) : InStream := ⟨bytes, false, false⟩

def isSpace (byte : UInt8) : Bool := byte = 32 || (9 ≤ byte && byte ≤ 13)

def isDigit (byte : UInt8) : Bool := 48 ≤ byte && byte ≤ 57

def digitsValue (digits : List UInt8) : Nat :=
  digits.foldl (fun value byte => 10 * value + (byte.toNat - 48)) 0

/-- `>>` on an `int`: the value stored, if one is stored. -/
def extractInt (stream : InStream) : Option Int × InStream :=
  if stream.eof || stream.fail then (none, { stream with fail := true })
  else
    match stream.rest.dropWhile isSpace with
    | [] => (none, ⟨[], true, true⟩)
    | sign :: rest =>
        let bytes := if sign = 45 ∨ sign = 43 then rest else sign :: rest
        let digits := bytes.takeWhile isDigit
        let left := bytes.dropWhile isDigit
        let magnitude : Int := digitsValue digits
        let value := if sign = 45 then -magnitude else magnitude
        if digits = [] then (some 0, ⟨left, left = [], true⟩)
        else if value < intMin then (some intMin, ⟨left, left = [], true⟩)
        else if intMax < value then (some intMax, ⟨left, left = [], true⟩)
        else (some value, ⟨left, left = [], false⟩)

/-- Skip at most `count` bytes, up to and including the delimiter. -/
def ignoreLoop (delimiter : UInt8) : Nat → List UInt8 → List UInt8 × Bool
  | 0, rest => (rest, false)
  | _ + 1, [] => ([], true)
  | count + 1, byte :: rest =>
      if byte = delimiter then (rest, false) else ignoreLoop delimiter count rest

def ignore (stream : InStream) (count : Nat) (delimiter : UInt8) : InStream :=
  if stream.eof || stream.fail then { stream with fail := true }
  else
    let (rest, ended) := ignoreLoop delimiter count stream.rest
    ⟨rest, ended, false⟩

/-- `std::getline`: the line stored, if one is stored. -/
def getline (stream : InStream) : Option (List UInt8) × InStream :=
  if stream.eof || stream.fail then (none, { stream with fail := true })
  else
    let line := stream.rest.takeWhile (· ≠ 10)
    match stream.rest.dropWhile (· ≠ 10) with
    | [] => (some line, ⟨[], true, line = []⟩)
    | _ :: rest => (some line, ⟨rest, false, false⟩)

end InStream

/-! ## What is written is read back -/

theorem digitByte_toNat {digit : Nat} (small : digit < 10) :
    (digitByte digit).toNat = 48 + digit := by
  unfold digitByte
  rw [UInt8.toNat_ofNat']
  omega

theorem isDigit_digitByte {digit : Nat} (small : digit < 10) :
    InStream.isDigit (digitByte digit) = true := by
  have value := digitByte_toNat small
  simp only [InStream.isDigit, Bool.and_eq_true, decide_eq_true_eq, UInt8.le_iff_toNat_le, value]
  constructor
  · exact Nat.le_add_right 48 digit
  · change 48 + digit ≤ 57
    omega

theorem formatNat_isDigit (value : Nat) :
    ∀ byte ∈ formatNat value, InStream.isDigit byte = true := by
  intro byte member
  unfold formatNat at member
  split at member
  · rw [List.mem_singleton.mp member]
    rfl
  · obtain ⟨digit, inDigits, rfl⟩ := List.mem_map.mp member
    exact isDigit_digitByte (Nat.digits_lt_base (by decide) (List.mem_reverse.mp inDigits))

theorem formatNat_ne_nil (value : Nat) : formatNat value ≠ [] := by
  unfold formatNat
  split
  case isTrue zero => simp
  case isFalse positive => simp [Nat.digits_eq_nil_iff_eq_zero, positive]

theorem digitsValue_formatNat (value : Nat) :
    InStream.digitsValue (formatNat value) = value := by
  have folded : ∀ digits : List Nat, (∀ digit ∈ digits, digit < 10) →
      InStream.digitsValue (digits.reverse.map digitByte) = Nat.ofDigits 10 digits := by
    intro digits small
    unfold InStream.digitsValue
    rw [List.foldl_map, List.foldl_reverse, Nat.ofDigits_eq_foldr]
    induction digits with
    | nil => rfl
    | cons digit rest ih =>
        rw [List.foldr_cons, List.foldr_cons, ih fun other member => small other (.tail _ member),
          digitByte_toNat (small digit (.head _))]
        simp only [Nat.cast_id]
        omega
  unfold formatNat
  split
  case isTrue zero => rw [zero]; rfl
  case isFalse positive =>
    rw [folded _ fun digit member => Nat.digits_lt_base (by decide) member, Nat.ofDigits_digits]

theorem formatInt_ne_zero (value : Int) : ∀ byte ∈ formatInt value, byte ≠ 0 := by
  have digit : ∀ byte ∈ formatNat value.natAbs, byte ≠ 0 := by
    rintro byte member rfl
    have := formatNat_isDigit value.natAbs 0 member
    revert this
    decide
  intro byte member
  unfold formatInt at member
  split at member
  · cases member with
    | head => decide
    | tail _ later => exact digit byte later
  · exact digit byte member

/-- A byte that ends a number. -/
def EndsNumber (byte : UInt8) : Prop := InStream.isDigit byte = false

theorem scan_formatNat (value : Nat) {byte : UInt8} (ends : EndsNumber byte) (rest : List UInt8) :
    (formatNat value ++ byte :: rest).takeWhile InStream.isDigit = formatNat value ∧
      (formatNat value ++ byte :: rest).dropWhile InStream.isDigit = byte :: rest := by
  have all := formatNat_isDigit value
  unfold EndsNumber at ends
  rw [List.takeWhile_append_of_pos all, List.dropWhile_append_of_pos all]
  simp [ends]

theorem formatNat_head (value : Nat) :
    ∃ first rest, formatNat value = first :: rest ∧ InStream.isDigit first = true := by
  cases same : formatNat value with
  | nil => exact absurd same (formatNat_ne_nil value)
  | cons first rest => exact ⟨first, rest, rfl, formatNat_isDigit value first (by simp [same])⟩

theorem digit_not_sign {byte : UInt8} (digit : InStream.isDigit byte = true) :
    byte ≠ 45 ∧ byte ≠ 43 ∧ InStream.isSpace byte = false := by
  refine ⟨?_, ?_, ?_⟩
  · rintro rfl
    revert digit
    decide
  · rintro rfl
    revert digit
    decide
  · simp only [InStream.isDigit, Bool.and_eq_true, decide_eq_true_eq, UInt8.le_iff_toNat_le] at digit
    simp only [InStream.isSpace, Bool.or_eq_false_iff, decide_eq_false_iff_not, Bool.and_eq_false_iff,
      UInt8.le_iff_toNat_le, ← UInt8.toNat_inj]
    have low : (48 : UInt8).toNat = 48 := rfl
    have space : (32 : UInt8).toNat = 32 := rfl
    have tab : (13 : UInt8).toNat = 13 := rfl
    omega

/-- A formatted `int` after any spaces, and before a byte that ends a number,
is extracted as it was. -/
theorem extractInt_formatInt {value : Int} (inRange : IsInt value) {spaces : List UInt8}
    (blank : ∀ byte ∈ spaces, InStream.isSpace byte = true) {byte : UInt8}
    (ends : EndsNumber byte) (rest : List UInt8) :
    (InStream.ofBytes (spaces ++ (formatInt value ++ byte :: rest))).extractInt =
      (some value, InStream.ofBytes (byte :: rest)) := by
  obtain ⟨taken, dropped⟩ := scan_formatNat value.natAbs ends rest
  have read := digitsValue_formatNat value.natAbs
  have filled := formatNat_ne_nil value.natAbs
  obtain ⟨low, high⟩ := inRange
  unfold InStream.extractInt InStream.ofBytes
  simp only [Bool.or_self, Bool.false_eq_true, if_false]
  rw [List.dropWhile_append_of_pos blank]
  unfold formatInt
  cases Int.decLt value 0 with
  | isTrue negative =>
      rw [if_pos negative, List.cons_append, List.dropWhile_cons_of_neg (by decide)]
      simp only [true_or, if_true, taken, dropped, filled, if_false, read]
      rw [if_neg (by omega), if_neg (by unfold intMax; omega)]
      simp only [List.cons_ne_nil, decide_false, Prod.mk.injEq, Option.some.injEq, and_true]
      omega
  | isFalse positive =>
      obtain ⟨first, digits, same, digit⟩ := formatNat_head value.natAbs
      obtain ⟨notMinus, notPlus, notSpace⟩ := digit_not_sign digit
      rw [if_neg positive]
      rw [same] at taken dropped read ⊢
      rw [List.cons_append] at taken dropped ⊢
      rw [List.dropWhile_cons_of_neg (by simp [notSpace])]
      simp only [notMinus, notPlus, or_self, if_false, taken, dropped, List.cons_ne_nil, read]
      rw [if_neg (by unfold intMin; omega), if_neg (by omega)]
      simp only [decide_false, Prod.mk.injEq, Option.some.injEq, and_true]
      omega

theorem ignore_delimiter {count : Nat} (positive : 0 < count) (delimiter : UInt8)
    (rest : List UInt8) :
    (InStream.ofBytes (delimiter :: rest)).ignore count delimiter = InStream.ofBytes rest := by
  cases count with
  | zero => cases positive
  | succ count => simp [InStream.ignore, InStream.ofBytes, InStream.ignoreLoop]

/-- The next line of a stream that has not ended, also when it is empty. -/
theorem getline_line (bytes : List UInt8) :
    (InStream.ofBytes bytes).getline.1 = some (bytes.takeWhile (· ≠ 10)) := by
  simp only [InStream.getline, InStream.ofBytes, Bool.or_self, Bool.false_eq_true, if_false]
  split
  case h_1 => rfl
  case h_2 => rfl

end OsPractices.Library
