import OsPractices.Library.TextStream

/-!
# Chat messages

`message.h`, and how a message travels: `send` copies its serialized form into
a frame of `MAX_BUFF_SIZE` bytes, and the reader deserializes the frame it
received. An `int` is an integer; a `std::string` is a list of bytes.
-/

set_option autoImplicit false

namespace OsPractices.Chat

open Library

def maxBuffSize : Nat := 1024
def defaultTtl : Int := 10

structure Addr where
  ip : Int
  port : Int
  deriving DecidableEq, Repr

structure Message where
  addr : Addr
  ttl : Int
  id : Int
  content : List UInt8
  deriving DecidableEq, Repr

namespace Message

def isLower (ch : UInt8) : Bool := 97 ≤ ch && ch ≤ 122
def isUpper (ch : UInt8) : Bool := 65 ≤ ch && ch ≤ 90

/-- One turn of the loops of `encode` and `decode`. -/
def turnLetter (turn : Int → Int) (ch : UInt8) : UInt8 :=
  if isLower ch then UInt8.ofInt (97 + turn (ch.toNat - 97))
  else if isUpper ch then UInt8.ofInt (65 + turn (ch.toNat - 65))
  else ch

def enc (message : Message) (x : Int) : Int := (wrapInt (x + message.addr.port)).tmod 26

def dec (message : Message) (x : Int) : Int := (x - message.addr.port.tmod 26 + 26).tmod 26

def encode (message : Message) (str : List UInt8) : List UInt8 :=
  str.map (turnLetter message.enc)

def decode (message : Message) (str : List UInt8) : List UInt8 :=
  str.map (turnLetter message.dec)

/-- The space and the semicolon between the fields. -/
def space : UInt8 := 32
def semicolon : UInt8 := 59

/-- The literal `"\0"` at the end is the empty string. -/
def serialize (message : Message) : List UInt8 :=
  formatInt message.addr.ip ++ [space] ++ formatInt message.addr.port ++ [space] ++
    formatInt message.id ++ [space] ++ formatInt message.ttl ++ [semicolon] ++
    message.encode message.content

/-- `deserialize` into `message`: fields that the stream does not deliver keep
their values. -/
def deserialize (message : Message) (str : List UInt8) : Message :=
  let (ip, stream) := (InStream.ofBytes str).extractInt
  let (port, stream) := stream.extractInt
  let (id, stream) := stream.extractInt
  let (ttl, stream) := stream.extractInt
  let stream := stream.ignore maxBuffSize semicolon
  let (line, _) := stream.getline
  let message : Message :=
    { addr := ⟨ip.getD message.addr.ip, port.getD message.addr.port⟩
      ttl := ttl.getD message.ttl
      id := id.getD message.id
      content := line.getD message.content }
  { message with content := message.decode message.content }

end Message

/-! ## Frames -/

/-- The bytes of a C string: what stands before the first NUL. `none` where
there is no NUL and the reader would leave the buffer. -/
def cString (buffer : List UInt8) : Option (List UInt8) :=
  if 0 ∈ buffer then some (buffer.takeWhile (· ≠ 0)) else none

/-- `strncpy(buffer, str.c_str(), MAX_BUFF_SIZE)`: the whole frame is written,
so that nothing of what it held stays. -/
def strncpy (buffer str : List UInt8) : List UInt8 :=
  let copied := (str.takeWhile (· ≠ 0)).take maxBuffSize
  copied ++ List.replicate (maxBuffSize - copied.length) 0 ++ buffer.drop maxBuffSize

/-- `msg_t msg; msg.deserialize(rbuff);` from a frame. -/
def readFrame (fresh : Message) (rbuff : List UInt8) : Option Message :=
  (cString rbuff).map fresh.deserialize

/-! ## The rotation is undone -/

theorem UInt8_toNat_ofInt {value : Int} (low : 0 ≤ value) (high : value < 256) :
    ((UInt8.ofInt value).toNat : Int) = value := by
  unfold UInt8.ofInt
  rw [UInt8.toNat_ofNat']
  omega

theorem isLower_iff (ch : UInt8) : Message.isLower ch = true ↔ 97 ≤ ch.toNat ∧ ch.toNat ≤ 122 := by
  simp only [Message.isLower, Bool.and_eq_true, decide_eq_true_eq, UInt8.le_iff_toNat_le]
  rfl

theorem isUpper_iff (ch : UInt8) : Message.isUpper ch = true ↔ 65 ≤ ch.toNat ∧ ch.toNat ≤ 90 := by
  simp only [Message.isUpper, Bool.and_eq_true, decide_eq_true_eq, UInt8.le_iff_toNat_le]
  rfl

/-- The alphabet of a case, by its first letter. -/
def Letter (base : Int) (ch : UInt8) : Prop := base ≤ ch.toNat ∧ (ch.toNat : Int) < base + 26

theorem letter_cases (ch : UInt8) : Letter 97 ch ∨ Letter 65 ch ∨
    Message.isLower ch = false ∧ Message.isUpper ch = false := by
  have lower := isLower_iff ch
  have upper := isUpper_iff ch
  unfold Letter
  cases isLower : Message.isLower ch with
  | true =>
      have := lower.mp isLower
      omega
  | false =>
      cases isUpper : Message.isUpper ch with
      | true =>
          have := upper.mp isUpper
          omega
      | false => exact .inr (.inr ⟨rfl, rfl⟩)

/-- Where a turn takes a letter that it leaves a byte. -/
theorem turnLetter_letter {turn : Int → Int} {base : Int} {ch : UInt8}
    (known : base = 97 ∨ base = 65) (letter : Letter base ch)
    (low : 0 ≤ base + turn (ch.toNat - base)) (high : base + turn (ch.toNat - base) < 256) :
    ((Message.turnLetter turn ch).toNat : Int) = base + turn (ch.toNat - base) := by
  have lower := isLower_iff ch
  have upper := isUpper_iff ch
  unfold Letter at letter
  unfold Message.turnLetter
  cases known with
  | inl small =>
      subst small
      rw [if_pos (lower.mpr (by omega))]
      exact UInt8_toNat_ofInt low high
  | inr capital =>
      subst capital
      have notLower : ¬ Message.isLower ch = true := fun same => by
        have := lower.mp same
        omega
      rw [if_neg notLower, if_pos (upper.mpr (by omega))]
      exact UInt8_toNat_ofInt low high

theorem turnLetter_other {turn : Int → Int} {ch : UInt8} (notLower : Message.isLower ch = false)
    (notUpper : Message.isUpper ch = false) : Message.turnLetter turn ch = ch := by
  simp [Message.turnLetter, notLower, notUpper]

theorem tmod_nonpos {value : Int} (nonpos : value ≤ 0) : value.tmod 26 ≤ 0 :=
  ((Int.tdiv_tmod_unique' nonpos (by decide : (26 : Int) ≠ 0)).mp ⟨rfl, rfl⟩).2.2

section Rotation

variable {message : Message}

theorem enc_bounds (message : Message) (x : Int) : -26 < message.enc x ∧ message.enc x < 26 :=
  ⟨Int.lt_tmod_of_pos _ (by decide), Int.tmod_lt_of_pos _ (by decide)⟩

theorem dec_bounds (message : Message) {x : Int} (low : 0 ≤ x) :
    0 ≤ message.dec x ∧ message.dec x < 26 := by
  have below := Int.tmod_lt_of_pos message.addr.port (by decide : (0 : Int) < 26)
  exact ⟨Int.tmod_nonneg _ (by omega), Int.tmod_lt_of_pos _ (by decide)⟩

theorem enc_of_int {x : Int} (isSum : IsInt (x + message.addr.port)) :
    message.enc x = (x + message.addr.port).tmod 26 := by
  rw [Message.enc, wrapInt_of_isInt isSum]

/-- `%` is negative below zero, where 26 does not divide. -/
theorem enc_nonneg_iff {x : Int} (isSum : IsInt (x + message.addr.port)) :
    0 ≤ message.enc x ↔ 0 ≤ x + message.addr.port ∨ 26 ∣ x + message.addr.port := by
  obtain ⟨above, below⟩ := enc_bounds message x
  have split := Int.mul_tdiv_add_tmod (x + message.addr.port) 26
  rw [enc_of_int isSum] at above below ⊢
  constructor
  · intro nonneg
    cases Int.le_total 0 (x + message.addr.port) with
    | inl positive => exact .inl positive
    | inr negative =>
        have nonpos := tmod_nonpos negative
        omega
  · intro either
    cases either with
    | inl nonneg => exact Int.tmod_nonneg _ nonneg
    | inr divides => omega

theorem dec_enc {x : Int} (low : 0 ≤ x) (high : x < 26) (isSum : IsInt (x + message.addr.port))
    (nonneg : 0 ≤ message.enc x) : message.dec (message.enc x) = x := by
  have below := Int.tmod_lt_of_pos message.addr.port (by decide : (0 : Int) < 26)
  have there := Int.mul_tdiv_add_tmod (x + message.addr.port) 26
  have turn := Int.mul_tdiv_add_tmod message.addr.port 26
  unfold Message.dec
  rw [Int.tmod_eq_emod_of_nonneg (by omega)]
  rw [enc_of_int isSum] at nonneg ⊢
  omega

/-- 26 does not divide `2 ^ 32`, so that a sum that overflows and comes out as 0 is not
turned back either. -/
theorem dec_enc_overflow {x : Int} (isPort : IsInt message.addr.port) (high : x < 26)
    (overflow : intMax < x + message.addr.port) (nonneg : 0 ≤ message.enc x) :
    message.dec (message.enc x) ≠ x := by
  have small := isPort.2
  unfold intMax at small overflow
  have wrapped := wrapInt_above overflow (by omega)
  have below := Int.tmod_lt_of_pos message.addr.port (by decide : (0 : Int) < 26)
  have turn := Int.mul_tdiv_add_tmod message.addr.port 26
  have there := Int.mul_tdiv_add_tmod (x + message.addr.port - 2 ^ 32) 26
  have nonpos : (x + message.addr.port - 2 ^ 32).tmod 26 ≤ 0 := tmod_nonpos (by omega)
  unfold Message.dec
  rw [Int.tmod_eq_emod_of_nonneg (by omega)]
  unfold Message.enc at nonneg ⊢
  rw [wrapped] at nonneg ⊢
  omega

/-- A letter whose sum with the port does not overflow and that `encode` does not turn
to below its alphabet, as it does with a negative port. -/
def Message.TurnsBack (message : Message) (ch : UInt8) : Prop :=
  ∀ base, base = 97 ∨ base = 65 → Letter base ch →
    (ch.toNat : Int) - base + message.addr.port ≤ intMax ∧
      (0 ≤ (ch.toNat : Int) - base + message.addr.port ∨
        26 ∣ (ch.toNat : Int) - base + message.addr.port)

theorem Message.turnsBack_of_port (positive : 0 ≤ message.addr.port)
    (small : message.addr.port ≤ intMax - 25) (ch : UInt8) : message.TurnsBack ch := by
  intro base _ letter
  obtain ⟨above, below⟩ := letter
  exact ⟨by omega, .inl (by omega)⟩

theorem turnLetter_enc (message : Message) {base : Int} {ch : UInt8}
    (known : base = 97 ∨ base = 65) (letter : Letter base ch) : ((Message.turnLetter message.enc ch).toNat : Int) =
      base + message.enc (ch.toNat - base) := by
  obtain ⟨above, below⟩ := enc_bounds message (ch.toNat - base)
  exact turnLetter_letter known letter (by omega) (by omega)

/-- `decode` stays in the alphabet. -/
theorem turnLetter_dec (message : Message) {base : Int} {ch : UInt8}
    (known : base = 97 ∨ base = 65) (letter : Letter base ch) : ((Message.turnLetter message.dec ch).toNat : Int) =
        base + message.dec (ch.toNat - base) ∧
      Letter base (Message.turnLetter message.dec ch) := by
  have above := letter.1
  obtain ⟨low, high⟩ := dec_bounds message (show 0 ≤ (ch.toNat : Int) - base by omega)
  have value : ((Message.turnLetter message.dec ch).toNat : Int) =
      base + message.dec (ch.toNat - base) := turnLetter_letter known letter (by omega) (by omega)
  exact ⟨value, by unfold Letter; omega⟩

/-- A letter that stays in its alphabet comes back as `dec` says. -/
theorem turned_back {base : Int} {ch : UInt8} (known : base = 97 ∨ base = 65)
    (letter : Letter base ch) (nonneg : 0 ≤ message.enc (ch.toNat - base)) :
    Message.turnLetter message.dec (Message.turnLetter message.enc ch) = ch ↔
      message.dec (message.enc (ch.toNat - base)) = ch.toNat - base := by
  have value := turnLetter_enc message known letter
  obtain ⟨_, below⟩ := enc_bounds message (ch.toNat - base)
  obtain ⟨first, last⟩ := letter
  have still : Letter base (Message.turnLetter message.enc ch) := ⟨by omega, by omega⟩
  have same : ((Message.turnLetter message.enc ch).toNat : Int) - base =
      message.enc (ch.toNat - base) := by omega
  have back := (turnLetter_dec message known still).1
  rw [same] at back
  rw [← UInt8.toNat_inj]
  omega

theorem not_turned_back {base : Int} {ch : UInt8} (known : base = 97 ∨ base = 65)
    (letter : Letter base ch) (negative : message.enc (ch.toNat - base) < 0) :
    Message.turnLetter message.dec (Message.turnLetter message.enc ch) ≠ ch := by
  have value := turnLetter_enc message known letter
  obtain ⟨first, _⟩ := letter
  intro same
  rcases letter_cases (Message.turnLetter message.enc ch) with lower | upper | ⟨notLower, notUpper⟩
  · have low := lower.1
    omega
  · -- a small letter became a capital one, and stays one
    have low := upper.1
    have high := (turnLetter_dec message (.inr rfl) upper).2.2
    rw [same] at high
    omega
  · rw [turnLetter_other notLower notUpper] at same
    rw [same] at value
    omega

/-- A letter comes back exactly if its sum was an `int` and it was not turned to below its
alphabet. -/
theorem letter_back_iff (isPort : IsInt message.addr.port) {base : Int} {ch : UInt8}
    (known : base = 97 ∨ base = 65) (letter : Letter base ch) :
    Message.turnLetter message.dec (Message.turnLetter message.enc ch) = ch ↔
      (ch.toNat : Int) - base + message.addr.port ≤ intMax ∧
        (0 ≤ (ch.toNat : Int) - base + message.addr.port ∨
          26 ∣ (ch.toNat : Int) - base + message.addr.port) := by
  have first := letter.1
  have last := letter.2
  constructor
  · intro same
    have nonneg : 0 ≤ message.enc (ch.toNat - base) :=
      Int.not_lt.mp fun negative => not_turned_back known letter negative same
    have back := (turned_back known letter nonneg).mp same
    have inRange : (ch.toNat : Int) - base + message.addr.port ≤ intMax :=
      Int.not_lt.mp fun overflow => dec_enc_overflow isPort (by omega) overflow nonneg back
    have low := isPort.1
    exact ⟨inRange, (enc_nonneg_iff ⟨by omega, inRange⟩).mp nonneg⟩
  · intro ⟨inRange, turns⟩
    have low := isPort.1
    have isSum : IsInt ((ch.toNat : Int) - base + message.addr.port) := ⟨by omega, inRange⟩
    have nonneg := (enc_nonneg_iff isSum).mpr turns
    exact (turned_back known letter nonneg).mpr (dec_enc (by omega) (by omega) isSum nonneg)

theorem turned_back_iff (isPort : IsInt message.addr.port) (ch : UInt8) :
    Message.turnLetter message.dec (Message.turnLetter message.enc ch) = ch ↔
      message.TurnsBack ch := by
  constructor
  · intro same base known letter
    exact (letter_back_iff isPort known letter).mp same
  · intro turns
    rcases letter_cases ch with lower | upper | ⟨notLower, notUpper⟩
    · exact (letter_back_iff isPort (.inl rfl) lower).mpr (turns 97 (.inl rfl) lower)
    · exact (letter_back_iff isPort (.inr rfl) upper).mpr (turns 65 (.inr rfl) upper)
    · rw [turnLetter_other notLower notUpper, turnLetter_other notLower notUpper]

theorem decode_encode_iff (isPort : IsInt message.addr.port) (str : List UInt8) :
    message.decode (message.encode str) = str ↔ ∀ ch ∈ str, message.TurnsBack ch := by
  have single : ∀ str : List UInt8, message.decode (message.encode str) = str.map
      (Message.turnLetter message.dec ∘ Message.turnLetter message.enc) := fun _ => List.map_map
  calc message.decode (message.encode str) = str
      ↔ str.map (Message.turnLetter message.dec ∘ Message.turnLetter message.enc) =
          str.map id := by rw [single, List.map_id]
    _ ↔ ∀ ch ∈ str, message.TurnsBack ch := by
        simp only [List.map_inj_left, Function.comp_apply, id_eq, turned_back_iff isPort]

/-- The marks of the wire format are no letters, and no letter becomes one. -/
theorem mem_encode_iff (message : Message) {mark : UInt8} (small : mark.toNat < 40)
    {str : List UInt8} :
    mark ∈ message.encode str ↔ mark ∈ str := by
  have single : ∀ ch, Message.turnLetter message.enc ch = mark ↔ ch = mark := by
    intro ch
    have high : ∀ base, base = 97 ∨ base = 65 → Letter base ch →
        Message.turnLetter message.enc ch ≠ mark ∧ ch ≠ mark := by
      intro base known letter
      have value := turnLetter_enc message known letter
      obtain ⟨above, below⟩ := enc_bounds message (ch.toNat - base)
      have first := letter.1
      constructor
      · intro same
        rw [same] at value
        omega
      · intro same
        rw [same] at first
        omega
    rcases letter_cases ch with lower | upper | ⟨notLower, notUpper⟩
    · exact iff_of_false (high 97 (.inl rfl) lower).1 (high 97 (.inl rfl) lower).2
    · exact iff_of_false (high 65 (.inr rfl) upper).1 (high 65 (.inr rfl) upper).2
    · rw [turnLetter_other notLower notUpper]
  simp [Message.encode, single]

end Rotation

/-! ## The round trip -/

namespace Message

/-- What `serialize` writes before the content. -/
def header (message : Message) : List UInt8 :=
  formatInt message.addr.ip ++ [space] ++ formatInt message.addr.port ++ [space] ++
    formatInt message.id ++ [space] ++ formatInt message.ttl ++ [semicolon]

theorem serialize_eq (message : Message) :
    message.serialize = message.header ++ message.encode message.content := rfl

/-- The fields are `int`s. -/
structure Ints (message : Message) : Prop where
  ip : IsInt message.addr.ip
  port : IsInt message.addr.port
  id : IsInt message.id
  ttl : IsInt message.ttl

theorem header_ne_zero (message : Message) : ∀ ch ∈ message.header, ch ≠ 0 := by
  intro ch member
  simp only [header, List.mem_append, List.mem_singleton] at member
  rcases member with ((((((inIp | isSpace) | inPort) | isSpace) | inId) | isSpace) | inTtl) | isMark
  · exact formatInt_ne_zero _ ch inIp
  · subst isSpace; decide
  · exact formatInt_ne_zero _ ch inPort
  · subst isSpace; decide
  · exact formatInt_ne_zero _ ch inId
  · subst isSpace; decide
  · exact formatInt_ne_zero _ ch inTtl
  · subst isMark; decide

/-- What is read behind the header of a message is its content. -/
theorem Ints.deserialize_header {message : Message} (ints : message.Ints) (fresh : Message)
    (text : List UInt8) : fresh.deserialize (message.header ++ text) =
      { message with content := message.decode (text.takeWhile (· ≠ 10)) } := by
  have afterSpace : EndsNumber space := rfl
  have afterMark : EndsNumber semicolon := rfl
  have blank : ∀ byte ∈ [space], InStream.isSpace byte = true := by
    intro byte member
    rw [List.mem_singleton.mp member]
    rfl
  have start : ∀ byte ∈ ([] : List UInt8), InStream.isSpace byte = true := by simp
  -- What is left of the stream before each extraction.
  obtain ⟨fourth, isFourth⟩ : ∃ rest, rest = formatInt message.ttl ++ semicolon :: text :=
    ⟨_, rfl⟩
  obtain ⟨third, isThird⟩ : ∃ rest, rest = formatInt message.id ++ space :: fourth := ⟨_, rfl⟩
  obtain ⟨second, isSecond⟩ : ∃ rest, rest = formatInt message.addr.port ++ space :: third :=
    ⟨_, rfl⟩
  have whole : message.header ++ text = formatInt message.addr.ip ++ space :: second := by
    rw [isSecond, isThird, isFourth]
    simp [header]
  have readIp := extractInt_formatInt ints.ip start afterSpace second
  have readPort := extractInt_formatInt ints.port blank afterSpace third
  have readId := extractInt_formatInt ints.id blank afterSpace fourth
  have readTtl := extractInt_formatInt ints.ttl blank afterMark text
  rw [← isSecond] at readPort
  rw [← isThird] at readId
  rw [← isFourth] at readTtl
  simp only [List.nil_append, List.singleton_append] at readIp readPort readId readTtl
  have skip := ignore_delimiter (by decide : 0 < maxBuffSize) semicolon text
  unfold deserialize
  rw [whole]
  simp only [readIp, readPort, readId, readTtl, skip, getline_line, Option.getD_some]
  rfl

/-- The messages that the wire format is made for. -/
structure Sendable (message : Message) : Prop where
  ip : IsInt message.addr.ip
  portLow : 0 ≤ message.addr.port
  portHigh : message.addr.port ≤ 65535
  id : IsInt message.id
  ttl : IsInt message.ttl
  single : ∀ ch ∈ message.content, ch ≠ 10
  noNul : ∀ ch ∈ message.content, ch ≠ 0

namespace Sendable

variable {message : Message}

theorem ints (sendable : message.Sendable) : message.Ints := by
  refine ⟨sendable.ip, ?_, sendable.id, sendable.ttl⟩
  have low := sendable.portLow
  have high := sendable.portHigh
  unfold IsInt intMin intMax
  omega

theorem serialize_ne_zero (sendable : message.Sendable) : ∀ ch ∈ message.serialize, ch ≠ 0 := by
  rintro ch member rfl
  cases List.mem_append.mp member with
  | inl inHeader => exact message.header_ne_zero 0 inHeader rfl
  | inr inContent => exact sendable.noNul 0 ((mem_encode_iff _ (by decide)).mp inContent) rfl

theorem deserialize_serialize (sendable : message.Sendable) (fresh : Message) :
    fresh.deserialize message.serialize = message := by
  have line : (message.encode message.content).takeWhile (fun ch => decide (ch ≠ 10)) =
      message.encode message.content := by
    rw [List.takeWhile_eq_self_iff]
    rintro ch member
    rw [decide_eq_true_eq]
    rintro rfl
    exact sendable.single 10 ((mem_encode_iff _ (by decide)).mp member) rfl
  have small : message.addr.port ≤ intMax - 25 := sendable.portHigh.trans (by decide)
  have decoded := (decode_encode_iff sendable.ints.port message.content).mpr
    fun ch _ => turnsBack_of_port sendable.portLow small ch
  rw [serialize_eq, sendable.ints.deserialize_header, line, decoded]

end Sendable

end Message

/-! ## What a frame holds -/

/-- A string that is short enough is ended in the frame, and read back up to its
first NUL. -/
theorem cString_strncpy {str : List UInt8} (buffer : List UInt8)
    (short : (str.takeWhile (· ≠ 0)).length < maxBuffSize) :
    cString (strncpy buffer str) = some (str.takeWhile (· ≠ 0)) := by
  obtain ⟨padding, isPadding⟩ : ∃ count,
      maxBuffSize - (str.takeWhile (· ≠ 0)).length = count + 1 :=
    ⟨maxBuffSize - 1 - (str.takeWhile (· ≠ 0)).length, by omega⟩
  have frame : strncpy buffer str = str.takeWhile (· ≠ 0) ++
      0 :: (List.replicate padding 0 ++ buffer.drop maxBuffSize) := by
    simp only [strncpy, List.take_of_length_le (Nat.le_of_lt short), isPadding,
      List.replicate_succ, List.append_assoc, List.cons_append]
  have ended : (str.takeWhile (fun ch => decide (ch ≠ 0)) ++
      0 :: (List.replicate padding 0 ++ buffer.drop maxBuffSize)).takeWhile
        (fun ch => decide (ch ≠ 0)) = str.takeWhile (fun ch => decide (ch ≠ 0)) := by
    have plain : ∀ ch ∈ str.takeWhile (fun ch => decide (ch ≠ 0)), decide (ch ≠ 0) = true := by
      intro ch member
      simpa using List.mem_takeWhile_imp member
    rw [List.takeWhile_append_of_pos plain]
    simp
  rw [cString, frame, if_pos (by simp), ended]

/-- A longer string fills the frame and no NUL ends it. -/
theorem strncpy_unterminated {buffer str : List UInt8} (size : buffer.length = maxBuffSize)
    (long : maxBuffSize ≤ (str.takeWhile (· ≠ 0)).length) : 0 ∉ strncpy buffer str := by
  have filled : ((str.takeWhile (· ≠ 0)).take maxBuffSize).length = maxBuffSize := by
    rw [List.length_take, Nat.min_eq_left long]
  have frame : strncpy buffer str = (str.takeWhile (· ≠ 0)).take maxBuffSize := by
    simp only [strncpy, filled, Nat.sub_self, List.replicate_zero, List.append_nil,
      List.drop_eq_nil_of_le (Nat.le_of_eq size)]
  intro member
  rw [frame] at member
  simpa using List.mem_takeWhile_imp (List.mem_of_mem_take member)

/-- Every frame that `send` fills with a message is read back as that message,
whatever the frame held before. -/
theorem frame_round_trip (message fresh : Message) (old : List UInt8)
    (sendable : message.Sendable) (fits : message.serialize.length ≤ maxBuffSize - 1) :
    readFrame fresh (strncpy old message.serialize) = some message := by
  have plain : message.serialize.takeWhile (· ≠ 0) = message.serialize :=
    List.takeWhile_eq_self_iff.mpr fun ch member =>
      decide_eq_true (sendable.serialize_ne_zero ch member)
  have short : (message.serialize.takeWhile (· ≠ 0)).length < maxBuffSize := by
    rw [plain]
    exact Nat.lt_of_le_of_lt fits (by decide)
  rw [readFrame, cString_strncpy old short, Option.map_some, plain, sendable.deserialize_serialize]

/-- A negative address, letters of both cases, a semicolon and bytes above 127. -/
theorem frame_round_trip_mixed :
    readFrame ⟨⟨0, 0⟩, 0, 0, []⟩
      (strncpy [] (Message.serialize ⟨⟨-2147483648, 65535⟩, 9, -3, [72, 105, 59, 32, 228, 189, 160]⟩)) =
      some ⟨⟨-2147483648, 65535⟩, 9, -3, [72, 105, 59, 32, 228, 189, 160]⟩ :=
  frame_round_trip _ _ _ ⟨by decide, by decide, by decide, by decide, by decide, by simp,
    by simp⟩ (by decide)

end OsPractices.Chat
