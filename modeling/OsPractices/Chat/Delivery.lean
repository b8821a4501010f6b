import OsPractices.Chat.WritePump

/-!
# Which messages arrive whole

`send` never looks at the length of a message, and `strncpy` ends a frame with a
NUL only where there is room for one. A frame without one is read beyond its
buffer, so what arrives is decided by the message alone.
-/

set_option autoImplicit false

namespace OsPractices.Chat

open Library

/-- A frame that ends within the buffer and gives the content of a message back. -/
structure Message.Delivered (message : Message) (frame : List UInt8) : Prop where
  size : frame.length = maxBuffSize
  delimited : 0 ∈ frame
  content : ∀ fresh : Message, (readFrame fresh frame).map Message.content = some message.content

/-- There is room for the NUL, and nothing in the content stands for its end or
is changed by the rotation. -/
structure Message.Fits (message : Message) : Prop where
  short : message.serialize.length < maxBuffSize
  noNul : 0 ∉ message.content
  single : 10 ∉ message.content
  turnsBack : ∀ ch ∈ message.content, message.TurnsBack ch

theorem takeWhile_ne_of_not_mem {mark : UInt8} {str : List UInt8} (absent : mark ∉ str) :
    str.takeWhile (· ≠ mark) = str := by
  rw [List.takeWhile_eq_self_iff]
  intro ch member
  rw [decide_eq_true_eq]
  intro same
  exact absent (same ▸ member)

namespace Message

variable {message : Message}

/-- The header has no NUL, so that only the content can be cut off at one. -/
theorem takeWhile_serialize (message : Message) : message.serialize.takeWhile (· ≠ 0) =
    message.header ++ (message.encode message.content).takeWhile (· ≠ 0) := by
  rw [serialize_eq, List.takeWhile_append_of_pos fun ch member =>
    decide_eq_true (message.header_ne_zero ch member)]

theorem Fits.takeWhile_serialize (fits : message.Fits) :
    message.serialize.takeWhile (· ≠ 0) = message.serialize := by
  rw [message.takeWhile_serialize, serialize_eq,
    takeWhile_ne_of_not_mem fun member => fits.noNul ((mem_encode_iff _ (by decide)).mp member)]

theorem Fits.cString (fits : message.Fits) :
    cString (frameOf message) = some message.serialize := by
  have short : (message.serialize.takeWhile (· ≠ 0)).length < maxBuffSize := by
    rw [fits.takeWhile_serialize]
    exact fits.short
  rw [frameOf, cString_strncpy _ short, fits.takeWhile_serialize]

theorem Fits.readFrame (fits : message.Fits) (ints : message.Ints) (fresh : Message) :
    readFrame fresh (frameOf message) = some message := by
  have line : (message.encode message.content).takeWhile (· ≠ 10) =
      message.encode message.content :=
    takeWhile_ne_of_not_mem fun member => fits.single ((mem_encode_iff _ (by decide)).mp member)
  have decoded := (decode_encode_iff ints.port message.content).mpr fits.turnsBack
  rw [Chat.readFrame, fits.cString, Option.map_some, serialize_eq, ints.deserialize_header, line,
    decoded]

theorem Delivered.short (delivered : message.Delivered (frameOf message)) :
    (message.serialize.takeWhile (· ≠ 0)).length < maxBuffSize := by
  apply Nat.lt_of_not_le
  intro long
  exact strncpy_unterminated List.length_replicate long delivered.delimited

/-- The content that arrives is the rotated-back part before a NUL or newline. -/
theorem Delivered.decoded (delivered : message.Delivered (frameOf message)) (ints : message.Ints) :
    message.decode (((message.encode message.content).takeWhile (· ≠ 0)).takeWhile (· ≠ 10)) =
      message.content := by
  have content := delivered.content message
  rw [Chat.readFrame, frameOf, cString_strncpy _ delivered.short, takeWhile_serialize,
    Option.map_some, Option.map_some, ints.deserialize_header] at content
  exact Option.some.inj content

theorem Delivered.fits (delivered : message.Delivered (frameOf message)) (ints : message.Ints) :
    message.Fits := by
  have decoded := delivered.decoded ints
  -- nothing was cut off, as the content has its full length
  have length := congrArg List.length decoded
  simp only [decode, List.length_map] at length
  have toNul : (message.encode message.content).takeWhile (· ≠ 0) <+:
      message.encode message.content := List.takeWhile_prefix _
  have toLine : ((message.encode message.content).takeWhile (· ≠ 0)).takeWhile (· ≠ 10) <+:
      (message.encode message.content).takeWhile (· ≠ 0) := List.takeWhile_prefix _
  have full : (message.encode message.content).length = message.content.length := by
    simp [encode]
  have whole := toNul.eq_of_length (by
    have first := toNul.length_le
    have second := toLine.length_le
    omega)
  rw [whole] at decoded length toLine
  have line := toLine.eq_of_length (by omega)
  rw [line] at decoded
  constructor
  case short =>
    have short := delivered.short
    rwa [takeWhile_serialize, whole, ← serialize_eq] at short
  case noNul =>
    intro member
    have inside := (mem_encode_iff message (by decide)).mpr member
    rw [← whole] at inside
    simpa using List.mem_takeWhile_imp inside
  case single =>
    intro member
    have inside := (mem_encode_iff message (by decide)).mpr member
    rw [← line] at inside
    simpa using List.mem_takeWhile_imp inside
  case turnsBack => exact (decode_encode_iff ints.port message.content).mp decoded

theorem delivered_iff_fits (ints : message.Ints) :
    message.Delivered (frameOf message) ↔ message.Fits := by
  constructor
  · exact fun delivered => delivered.fits ints
  · intro fits
    constructor
    case size => exact length_frameOf message
    case delimited =>
      have read := fits.cString
      rw [Chat.cString, Option.ite_none_right_eq_some] at read
      exact read.1
    case content =>
      intro fresh
      rw [fits.readFrame ints fresh, Option.map_some]

end Message

/-! ## The frames of a pump -/

/-- While a message waits, the buffer holds the frame of the first one. -/
theorem Pump.Kept.wbuff {pump : Pump} {outputs : List PumpOutput} (kept : pump.Kept outputs)
    {msg : Message} {rest : List Message} (waiting : pump.pending = msg :: rest) :
    pump.wbuff = frameOf msg := by
  cases kept.phase with
  | idle empty => simp [empty] at waiting
  | started front _ _ filled =>
      cases front.symm.trans waiting
      exact filled
  | writing front _ _ filled =>
      cases front.symm.trans waiting
      exact filled

/-- The frame in the buffer ends there and gives the content back exactly if its
message fits; where all do, the receiver reads what was pushed. -/
theorem frames_delivered_iff {endpoint : Endpoint} {actions : List PumpAction}
    {outputs : List PumpOutput} {pump : Pump}
    (run : Run (Pump.step endpoint) (fun _ _ => True) Pump.create actions outputs pump) :
    (∀ msg rest, pump.pending = msg :: rest → msg.Ints →
      (msg.Delivered pump.wbuff ↔ msg.Fits)) ∧
    ((∀ msg ∈ pushedOf outputs, msg.Ints ∧ msg.Fits) → ∀ frame ∈ writtenOf outputs,
      ∃ msg ∈ pushedOf outputs, msg.Delivered frame ∧
        ∀ fresh, readFrame fresh frame = some msg) := by
  have kept : pump.Kept outputs :=
    run.invariant Pump.Kept.create fun before _ stepped => before.step stepped
  constructor
  · intro msg rest waiting ints
    rw [kept.wbuff waiting]
    exact Message.delivered_iff_fits ints
  · intro all frame written
    obtain ⟨done, accounts⟩ := kept.order
    rw [accounts.written] at written
    obtain ⟨msg, isDone, rfl⟩ := List.mem_map.mp written
    have pushed : msg ∈ pushedOf outputs := by
      rw [accounts.pushed]
      exact List.mem_append_left _ isDone
    obtain ⟨ints, fits⟩ := all msg pushed
    exact ⟨msg, pushed, (Message.delivered_iff_fits ints).mpr fits, fits.readFrame ints⟩

/-- A short line is in the buffer of a session. -/
theorem frames_delivered_short_line : ∃ outputs pump,
    Run (Pump.step .session) (fun _ _ => True) Pump.create
      [.send 1 ⟨⟨16777343, 5000⟩, 9, 0, [65, 58, 32, 72, 105]⟩] outputs pump ∧
    Message.Delivered ⟨⟨16777343, 5000⟩, 9, 0, [65, 58, 32, 72, 105]⟩ pump.wbuff := by
  have run : Run (Pump.step .session) (fun _ _ => True) Pump.create
      [.send 1 ⟨⟨16777343, 5000⟩, 9, 0, [65, 58, 32, 72, 105]⟩] _ _ := Run.of_exec rfl
  have ints : Message.Ints ⟨⟨16777343, 5000⟩, 9, 0, [65, 58, 32, 72, 105]⟩ := by
    constructor <;> decide
  refine ⟨_, _, run, ((frames_delivered_iff run).1 _ [] rfl ints).mpr ?_⟩
  exact ⟨by decide, by decide, by decide,
    fun ch _ => Message.turnsBack_of_port (by decide) (by decide) ch⟩

/-- A nickname and a line of 1021 letters. -/
theorem long_line_undelimited : ¬ ∀ outputs pump,
    Run (Pump.step .client) (fun _ _ => True) Pump.create
      [.send 1 ⟨⟨16777343, 5000⟩, 10, 0, [65, 58, 32] ++ List.replicate 1021 120⟩, .onPost 1 0]
      outputs pump →
    ∀ msg rest, pump.pending = msg :: rest → msg.Delivered pump.wbuff := by
  intro always
  have delivered := always _ _ (Run.of_exec rfl) _ [] rfl
  have short := delivered.short
  rw [Message.takeWhile_serialize, takeWhile_ne_of_not_mem] at short
  · simp only [Message.encode, List.length_append, List.length_map, List.length_replicate,
      List.length_cons, List.length_nil, maxBuffSize] at short
    omega
  · rw [mem_encode_iff _ (by decide), List.mem_append, not_or]
    exact ⟨by decide, fun member => absurd (List.eq_of_mem_replicate member) (by decide)⟩

end OsPractices.Chat
