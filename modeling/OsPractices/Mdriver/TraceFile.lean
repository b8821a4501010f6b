import OsPractices.Library.Scan
import OsPractices.Mdriver.Code

/-!
# Trace files

`read_trace` and `read_trace_stdin`, from the text of a trace to its requests.
The text of a trace as its generators print it is read back, and the traces that
are read are exactly those that can be printed so.
-/

set_option autoImplicit false

namespace OsPractices.Mdriver

open Library
open InStream (isSpace isDigit)
open Malloc (u64 offsetT)

/-! ## Reading -/

/-- Where a trace is read from: `read_trace_stdin` or `read_trace`. -/
inductive Source where
  | stdin
  | file (tracedir filename : String)

def Source.name : Source → String
  | .stdin => "stdin"
  | .file tracedir filename => tracedir ++ filename

def Source.bogus (source : Source) (letter : UInt8) : String :=
  "Bogus type character (" ++ String.singleton (Char.ofNat letter.toNat) ++ ")" ++
    (match source with
    | .stdin => " from stdin\n"
    | .file _ _ => " in tracefile " ++ source.name ++ "\n")

/-- `MAXLINE`, the size of the buffer for a word. -/
def maxLine : Nat := 1024

/-- The variables of the loop of `read_trace`. The size of a request is first that
of no variable. -/
structure Reading where
  index : Int
  size : Option Int
  maxIndex : Int
  ops : List TraceOp

def Reading.initial : Reading := ⟨0, none, 0, []⟩

/-- A request to allocate or to resize, after its numbers have been read. -/
def Reading.request (reading : Reading) (type : RequestType) (index : Int) (size : Option Int) :
    Except Stop Reading :=
  match size with
  | none => .error .undefined
  | some size => .ok ⟨index, some size, max index reading.maxIndex,
      reading.ops ++ [⟨type, index, u64 size⟩]⟩

/-- `%u %u`: the second number is not looked for where there is no first. -/
def readRequest (reading : Reading) (type : RequestType) (rest : List UInt8) :
    Except Stop (Reading × List UInt8) := do
  match scanUnsigned rest with
  | (none, rest) =>
      let reading ← reading.request type reading.index reading.size
      return (reading, rest)
  | (some index, rest) =>
      let (size, rest) := scanUnsigned rest
      let reading ← reading.request type index (size.or reading.size)
      return (reading, rest)

/-- `%ud`: a number, and a `d` behind it. -/
def readFree (reading : Reading) (rest : List UInt8) : Reading × List UInt8 :=
  match scanUnsigned rest with
  | (none, rest) => ({ reading with ops := reading.ops ++ [⟨.free, reading.index, 0⟩] }, rest)
  | (some index, rest) =>
      ({ reading with index := index, ops := reading.ops ++ [⟨.free, index, 0⟩] },
        scanLiteral 100 rest)

def readOp (source : Source) (reading : Reading) (word rest : List UInt8) :
    Except Stop (Reading × List UInt8) :=
  if maxLine ≤ word.length then .error .undefined
  else
    let letter := word.headD 0
    if letter = 97 then readRequest reading .alloc rest
    else if letter = 114 then readRequest reading .realloc rest
    else if letter = 102 then .ok (readFree reading rest)
    else .error (.exit (source.bogus letter))

/-- The loop, for as many requests as the array `ops` has left. -/
def readOps (source : Source) : Nat → Reading → List UInt8 → Except Stop Reading
  | 0, reading, _ => .ok reading
  | count + 1, reading, rest =>
      match scanWord rest with
      | none => .ok reading
      | some (word, rest) => do
          let (reading, rest) ← readOp source reading word rest
          readOps source count reading rest

/-- The loop where the array `ops` has no element to begin with. -/
def readNone (source : Source) (rest : List UInt8) : Except Stop Reading :=
  match scanWord rest with
  | none => .ok .initial
  | some (word, rest) => do
      let _ ← readOp source .initial word rest
      throw .undefined

/-- The value of a variable that is to be used. -/
def stored (value : Option Int) : Except Stop Int :=
  match value with
  | none => .error .undefined
  | some value => .ok value

/-- What `read_trace` does with the numbers of the header; `loop` is the loop over
the requests. -/
def readBody (source : Source) (weight numIds numOps ignoreRanges : Option Int)
    (loop : Int → Except Stop Reading) : Except Stop Trace := do
  let weight ← stored weight
  if weight ≠ 0 ∧ weight ≠ 1 then
    throw (.exit (source.name ++ ": weight can only be zero or one"))
  let ignoreRanges ← stored ignoreRanges
  if ignoreRanges ≠ 0 ∧ ignoreRanges ≠ 1 then
    throw (.exit (source.name ++ ": ignore-ranges can only be zero or one"))
  -- a negative count is a size that cannot be allocated
  let numOps ← stored numOps
  if numOps < 0 then throw (.exit "malloc 2 failed in read_trace: Cannot allocate memory\n")
  let numIds ← stored numIds
  if numIds < 0 then throw (.exit "malloc 3 failed in read_trace: Cannot allocate memory\n")
  let reading ← loop numOps
  if reading.maxIndex = numIds - 1 ∧ numOps = reading.ops.length then
    return ⟨source.name, weight, numIds, ignoreRanges, reading.ops⟩
  else throw .assertion

def readTrace (source : Source) (text : List UInt8) : Except Stop Trace :=
  let (weight, rest) := scanInt text
  let (numIds, rest) := scanInt rest
  let (numOps, rest) := scanInt rest
  let (ignoreRanges, rest) := scanInt rest
  readBody source weight numIds numOps ignoreRanges fun numOps =>
    if numOps = 0 then readNone source rest
    else readOps source numOps.toNat .initial rest

/-! ## Printing -/

def RequestType.letter : RequestType → UInt8
  | .alloc => 97
  | .free => 102
  | .realloc => 114

/-- A line of a trace. Some traces leave the size of a request out. -/
structure Line where
  type : RequestType
  index : Int
  size : Option Int
  deriving DecidableEq, Repr

def Line.print (line : Line) : List UInt8 :=
  line.type.letter :: 32 :: (formatInt line.index ++
    match line.type, line.size with
    | .free, _ => [10]
    | _, none => [32, 10]
    | _, some size => 32 :: (formatInt size ++ [10]))

def printHeader (numbers : List Int) : List UInt8 :=
  numbers.flatMap fun number => formatInt number ++ [10]

/-- A trace as its generators print it. -/
def printTrace (weight numIds ignoreRanges : Int) (lines : List Line) : List UInt8 :=
  printHeader [weight, numIds, lines.length, ignoreRanges] ++ lines.flatMap Line.print

/-- What a line says to the loop. A size that is left out is that of the request
before. -/
def Reading.line (reading : Reading) (line : Line) : Except Stop Reading :=
  match line.type with
  | .free =>
      .ok { reading with index := line.index, ops := reading.ops ++ [⟨.free, line.index, 0⟩] }
  | type => reading.request type line.index (line.size.or reading.size)

structure Line.InRange (line : Line) : Prop where
  index : IsInt line.index
  size : ∀ size ∈ line.size, IsInt size

theorem letter_isWord (type : RequestType) : isSpace type.letter = false ∧
    (type.letter ≠ 45 ∧ type.letter ≠ 43) ∧ EndsNumber type.letter ∧ isSpace 32 = true := by
  unfold EndsNumber
  cases type <;> decide

/-- The text before the next line, or before the end of the file, holds no number. -/
theorem scanUnsigned_lines {spaces : List UInt8} (blank : ∀ byte ∈ spaces, isSpace byte = true)
    (lines : List Line) :
    scanUnsigned (spaces ++ lines.flatMap Line.print) = (none, lines.flatMap Line.print) := by
  cases lines with
  | nil =>
      unfold scanUnsigned scanNumeral
      rw [List.flatMap_nil, List.append_nil, List.dropWhile_eq_nil_iff.mpr blank]
      rfl
  | cons line lines =>
      obtain ⟨notSpace, notSign, notDigit, _⟩ := letter_isWord line.type
      exact scanUnsigned_word blank notSpace notSign notDigit _

theorem scanWord_letter {spaces : List UInt8} (blank : ∀ byte ∈ spaces, isSpace byte = true)
    (type : RequestType) (rest : List UInt8) :
    scanWord (spaces ++ type.letter :: 32 :: rest) = some ([type.letter], 32 :: rest) := by
  obtain ⟨notSpace, _, _, space⟩ := letter_isWord type
  unfold scanWord
  rw [List.dropWhile_append_of_pos blank, List.dropWhile_cons_of_neg (by simp [notSpace])]
  dsimp only
  rw [List.takeWhile_cons_of_pos (by simp [notSpace]), List.takeWhile_cons_of_neg (by simp [space]),
    List.dropWhile_cons_of_pos (by simp [notSpace]), List.dropWhile_cons_of_neg (by simp [space])]

theorem blank_of_all {spaces : List UInt8} (all : spaces.all isSpace = true) :
    ∀ byte ∈ spaces, isSpace byte = true := List.all_eq_true.mp all

theorem isSpace_blank : ∀ byte ∈ ([32] : List UInt8), isSpace byte = true := blank_of_all rfl

theorem endsNumber_space : EndsNumber 32 := by
  unfold EndsNumber
  decide

theorem endsNumber_newline : EndsNumber 10 := by
  unfold EndsNumber
  decide

/-- The numbers of a line that asks for a block. -/
theorem readRequest_line {reading : Reading} {type : RequestType} {index : Int}
    {size : Option Int} (isIndex : IsInt index) (isSize : ∀ value ∈ size, IsInt value)
    (lines : List Line) :
    ∃ spaces, (∀ byte ∈ spaces, isSpace byte = true) ∧
      readRequest reading type (32 :: (formatInt index ++
        match size with
        | none => 32 :: 10 :: lines.flatMap Line.print
        | some value => 32 :: (formatInt value ++ 10 :: lines.flatMap Line.print))) =
        (reading.request type index (size.or reading.size)).map fun next =>
          (next, spaces ++ lines.flatMap Line.print) := by
  unfold readRequest
  cases size with
  | none =>
      have first := scanUnsigned_formatInt isIndex isSpace_blank endsNumber_space
        (10 :: lines.flatMap Line.print)
      have second := scanUnsigned_lines (blank_of_all (rfl : [32, 10].all isSpace = true)) lines
      rw [List.singleton_append] at first
      rw [List.cons_append, List.singleton_append] at second
      refine ⟨[], by simp, ?_⟩
      dsimp only
      rw [first]
      dsimp only
      rw [second]
      cases reading.request type index (Option.or none reading.size) <;> rfl
  | some value =>
      have first := scanUnsigned_formatInt isIndex isSpace_blank endsNumber_space
        (formatInt value ++ 10 :: lines.flatMap Line.print)
      have second := scanUnsigned_formatInt (isSize value rfl) isSpace_blank endsNumber_newline
        (lines.flatMap Line.print)
      rw [List.singleton_append] at first second
      refine ⟨[10], blank_of_all rfl, ?_⟩
      dsimp only
      rw [first]
      dsimp only
      rw [second]
      cases reading.request type index (Option.or (some value) reading.size) <;> rfl

theorem readFree_line {reading : Reading} {index : Int} (isIndex : IsInt index)
    (rest : List UInt8) :
    readFree reading (32 :: (formatInt index ++ 10 :: rest)) =
      ({ reading with index := index, ops := reading.ops ++ [⟨.free, index, 0⟩] }, 10 :: rest) := by
  have read := scanUnsigned_formatInt isIndex isSpace_blank endsNumber_newline rest
  rw [List.singleton_append] at read
  unfold readFree
  rw [read]
  rfl

/-- A line and the text behind it. -/
theorem print_request {type : RequestType} (isRequest : type ≠ .free) (index : Int)
    (size : Option Int) (later : List UInt8) :
    Line.print ⟨type, index, size⟩ ++ later = type.letter :: 32 :: (formatInt index ++
      match size with
      | none => 32 :: 10 :: later
      | some value => 32 :: (formatInt value ++ 10 :: later)) := by
  unfold Line.print
  cases type with
  | free => exact absurd rfl isRequest
  | alloc => cases size <;> simp
  | realloc => cases size <;> simp

theorem print_free (index : Int) (size : Option Int) (later : List UInt8) :
    Line.print ⟨.free, index, size⟩ ++ later =
      RequestType.free.letter :: 32 :: (formatInt index ++ 10 :: later) := by
  unfold Line.print
  simp

/-- A line that is printed is read as what it says. -/
theorem readOp_line (source : Source) (reading : Reading) {line : Line} (inRange : line.InRange)
    (lines : List Line) :
    ∃ body spaces, line.print ++ lines.flatMap Line.print = line.type.letter :: 32 :: body ∧
      (∀ byte ∈ spaces, isSpace byte = true) ∧
      readOp source reading [line.type.letter] (32 :: body) =
        (reading.line line).map fun next => (next, spaces ++ lines.flatMap Line.print) := by
  obtain ⟨type, index, size⟩ := line
  obtain ⟨isIndex, isSize⟩ := inRange
  have short : ¬ maxLine ≤ [type.letter].length := by
    unfold maxLine
    simp
  unfold readOp
  cases type with
  | free =>
      refine ⟨_, [10], print_free index size _, blank_of_all rfl, ?_⟩
      rw [if_neg short]
      exact congrArg Except.ok (readFree_line isIndex _)
  | alloc =>
      obtain ⟨spaces, blank, read⟩ := @readRequest_line reading .alloc index size isIndex isSize lines
      exact ⟨_, spaces, print_request (by decide) index size _, blank, (if_neg short).trans read⟩
  | realloc =>
      obtain ⟨spaces, blank, read⟩ :=
        @readRequest_line reading .realloc index size isIndex isSize lines
      exact ⟨_, spaces, print_request (by decide) index size _, blank, (if_neg short).trans read⟩

/-- The loop reads what the lines say. -/
theorem readOps_lines (source : Source) {lines : List Line} (reading : Reading)
    (inRange : ∀ line ∈ lines, line.InRange) {spaces : List UInt8}
    (blank : ∀ byte ∈ spaces, isSpace byte = true) :
    readOps source lines.length reading (spaces ++ lines.flatMap Line.print) =
      lines.foldlM Reading.line reading := by
  induction lines generalizing reading spaces with
  | nil => rfl
  | cons line lines ih =>
      obtain ⟨body, spaces', text, blank', read⟩ :=
        readOp_line source reading (inRange line List.mem_cons_self) lines
      rw [List.length_cons, readOps, List.flatMap_cons, text, scanWord_letter blank]
      dsimp only
      rw [read, List.foldlM_cons]
      cases reading.line line with
      | error stop => rfl
      | ok next => exact ih next (fun other member => inRange other (.tail _ member)) blank'

/-- The loop runs on the number of requests that the header gives. -/
theorem readBody_congr {source : Source} {weight numIds ignoreRanges : Option Int} {numOps : Int}
    {loop other : Int → Except Stop Reading} (same : loop numOps = other numOps) :
    readBody source weight numIds (some numOps) ignoreRanges loop =
      readBody source weight numIds (some numOps) ignoreRanges other := by
  have numOps' : stored (some numOps) = .ok numOps := rfl
  simp only [readBody, numOps', ok_bind, same]

/-- The text of a trace is read as its numbers and its lines. -/
theorem readTrace_print (source : Source) {weight numIds ignoreRanges : Int} {lines : List Line}
    (isWeight : IsInt weight) (isIds : IsInt numIds) (isOps : IsInt lines.length)
    (isRanges : IsInt ignoreRanges) (inRange : ∀ line ∈ lines, line.InRange) :
    readTrace source (printTrace weight numIds ignoreRanges lines) =
      readBody source (some weight) (some numIds) (some lines.length) (some ignoreRanges)
        fun _ => lines.foldlM Reading.line .initial := by
  have blank : ∀ byte ∈ ([10] : List UInt8), isSpace byte = true := blank_of_all rfl
  have none : ∀ byte ∈ ([] : List UInt8), isSpace byte = true := blank_of_all rfl
  have text : printTrace weight numIds ignoreRanges lines =
      formatInt weight ++ 10 :: (formatInt numIds ++ 10 :: (formatInt lines.length ++
        10 :: (formatInt ignoreRanges ++ 10 :: lines.flatMap Line.print))) := by
    simp [printTrace, printHeader]
  have first := scanInt_formatInt isWeight none endsNumber_newline (formatInt numIds ++
    10 :: (formatInt lines.length ++ 10 :: (formatInt ignoreRanges ++
      10 :: lines.flatMap Line.print)))
  have second := scanInt_formatInt isIds blank endsNumber_newline (formatInt lines.length ++
    10 :: (formatInt ignoreRanges ++ 10 :: lines.flatMap Line.print))
  have third := scanInt_formatInt isOps blank endsNumber_newline (formatInt ignoreRanges ++
    10 :: lines.flatMap Line.print)
  have fourth := scanInt_formatInt isRanges blank endsNumber_newline (lines.flatMap Line.print)
  rw [List.nil_append] at first
  rw [List.singleton_append] at second third fourth
  unfold readTrace
  rw [text, first]
  dsimp only
  rw [second]
  dsimp only
  rw [third]
  dsimp only
  rw [fourth]
  dsimp only
  have loop : (if (lines.length : Int) = 0 then readNone source (10 :: lines.flatMap Line.print)
      else readOps source (lines.length : Int).toNat .initial (10 :: lines.flatMap Line.print)) =
      lines.foldlM Reading.line .initial := by
    cases lines with
    | nil => rfl
    | cons line lines =>
        rw [if_neg (by rw [List.length_cons]; omega), Int.toNat_natCast]
        exact readOps_lines source .initial inRange blank
  exact readBody_congr loop

/-! ## Sizes that are left out -/

/-- Each size that is left out is filled in. -/
def fill : Option Int → List Line → List Line
  | _, [] => []
  | last, line :: lines =>
      match line.type with
      | .free => line :: fill last lines
      | _ => { line with size := line.size.or last } :: fill (line.size.or last) lines

theorem fill_length (last : Option Int) (lines : List Line) :
    (fill last lines).length = lines.length := by
  induction lines generalizing last with
  | nil => rfl
  | cons line lines ih =>
      unfold fill
      split <;> rw [List.length_cons, List.length_cons, ih]

theorem isInt_or {first second : Option Int} (isFirst : ∀ value ∈ first, IsInt value)
    (isSecond : ∀ value ∈ second, IsInt value) : ∀ value ∈ first.or second, IsInt value := by
  cases first with
  | none => exact isSecond
  | some value => exact isFirst

theorem fill_inRange {last : Option Int} {lines : List Line} (isLast : ∀ size ∈ last, IsInt size)
    (inRange : ∀ line ∈ lines, line.InRange) : ∀ line ∈ fill last lines, line.InRange := by
  induction lines generalizing last with
  | nil => exact fun line member => absurd member List.not_mem_nil
  | cons line lines ih =>
      have own := inRange line List.mem_cons_self
      have others := fun other member => inRange other (List.mem_cons_of_mem line member)
      have filled := isInt_or own.size isLast
      unfold fill
      intro other member
      split at member
      · cases List.mem_cons.mp member with
        | inl isFirst => exact isFirst ▸ own
        | inr later => exact ih isLast others other later
      · cases List.mem_cons.mp member with
        | inl isFirst => exact isFirst ▸ ⟨own.index, filled⟩
        | inr later => exact ih filled others other later

theorem request_size {reading next : Reading} {type : RequestType} {index : Int}
    {size : Option Int} (run : reading.request type index size = .ok next) : next.size = size := by
  unfold Reading.request at run
  cases size with
  | none => cases run
  | some value =>
      cases run
      rfl

theorem foldlM_fill (reading : Reading) (lines : List Line) :
    (fill reading.size lines).foldlM Reading.line reading = lines.foldlM Reading.line reading := by
  induction lines generalizing reading with
  | nil => rfl
  | cons line lines ih =>
      obtain ⟨type, index, size⟩ := line
      have request : ∀ type', type' = type → type' ≠ .free →
          (({ type := type, index := index, size := size.or reading.size } : Line) ::
            fill (size.or reading.size) lines).foldlM Reading.line reading =
          (({ type := type, index := index, size := size } : Line) :: lines).foldlM Reading.line
            reading := by
        intro type' same notFree
        subst same
        rw [List.foldlM_cons, List.foldlM_cons]
        have first : reading.line ⟨type', index, size.or reading.size⟩ =
            reading.line ⟨type', index, size⟩ := by
          unfold Reading.line
          cases type' with
          | free => exact absurd rfl notFree
          | alloc => cases size <;> cases reading.size <;> rfl
          | realloc => cases size <;> cases reading.size <;> rfl
        rw [first]
        cases run : reading.line ⟨type', index, size⟩ with
        | error stop => rfl
        | ok next =>
            have sized : next.size = size.or reading.size := by
              unfold Reading.line at run
              cases type' with
              | free => exact absurd rfl notFree
              | alloc => exact request_size run
              | realloc => exact request_size run
            rw [ok_bind, ok_bind, ← sized]
            exact ih next
      cases type with
      | free => exact ih _
      | alloc => exact request .alloc rfl (by decide)
      | realloc => exact request .realloc rfl (by decide)

/-- A request whose size is left out is read with the size of the request before,
that is, as the trace with each size filled in. -/
theorem readTrace_fills (source : Source) {weight numIds ignoreRanges : Int} {lines : List Line}
    (isWeight : IsInt weight) (isIds : IsInt numIds) (isOps : IsInt lines.length)
    (isRanges : IsInt ignoreRanges) (inRange : ∀ line ∈ lines, line.InRange) :
    readTrace source (printTrace weight numIds ignoreRanges lines) =
      readTrace source (printTrace weight numIds ignoreRanges (fill none lines)) := by
  have length := fill_length none lines
  have filled := fill_inRange (by simp : ∀ size ∈ (none : Option Int), IsInt size) inRange
  rw [readTrace_print source isWeight isIds isOps isRanges inRange,
    readTrace_print source isWeight isIds (length ▸ isOps) isRanges filled, length]
  exact readBody_congr (foldlM_fill .initial lines).symm

/-- The first lines of `alaska.rep`, which leaves sizes out. -/
theorem readTrace_fills_alaska :
    readTrace .stdin (printTrace 1 50 0 [⟨.alloc, 49, some 16⟩, ⟨.alloc, 22, some 1234⟩,
        ⟨.alloc, 7, none⟩, ⟨.alloc, 3, none⟩]) =
      readTrace .stdin (printTrace 1 50 0 (fill none [⟨.alloc, 49, some 16⟩,
        ⟨.alloc, 22, some 1234⟩, ⟨.alloc, 7, none⟩, ⟨.alloc, 3, none⟩])) :=
  readTrace_fills .stdin (by decide) (by decide) (by decide) (by decide) (by
    intro line member
    simp only [List.mem_cons, List.not_mem_nil, or_false] at member
    obtain rfl | rfl | rfl | rfl := member
    all_goals exact ⟨by decide, by decide⟩)

/-! ## What is accepted -/

/-- The highest id of the requests for a block, or 0. -/
def topIndex (ops : List TraceOp) : Int :=
  ops.foldl (fun top op => if op.type = .free then top else max op.index top) 0

/-- The numbers of a request, as an `int` and a `size_t` hold them. -/
structure TraceOp.Proper (op : TraceOp) : Prop where
  index : IsInt op.index
  size : if op.type = .free then op.size = 0 else ∃ size, IsInt size ∧ op.size = u64 size

/-- What `read_trace` makes sure of. It does not look at the ids of requests to
free, nor for ids below 0. -/
structure Trace.Readable (source : Source) (trace : Trace) : Prop where
  filename : trace.filename = source.name
  weight : trace.weight = 0 ∨ trace.weight = 1
  ignoreRanges : trace.ignoreRanges = 0 ∨ trace.ignoreRanges = 1
  length : IsInt trace.ops.length
  numIds : IsInt trace.numIds
  top : topIndex trace.ops = trace.numIds - 1
  ops : ∀ op ∈ trace.ops, op.Proper

def TraceOp.line (op : TraceOp) : Line :=
  ⟨op.type, op.index, if op.type = .free then none else some (offsetT op.size)⟩

def Trace.print (trace : Trace) : List UInt8 :=
  printTrace trace.weight trace.numIds trace.ignoreRanges (trace.ops.map TraceOp.line)

/-- What the loop has made of the requests so far. -/
structure Reading.Keeps (reading : Reading) : Prop where
  index : IsInt reading.index
  size : ∀ size ∈ reading.size, IsInt size
  top : reading.maxIndex = topIndex reading.ops
  ops : ∀ op ∈ reading.ops, op.Proper

theorem isInt_bmod (value : Int) : IsInt (Int.bmod value (2 ^ 32)) := by
  unfold IsInt intMin intMax
  rw [Int.bmod_def]
  split <;> omega

theorem scanUnsigned_isInt (rest : List UInt8) :
    ∀ value ∈ (scanUnsigned rest).1, IsInt value := by
  intro value member
  obtain ⟨numeral, _, rfl⟩ := Option.mem_map.mp member
  exact isInt_bmod _

theorem scanInt_isInt (rest : List UInt8) : ∀ value ∈ (scanInt rest).1, IsInt value := by
  intro value member
  obtain ⟨numeral, _, rfl⟩ := Option.mem_map.mp member
  exact isInt_bmod _

theorem topIndex_append (ops : List TraceOp) (op : TraceOp) :
    topIndex (ops ++ [op]) =
      if op.type = .free then topIndex ops else max op.index (topIndex ops) := by
  unfold topIndex
  rw [List.foldl_append]
  rfl

theorem topIndex_nonneg (ops : List TraceOp) : 0 ≤ topIndex ops := by
  induction ops using List.reverseRecOn with
  | nil => exact Int.le_refl _
  | append_singleton ops op ih =>
      rw [topIndex_append]
      split
      case isTrue => exact ih
      case isFalse => exact Int.le_trans ih (Int.le_max_right _ _)

namespace Reading.Keeps

theorem initial : Reading.initial.Keeps :=
  ⟨by decide, by simp [Reading.initial], rfl, by simp [Reading.initial]⟩

theorem request {reading next : Reading} {type : RequestType} {index : Int} {size : Option Int}
    (keeps : reading.Keeps) (isRequest : type ≠ .free) (isIndex : IsInt index)
    (isSize : ∀ value ∈ size, IsInt value)
    (run : reading.request type index size = .ok next) : next.Keeps := by
  unfold Reading.request at run
  cases size with
  | none => cases run
  | some value =>
      cases run
      refine ⟨isIndex, isSize, ?_, fun op member => ?_⟩
      · rw [topIndex_append, if_neg isRequest, ← keeps.top]
      · cases List.mem_append.mp member with
        | inl before => exact keeps.ops op before
        | inr last =>
            rw [List.mem_singleton.mp last]
            exact ⟨isIndex, by rw [if_neg isRequest]; exact ⟨value, isSize value rfl, rfl⟩⟩

theorem free {reading : Reading} {index : Int} (keeps : reading.Keeps) (isIndex : IsInt index) :
    Reading.Keeps { reading with
      index := index, ops := reading.ops ++ [⟨.free, index, 0⟩] } := by
  refine ⟨isIndex, keeps.size, ?_, fun op member => ?_⟩
  · rw [topIndex_append, if_pos rfl, keeps.top]
  · cases List.mem_append.mp member with
    | inl before => exact keeps.ops op before
    | inr last =>
        rw [List.mem_singleton.mp last]
        exact ⟨isIndex, by rw [if_pos rfl]⟩

end Reading.Keeps

theorem readRequest_keeps {reading next : Reading} {type : RequestType} {rest later : List UInt8}
    (keeps : reading.Keeps) (isRequest : type ≠ .free)
    (run : readRequest reading type rest = .ok (next, later)) : next.Keeps := by
  unfold readRequest at run
  have isIndex := scanUnsigned_isInt rest
  split at run
  case h_1 rest' found =>
    obtain ⟨last, requested, run⟩ := bind_eq_ok_iff.mp run
    cases run
    exact keeps.request isRequest keeps.index keeps.size requested
  case h_2 index rest' found =>
    obtain ⟨last, requested, run⟩ := bind_eq_ok_iff.mp run
    cases run
    rw [found] at isIndex
    exact keeps.request isRequest (isIndex index rfl)
      (isInt_or (scanUnsigned_isInt rest') keeps.size) requested

theorem readFree_keeps {reading : Reading} (rest : List UInt8) (keeps : reading.Keeps) :
    (readFree reading rest).1.Keeps := by
  unfold readFree
  have isIndex := scanUnsigned_isInt rest
  split
  case h_1 => exact keeps.free keeps.index
  case h_2 index rest' found =>
    rw [found] at isIndex
    exact keeps.free (isIndex index rfl)

theorem readOp_keeps {source : Source} {reading next : Reading} {word rest later : List UInt8}
    (keeps : reading.Keeps) (run : readOp source reading word rest = .ok (next, later)) :
    next.Keeps := by
  unfold readOp at run
  split at run
  case isTrue => cases run
  case isFalse =>
    dsimp only at run
    split at run
    case isTrue => exact readRequest_keeps keeps (by decide) run
    case isFalse =>
      split at run
      case isTrue => exact readRequest_keeps keeps (by decide) run
      case isFalse =>
        split at run
        case isTrue =>
          have read := readFree_keeps rest keeps
          rw [Except.ok.inj run] at read
          exact read
        case isFalse => cases run

theorem readOps_keeps {source : Source} {count : Nat} {reading last : Reading}
    {rest : List UInt8} (keeps : reading.Keeps)
    (run : readOps source count reading rest = .ok last) : last.Keeps := by
  induction count generalizing reading rest with
  | zero =>
      cases run
      exact keeps
  | succ count ih =>
      rw [readOps] at run
      split at run
      case h_1 =>
        cases run
        exact keeps
      case h_2 =>
        obtain ⟨⟨next, later⟩, read, run⟩ := bind_eq_ok_iff.mp run
        exact ih (readOp_keeps keeps read) run

theorem readNone_keeps {source : Source} {rest : List UInt8} {last : Reading}
    (run : readNone source rest = .ok last) : last.Keeps := by
  unfold readNone at run
  split at run
  case h_1 =>
    cases run
    exact .initial
  case h_2 =>
    obtain ⟨_, _, run⟩ := bind_eq_ok_iff.mp run
    cases run

theorem stored_eq_ok {value : Option Int} {result : Int} :
    stored value = .ok result ↔ value = some result := by
  cases value with
  | none => simp [stored]
  | some value => simp [stored]

theorem readBody_readable {source : Source} {weight numIds numOps ignoreRanges : Option Int}
    {loop : Int → Except Stop Reading} {trace : Trace} (isIds : ∀ value ∈ numIds, IsInt value)
    (isOps : ∀ value ∈ numOps, IsInt value)
    (looped : ∀ count last, loop count = .ok last → last.Keeps)
    (run : readBody source weight numIds numOps ignoreRanges loop = .ok trace) :
    trace.Readable source := by
  unfold readBody at run
  obtain ⟨weight, isWeight, run⟩ := bind_eq_ok_iff.mp run
  split at run
  case isTrue => cases run
  case isFalse goodWeight =>
    obtain ⟨ignoreRanges, isRanges, run⟩ := bind_eq_ok_iff.mp run
    split at run
    case isTrue => cases run
    case isFalse goodRanges =>
      obtain ⟨numOps, hasOps, run⟩ := bind_eq_ok_iff.mp run
      split at run
      case isTrue => cases run
      case isFalse =>
        obtain ⟨numIds, hasIds, run⟩ := bind_eq_ok_iff.mp run
        split at run
        case isTrue => cases run
        case isFalse =>
          obtain ⟨last, read, run⟩ := bind_eq_ok_iff.mp run
          split at run
          case isFalse => cases run
          case isTrue same =>
            cases run
            have keeps := looped numOps last read
            have isWeight' : weight = 0 ∨ weight = 1 := by omega
            have isRanges' : ignoreRanges = 0 ∨ ignoreRanges = 1 := by omega
            refine ⟨rfl, isWeight', isRanges', ?_, isIds _ (stored_eq_ok.mp hasIds), ?_, keeps.ops⟩
            · exact same.2 ▸ isOps _ (stored_eq_ok.mp hasOps)
            · exact keeps.top.symm.trans same.1

theorem readTrace_readable {source : Source} {text : List UInt8} {trace : Trace}
    (run : readTrace source text = .ok trace) : trace.Readable source := by
  refine readBody_readable (scanInt_isInt _) (scanInt_isInt _) (fun count last read => ?_) run
  split at read
  case isTrue => exact readNone_keeps read
  case isFalse => exact readOps_keeps .initial read

/-! ## What is printed -/

theorem offsetT_u64 {size : Int} (isInt : IsInt size) : offsetT (u64 size) = size := by
  unfold IsInt intMin intMax at isInt
  unfold offsetT u64
  rw [Int.bmod_def]
  split <;> omega

theorem TraceOp.Proper.line_inRange {op : TraceOp} (proper : op.Proper) : op.line.InRange := by
  refine ⟨proper.index, fun size member => ?_⟩
  unfold TraceOp.line at member
  have sized := proper.size
  split at member
  case isTrue => simp at member
  case isFalse isRequest =>
    rw [if_neg isRequest] at sized
    obtain ⟨value, isInt, isSize⟩ := sized
    rw [← Option.mem_some.mp member, isSize, offsetT_u64 isInt]
    exact isInt

theorem line_reads {reading : Reading} {op : TraceOp} (keeps : reading.Keeps)
    (proper : op.Proper) : ∃ next, reading.line op.line = .ok next ∧ next.Keeps ∧
      next.ops = reading.ops ++ [op] := by
  obtain ⟨type, index, size⟩ := op
  obtain ⟨isIndex, isSize⟩ := proper
  have request : type ≠ .free → ∃ next,
      reading.request type index (some (offsetT size)) = .ok next ∧ next.Keeps ∧
        next.ops = reading.ops ++ [⟨type, index, size⟩] := by
    intro isRequest
    rw [if_neg isRequest] at isSize
    obtain ⟨value, isInt, same⟩ := isSize
    dsimp only at same
    subst same
    rw [offsetT_u64 isInt]
    exact ⟨_, rfl, keeps.request isRequest isIndex
      (fun other member => Option.mem_some.mp member ▸ isInt) rfl, rfl⟩
  cases type with
  | free =>
      have same : size = 0 := by simpa using isSize
      subst same
      exact ⟨_, rfl, keeps.free isIndex, rfl⟩
  | alloc => exact request (by decide)
  | realloc => exact request (by decide)

/-- The lines of a trace are read as its requests. -/
theorem foldlM_lines {ops : List TraceOp} {reading : Reading} (keeps : reading.Keeps)
    (proper : ∀ op ∈ ops, op.Proper) :
    ∃ last, (ops.map TraceOp.line).foldlM Reading.line reading = .ok last ∧ last.Keeps ∧
      last.ops = reading.ops ++ ops := by
  induction ops generalizing reading with
  | nil => exact ⟨reading, rfl, keeps, (List.append_nil _).symm⟩
  | cons op ops ih =>
      have own := proper op List.mem_cons_self
      have others := fun other member => proper other (List.mem_cons_of_mem op member)
      obtain ⟨next, run, keeps', entered⟩ : ∃ next, reading.line op.line = .ok next ∧ next.Keeps ∧
          next.ops = reading.ops ++ [op] := line_reads keeps own
      obtain ⟨last, run', keeps'', ops'⟩ := ih keeps' others
      refine ⟨last, ?_, keeps'', ?_⟩
      · rw [List.map_cons, List.foldlM_cons, run, ok_bind]
        exact run'
      · rw [ops', entered, List.append_assoc, List.singleton_append]

theorem readTrace_print_self {source : Source} {trace : Trace}
    (readable : trace.Readable source) : readTrace source trace.print = .ok trace := by
  obtain ⟨filename, weight, numIds, ignoreRanges, ops⟩ := trace
  obtain ⟨isName, isWeight, isRanges, isOps, isIds, top, proper⟩ := readable
  dsimp only at isName isWeight isRanges isOps isIds top proper
  obtain ⟨last, run, keeps, entered⟩ := foldlM_lines .initial proper
  have length : (ops.map TraceOp.line).length = ops.length := List.length_map _
  have inRange : ∀ line ∈ ops.map TraceOp.line, line.InRange := by
    intro line member
    obtain ⟨op, inside, rfl⟩ := List.mem_map.mp member
    exact (proper op inside).line_inRange
  have small : IsInt weight ∧ IsInt ignoreRanges := by
    unfold IsInt intMin intMax
    omega
  have entered' : last.ops = ops := entered
  have isTop : last.maxIndex = numIds - 1 := by rw [keeps.top, entered', top]
  have nonnegative := topIndex_nonneg ops
  unfold Trace.print
  rw [readTrace_print source small.1 isIds (length ▸ isOps) small.2 inRange, length]
  have goodWeight : ¬ (weight ≠ 0 ∧ weight ≠ 1) := by omega
  have goodRanges : ¬ (ignoreRanges ≠ 0 ∧ ignoreRanges ≠ 1) := by omega
  have goodOps : ¬ (ops.length : Int) < 0 := by omega
  have goodIds : ¬ numIds < 0 := by omega
  have asserted : last.maxIndex = numIds - 1 ∧ (ops.length : Int) = last.ops.length :=
    ⟨isTop, by rw [entered']⟩
  simp only [readBody, stored, ok_bind, if_neg goodWeight, if_neg goodRanges, if_neg goodOps,
    if_neg goodIds, run]
  rw [if_pos asserted, pure_eq_ok, entered', isName]

/-- The traces that `read_trace` accepts are those of the right shape, and it reads
each of them from the text that is printed for it. -/
theorem readTrace_accepts_iff (source : Source) (trace : Trace) :
    ((∃ text, readTrace source text = .ok trace) ↔ trace.Readable source) ∧
      (trace.Readable source → readTrace source trace.print = .ok trace) := by
  refine ⟨⟨fun accepted => ?_, fun readable => ⟨_, readTrace_print_self readable⟩⟩,
    readTrace_print_self⟩
  obtain ⟨text, run⟩ := accepted
  exact readTrace_readable run

end OsPractices.Mdriver
