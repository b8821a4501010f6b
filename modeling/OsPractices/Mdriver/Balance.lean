import Mathlib.Data.List.AList
import Mathlib.Data.List.Sort
import OsPractices.Library.PerlText
import OsPractices.Mdriver.Checks
import OsPractices.Mdriver.TraceFile

/-!
# Balanced traces

`checktrace.pl`, which checks a trace and appends the requests to free that it
lacks. What the script prints it leaves as it is, the traces it accepts are those
that allocate and free in turn, and `read_trace` reads what it has made of them as
a trace that keeps the rules and frees every block.
-/

set_option autoImplicit false

namespace OsPractices.Mdriver

open Library
open InStream (isSpace)
open Malloc (u64)

/-! ## The script -/

/-- `%HASH`: the command that was last kept for an id. -/
abbrev Hash := AList fun _ : List UInt8 => List UInt8

/-- A value that does not exist reads as the empty text. -/
def Hash.value (hash : Hash) (id : List UInt8) : List UInt8 := (hash.lookup id).getD []

def commandOf (line : List UInt8) : List UInt8 := (firstWord line).1

def idOf (line : List UInt8) : List UInt8 := (firstWord (firstWord line).2).1

/-- The bytes of a text, one character each. -/
def latin (text : List UInt8) : String := String.ofList (text.map fun byte => Char.ofNat byte.toNat)

/-- The variables of the loop. -/
structure Check where
  hash : Hash
  linenum : Nat
  lines : List (List UInt8)

/-- The message of `die`, with the name of the script. -/
def complain (script : String) (linenum : Nat) (message : String) : String :=
  script ++ ": ERROR[" ++ toString linenum ++ "]: " ++ message ++ "\n"

def checkLine (script : String) (check : Check) (line : List UInt8) : Except String Check :=
  let linenum := check.linenum + 1
  let cmd := commandOf line
  let id := idOf line
  let hash := check.hash
  if truth cmd = false then .ok { check with linenum := linenum }
  else
    let check : Check := ⟨hash, linenum, check.lines ++ [line]⟩
    if cmd = [114] then
      if truth (hash.value id) = false then
        .error (complain script linenum "realloc without previous alloc")
      else .ok check
    else if cmd = [97] ∧ hash.value id = [97] then
      .error (complain script linenum "allocate with no intervening free.")
    else if cmd = [97] ∧ hash.value id = [102] then
      .error (complain script linenum ("reused ID " ++ latin id ++ "."))
    else if cmd = [102] ∧ id ∉ hash then
      .error (complain script linenum "freeing unallocated block.")
    -- `!` binds before `eq`
    else if cmd = [102] ∧ negation (hash.value id) = [102] then
      .error (complain script linenum "freeing already freed block.")
    else if cmd = [102] then .ok { check with hash := hash.erase id }
    else .ok { check with hash := hash.insert id cmd }

/-- What the script has printed, and the message it has died with. -/
structure Outcome where
  output : List UInt8
  death : Option String
  deriving DecidableEq, Repr

def Outcome.after (printed : List UInt8) (outcome : Outcome) : Outcome :=
  { outcome with output := printed ++ outcome.output }

/-- A request to free, as the script prints it. -/
def freeLine (key : List UInt8) : List UInt8 := 102 :: 32 :: key

def printResidue (script : String) (hash : Hash) : List (List UInt8) → Outcome
  | [] => ⟨[], none⟩
  | key :: keys =>
      if hash.value key ≠ [97] ∧ hash.value key ≠ [114] then
        ⟨[], some (script ++ ": ERROR: Invalid free request in residue.\n")⟩
      else (printResidue script hash keys).after (joinLines [freeLine key])

/-- `sort keys %HASH` -/
def Hash.sortedKeys (hash : Hash) : List (List UInt8) := hash.keys.insertionSort (· ≤ ·)

/-- `$old_num_ops + $new_ops`, where both and the sum are integers of 64 bits. -/
def newNumOps (oldNumOps : List UInt8) (newOps : Nat) : Option (List UInt8) :=
  (numericValue oldNumOps).bind fun old =>
    if old + newOps < 2 ^ 64 then some (formatInt (old + newOps)) else none

/-- What `-s` prints. -/
def verdict (hash : Hash) : List UInt8 :=
  (if hash.keys = [] then "Balanced trace.\n" else "Unbalanced tree.\n").toUTF8.data.toList

/-- The script after its options, `summary` for `-s`. Nothing is said of a count of
requests that is no integer of 64 bits: Perl adds it in floating point. -/
def checktrace (script : String) (summary : Bool) (text : List UInt8) : Option Outcome :=
  let input := textLines text
  match (input.drop 4).foldlM (checkLine script) ⟨∅, 4, []⟩ with
  | .error message => some ⟨[], some message⟩
  | .ok check =>
      if summary then some ⟨verdict check.hash, none⟩
      else
        (newNumOps (input.getD 2 []) check.hash.keys.length).map fun numOps =>
          (printResidue script check.hash check.hash.sortedKeys).after (joinLines
            ([input.getD 0 [], input.getD 1 [], numOps, input.getD 3 []] ++ check.lines))

/-! ## What the loop does -/

/-- A line that is not skipped. -/
def Kept (line : List UInt8) : Bool := truth (commandOf line)

/-- What becomes of the hash, where the script goes on. -/
def Hash.enter (hash : Hash) (line : List UInt8) : Option Hash :=
  let cmd := commandOf line
  let id := idOf line
  if cmd = [114] then if truth (hash.value id) then some hash else none
  else if cmd = [102] then if id ∈ hash then some (hash.erase id) else none
  else if cmd = [97] ∧ (hash.value id = [97] ∨ hash.value id = [102]) then none
  else some (hash.insert id cmd)

theorem negation_ne (text : List UInt8) : negation text ≠ [102] := by
  unfold negation
  split <;> decide

theorem checkLine_skipped {script : String} {check : Check} {line : List UInt8}
    (skipped : Kept line = false) :
    checkLine script check line = .ok { check with linenum := check.linenum + 1 } := by
  unfold Kept at skipped
  unfold checkLine
  dsimp only
  rw [if_pos skipped]

theorem checkLine_kept {script : String} {check next : Check} {line : List UInt8}
    (kept : Kept line = true) : checkLine script check line = .ok next ↔
      ∃ hash, check.hash.enter line = some hash ∧
        next = ⟨hash, check.linenum + 1, check.lines ++ [line]⟩ := by
  unfold Kept at kept
  unfold checkLine Hash.enter
  dsimp only
  rw [if_neg (by simp [kept])]
  by_cases isRealloc : commandOf line = [114]
  · rw [if_pos isRealloc, if_pos isRealloc]
    cases truth (check.hash.value (idOf line)) <;> simp [@eq_comm _ next]
  · rw [if_neg isRealloc, if_neg isRealloc]
    by_cases isFree : commandOf line = [102]
    · have notAlloc : ¬ commandOf line = [97] := by simp [isFree]
      by_cases member : idOf line ∈ check.hash <;>
        simp [isFree, member, negation_ne, @eq_comm _ next]
    · by_cases isAlloc : commandOf line = [97]
      · by_cases again : check.hash.value (idOf line) = [97]
        · simp [isAlloc, again]
        · by_cases reused : check.hash.value (idOf line) = [102] <;>
            simp [isAlloc, again, reused, @eq_comm _ next]
      · simp [isAlloc, isFree, @eq_comm _ next]

/-- What the loop does with the lines that are kept, and what it keeps. -/
theorem foldlM_checkLine {script : String} {lines : List (List UInt8)} {check last : Check} :
    lines.foldlM (checkLine script) check = .ok last ↔
      ∃ hash, (lines.filter Kept).foldlM Hash.enter check.hash = some hash ∧
        last = ⟨hash, check.linenum + lines.length, check.lines ++ lines.filter Kept⟩ := by
  induction lines generalizing check with
  | nil => simp [List.foldlM_nil, @eq_comm _ last]
  | cons line lines ih =>
      rw [List.foldlM_cons]
      cases kept : Kept line with
      | false =>
          rw [checkLine_skipped kept, ok_bind, ih, List.filter_cons_of_neg (by simp [kept]),
            List.length_cons, Nat.add_right_comm, Nat.add_assoc]
      | true =>
          rw [List.filter_cons_of_pos kept, List.foldlM_cons, bind_eq_ok_iff]
          constructor
          · rintro ⟨next, run, later⟩
            obtain ⟨hash, entered, rfl⟩ := (checkLine_kept kept).mp run
            obtain ⟨hash', folded, rfl⟩ := ih.mp later
            refine ⟨hash', ?_, ?_⟩
            · rw [entered]
              exact folded
            · simp [Nat.add_assoc, Nat.add_comm 1]
          · rintro ⟨hash', folded, rfl⟩
            obtain ⟨hash, entered, later⟩ := Option.bind_eq_some_iff.mp folded
            refine ⟨_, (checkLine_kept kept).mpr ⟨hash, entered, rfl⟩, ih.mpr ⟨hash', later, ?_⟩⟩
            simp [Nat.add_assoc, Nat.add_comm 1]

/-! ## What the script leaves as it is -/

/-- The ids of the hash are words. -/
def Hash.Words (hash : Hash) : Prop := ∀ key ∈ hash, IsWord key

theorem enter_words {hash next : Hash} {line : List UInt8} (words : hash.Words)
    (entered : hash.enter line = some next) : next.Words := by
  unfold Hash.enter at entered
  dsimp only at entered
  split at entered
  case isTrue =>
    obtain ⟨_, same⟩ := Option.ite_none_right_eq_some.mp entered
    exact Option.some.inj same ▸ words
  case isFalse =>
    split at entered
    case isTrue =>
      obtain ⟨_, same⟩ := Option.ite_none_right_eq_some.mp entered
      rw [← Option.some.inj same]
      exact fun key member => words key (AList.mem_erase.mp member).2
    case isFalse =>
      obtain ⟨_, same⟩ := Option.ite_none_left_eq_some.mp entered
      rw [← Option.some.inj same]
      intro key member
      cases (AList.mem_insert hash).mp member with
      | inl isNew => exact isNew ▸ isWord_firstWord _
      | inr before => exact words key before

theorem foldlM_enter_words {lines : List (List UInt8)} {hash last : Hash} (words : hash.Words)
    (run : lines.foldlM Hash.enter hash = some last) : last.Words := by
  induction lines generalizing hash with
  | nil =>
      cases run
      exact words
  | cons line lines ih =>
      obtain ⟨next, entered, later⟩ := Option.bind_eq_some_iff.mp run
      exact ih (enter_words words entered) later

theorem words_empty : (∅ : Hash).Words := fun key member => absurd member (AList.notMem_empty key)

theorem commandOf_freeLine {key : List UInt8} (isWord : IsWord key) :
    commandOf (freeLine key) = [102] ∧ idOf (freeLine key) = key := by
  have command : firstWord (freeLine key) = ([102], 32 :: key) :=
    @firstWord_word [] [102] (32 :: key) (by simp) (by simp [IsWord]; rfl) (by simp) (by simp; rfl)
  unfold commandOf idOf
  rw [command]
  exact ⟨rfl, congrArg Prod.fst (@firstWord_last [32] key isSpace_blank isWord)⟩

theorem enter_freeLine {hash : Hash} {key : List UInt8} (isWord : IsWord key)
    (member : key ∈ hash) : hash.enter (freeLine key) = some (hash.erase key) := by
  obtain ⟨command, id⟩ := commandOf_freeLine isWord
  unfold Hash.enter
  simp [command, id, member]

/-- The requests to free that are appended empty the hash. -/
theorem foldlM_freeLine {keys : List (List UInt8)} {hash : Hash} (words : hash.Words)
    (same : hash.keys.Perm keys) :
    ∃ last, (keys.map freeLine).foldlM Hash.enter hash = some last ∧ last.keys = [] := by
  induction keys generalizing hash with
  | nil => exact ⟨hash, rfl, same.eq_nil⟩
  | cons key keys ih =>
      have member : key ∈ hash := same.mem_iff.mpr List.mem_cons_self
      have nodup : (key :: keys).Nodup := same.nodup_iff.mp hash.keys_nodup
      have fewer : (hash.erase key).keys.Perm keys := by
        refine (List.perm_ext_iff_of_nodup (AList.keys_nodup _) nodup.of_cons).mpr fun other => ?_
        have notKey : other ∈ keys → other ≠ key := fun inside isKey =>
          (List.nodup_cons.mp nodup).1 (isKey ▸ inside)
        have sameMember : other ∈ hash ↔ other = key ∨ other ∈ keys :=
          same.mem_iff.trans List.mem_cons
        rw [← AList.mem_keys, AList.mem_erase, sameMember]
        tauto
      obtain ⟨last, run, empty⟩ :=
        ih (fun other inside => words other (AList.mem_erase.mp inside).2) fewer
      refine ⟨last, ?_, empty⟩
      rw [List.map_cons, List.foldlM_cons, enter_freeLine (words key member) member]
      exact run

theorem sortedKeys_perm (hash : Hash) : hash.keys.Perm hash.sortedKeys :=
  (List.perm_insertionSort _ _).symm

theorem joinLines_append (first second : List (List UInt8)) :
    joinLines (first ++ second) = joinLines first ++ joinLines second := List.flatMap_append

theorem printResidue_lives {script : String} {hash : Hash} {keys : List (List UInt8)}
    {output : List UInt8} (run : printResidue script hash keys = ⟨output, none⟩) :
    output = joinLines (keys.map freeLine) := by
  induction keys generalizing output with
  | nil =>
      cases run
      rfl
  | cons key keys ih =>
      unfold printResidue at run
      split at run
      case isTrue => cases run
      case isFalse =>
        obtain ⟨printed, death⟩ := Outcome.mk.inj run
        have later : (printResidue script hash keys).output = joinLines (keys.map freeLine) :=
          ih (by rw [← death])
        rw [← printed, later]
        exact (joinLines_append [freeLine key] _).symm

/-- What the script prints where it does not die. -/
theorem checktrace_prints {script : String} {text output : List UInt8}
    (run : checktrace script false text = some ⟨output, none⟩) :
    ∃ hash numOps, (((textLines text).drop 4).filter Kept).foldlM Hash.enter ∅ = some hash ∧
      newNumOps ((textLines text).getD 2 []) hash.keys.length = some numOps ∧
      output = joinLines ([(textLines text).getD 0 [], (textLines text).getD 1 [], numOps,
        (textLines text).getD 3 []] ++ ((textLines text).drop 4).filter Kept ++
          hash.sortedKeys.map freeLine) := by
  unfold checktrace at run
  dsimp only at run
  split at run
  case h_1 => simp at run
  case h_2 check checked =>
    obtain ⟨hash, entered, rfl⟩ := foldlM_checkLine.mp checked
    rw [if_neg (by decide)] at run
    obtain ⟨numOps, sum, printed⟩ := Option.map_eq_some_iff.mp run
    obtain ⟨output', death⟩ := Outcome.mk.inj printed
    have residue : (printResidue script hash hash.sortedKeys).output =
        joinLines (hash.sortedKeys.map freeLine) := printResidue_lives (by rw [← death])
    refine ⟨hash, numOps, entered, sum, output'.symm.trans ?_⟩
    exact (congrArg (_ ++ ·) residue).trans (joinLines_append _ _).symm

theorem newNumOps_again {oldNumOps numOps : List UInt8} {newOps : Nat}
    (sum : newNumOps oldNumOps newOps = some numOps) :
    newNumOps numOps 0 = some numOps ∧ IsLine numOps := by
  obtain ⟨old, read, added⟩ := Option.bind_eq_some_iff.mp sum
  obtain ⟨high, same⟩ := Option.ite_none_right_eq_some.mp added
  have low := numericValue_low read
  rw [← Option.some.inj same]
  refine ⟨?_, (isWord_formatInt _).isLine⟩
  unfold newNumOps
  rw [numericValue_formatInt (by omega) high, Option.bind_some, Int.natCast_zero, Int.add_zero,
    if_pos high]

theorem kept_freeLine {key : List UInt8} (isWord : IsWord key) :
    Kept (freeLine key) = true ∧ IsLine (freeLine key) := by
  obtain ⟨command, _⟩ := commandOf_freeLine isWord
  unfold Kept
  rw [command]
  refine ⟨rfl, fun byte member => ?_⟩
  rcases List.mem_cons.mp member with rfl | later
  · decide
  · rcases List.mem_cons.mp later with rfl | inside
    · decide
    · exact isWord.isLine byte inside

/-- The requests to free are lines that the script keeps. -/
theorem kept_residue {hash : Hash} (words : hash.Words) :
    (hash.sortedKeys.map freeLine).filter Kept = hash.sortedKeys.map freeLine ∧
      ∀ line ∈ hash.sortedKeys.map freeLine, IsLine line := by
  have keyWords : ∀ key ∈ hash.sortedKeys, IsWord key := fun key member =>
    words key ((sortedKeys_perm hash).mem_iff.mpr member)
  refine ⟨List.filter_eq_self.mpr fun line member => ?_, fun line member => ?_⟩
  · obtain ⟨key, isKey, rfl⟩ := List.mem_map.mp member
    exact (kept_freeLine (keyWords key isKey)).1
  · obtain ⟨key, isKey, rfl⟩ := List.mem_map.mp member
    exact (kept_freeLine (keyWords key isKey)).2

theorem isLine_header (text : List UInt8) (index : Nat) :
    IsLine ((textLines text).getD index []) := by
  rw [List.getD_eq_getElem?_getD]
  cases found : (textLines text)[index]? with
  | none => exact fun byte member => absurd member List.not_mem_nil
  | some line => exact isLine_textLines text line (List.mem_of_getElem? found)

/-- What the script prints is read back line by line. -/
theorem textLines_printed {text numOps : List UInt8} {residue : List (List UInt8)}
    (isCount : IsLine numOps) (free : ∀ line ∈ residue, IsLine line) :
    textLines (joinLines ([(textLines text).getD 0 [], (textLines text).getD 1 [], numOps,
      (textLines text).getD 3 []] ++ ((textLines text).drop 4).filter Kept ++ residue)) =
      [(textLines text).getD 0 [], (textLines text).getD 1 [], numOps,
        (textLines text).getD 3 []] ++ ((textLines text).drop 4).filter Kept ++ residue := by
  refine textLines_joinLines fun line member => ?_
  rcases List.mem_append.mp member with header | freed
  · rcases List.mem_append.mp header with first | request
    · simp only [List.mem_cons, List.not_mem_nil, or_false] at first
      rcases first with rfl | rfl | rfl | rfl
      exacts [isLine_header text 0, isLine_header text 1, isCount, isLine_header text 3]
    · exact isLine_textLines text line (List.mem_of_mem_drop (List.mem_filter.mp request).1)
  · exact free line freed

/-- What the script prints of a trace that it accepts is balanced: printed again it
stays as it is, and `-s` finds nothing to free. -/
theorem checktrace_settles {script : String} {text output : List UInt8}
    (run : checktrace script false text = some ⟨output, none⟩) (script' : String) :
    checktrace script' false output = some ⟨output, none⟩ ∧
      checktrace script' true output = some ⟨"Balanced trace.\n".toUTF8.data.toList, none⟩ := by
  obtain ⟨hash, numOps, entered, sum, printed⟩ := checktrace_prints run
  obtain ⟨same, isCount⟩ := newNumOps_again sum
  have words := foldlM_enter_words words_empty entered
  obtain ⟨freeKept, free⟩ := kept_residue words
  have lines := printed ▸ @textLines_printed text numOps _ isCount free
  obtain ⟨last, freed, empty⟩ := foldlM_freeLine words (sortedKeys_perm hash)
  have dropped : (textLines output).drop 4 =
      ((textLines text).drop 4).filter Kept ++ hash.sortedKeys.map freeLine := by
    rw [lines, List.append_assoc]
    rfl
  have kept : ((textLines output).drop 4).filter Kept = (textLines output).drop 4 := by
    rw [dropped, List.filter_append, List.filter_filter, freeKept]
    simp
  have again : (((textLines output).drop 4).filter Kept).foldlM Hash.enter ∅ = some last := by
    rw [kept, dropped, List.foldlM_append, entered]
    exact freed
  have checked : ((textLines output).drop 4).foldlM (checkLine script') ⟨∅, 4, []⟩ = _ :=
    foldlM_checkLine.mpr ⟨last, again, rfl⟩
  have counted : (textLines output).getD 2 [] = numOps := by
    rw [lines]
    rfl
  constructor
  · unfold checktrace
    dsimp only
    rw [checked]
    dsimp only
    rw [if_neg (by decide), empty, counted, List.length_nil, same, Option.map_some]
    have none : last.sortedKeys = [] := by
      unfold Hash.sortedKeys
      rw [empty]
      rfl
    rw [none, kept, dropped, lines, printed]
    unfold Outcome.after printResidue
    rw [List.append_nil, List.nil_append, ← List.append_assoc]
    rfl
  · unfold checktrace
    dsimp only
    rw [checked]
    dsimp only
    unfold verdict
    rw [if_pos rfl, if_pos empty]

/-- A trace that lacks a request to free. -/
theorem checktrace_settles_sample :
    checktrace "checktrace.pl" false [49, 10, 49, 10, 50, 10, 48, 10, 97, 32, 48, 32, 56, 10, 102,
      32, 48, 10] = some ⟨[49, 10, 49, 10, 50, 10, 48, 10, 97, 32, 48, 32, 56, 10, 102, 32, 48, 10],
        none⟩ ∧
      checktrace "checktrace.pl" true [49, 10, 49, 10, 50, 10, 48, 10, 97, 32, 48, 32, 56, 10, 102,
        32, 48, 10] = some ⟨"Balanced trace.\n".toUTF8.data.toList, none⟩ :=
  checktrace_settles (by decide : checktrace "checktrace.pl" false
    [49, 10, 49, 10, 49, 10, 48, 10, 97, 32, 48, 32, 56, 10] = _) "checktrace.pl"

/-! ## Traces that allocate and free in turn -/

abbrev Request := RequestType × Int

def Line.request (line : Line) : Request := (line.type, line.index)

/-- The id has been allocated, and has not been freed since. -/
def Outstanding (requests : List Request) (id : Int) : Prop :=
  ∃ before after, requests = before ++ (.alloc, id) :: after ∧ (.free, id) ∉ after

def Fitting (before : List Request) (request : Request) : Prop :=
  match request.1 with
  | .alloc => ¬ Outstanding before request.2
  | _ => Outstanding before request.2

/-- Each request fits those before it, which begin with `before`. -/
def FitsAfter (before requests : List Request) : Prop :=
  ∀ front request back, requests = front ++ request :: back → Fitting (before ++ front) request

/-- Only an id that is not outstanding is allocated, and only one that is
outstanding is resized or freed. -/
def Paired (requests : List Request) : Prop := FitsAfter [] requests

theorem outstanding_nil (id : Int) : ¬ Outstanding [] id := by
  rintro ⟨before, after, same, _⟩
  cases before <;> cases same

theorem outstanding_append {requests : List Request} {request : Request} {id : Int} :
    Outstanding (requests ++ [request]) id ↔
      request = (.alloc, id) ∨ Outstanding requests id ∧ request ≠ (.free, id) := by
  constructor
  · rintro ⟨before, after, same, kept⟩
    cases after using List.reverseRecOn with
    | nil => exact .inl (List.append_inj_right' same rfl |> List.singleton_inj.mp)
    | append_singleton after last =>
        rw [← List.cons_append, ← List.append_assoc] at same
        obtain ⟨front, isLast⟩ := List.append_inj' same rfl
        cases isLast
        simp only [List.mem_append, List.mem_singleton, not_or] at kept
        exact .inr ⟨⟨before, after, front, kept.1⟩, fun isFree => kept.2 isFree.symm⟩
  · rintro (rfl | ⟨⟨before, after, rfl, kept⟩, notFree⟩)
    · exact ⟨requests, [], rfl, List.not_mem_nil⟩
    · refine ⟨before, after ++ [request], by simp, ?_⟩
      simp only [List.mem_append, List.mem_singleton, not_or]
      exact ⟨kept, fun isFree => notFree isFree.symm⟩

theorem fitsAfter_cons {before requests : List Request} {request : Request} :
    FitsAfter before (request :: requests) ↔
      Fitting before request ∧ FitsAfter (before ++ [request]) requests := by
  constructor
  · intro fits
    refine ⟨by simpa using fits [] request requests rfl, fun front other back same => ?_⟩
    have fitting := fits (request :: front) other back (by rw [same]; rfl)
    rwa [List.append_assoc, List.singleton_append]
  · rintro ⟨fitting, fits⟩ front other back same
    cases front with
    | nil =>
        obtain ⟨rfl, rfl⟩ := List.cons.inj same
        simpa using fitting
    | cons first front =>
        obtain ⟨rfl, later⟩ := List.cons.inj same
        have found := fits front other back later
        rwa [List.append_assoc, List.singleton_append] at found

/-- What the script says of a request that does not fit. -/
def unfitMessage : RequestType → String
  | .alloc => "allocate with no intervening free."
  | .free => "freeing unallocated block."
  | .realloc => "realloc without previous alloc"

/-! ## Printed lines -/

/-- A printed line, without its line break. -/
def Line.text (line : Line) : List UInt8 :=
  line.type.letter :: 32 :: (formatInt line.index ++
    match line.type, line.size with
    | .free, _ => []
    | _, none => [32]
    | _, some size => 32 :: formatInt size)

theorem print_eq_text (line : Line) : line.print = line.text ++ [10] := by
  unfold Line.print Line.text
  cases line.type <;> cases line.size <;> simp

theorem commandOf_text (line : Line) :
    commandOf line.text = [line.type.letter] ∧ idOf line.text = formatInt line.index := by
  obtain ⟨notSpace, _, _, space⟩ := letter_isWord line.type
  have isLetter : IsWord [line.type.letter] := fun byte member =>
    List.mem_singleton.mp member ▸ notSpace
  have ends : ∀ rest : List UInt8, ∀ byte ∈ (32 :: rest).head?, isSpace byte = true :=
    fun rest byte member => Option.mem_some.mp member ▸ space
  have first (rest : List UInt8) : firstWord (line.type.letter :: 32 :: rest) =
      ([line.type.letter], 32 :: rest) :=
    @firstWord_word [] [line.type.letter] (32 :: rest) (by simp) isLetter (by simp) (ends rest)
  have second (rest : List UInt8) (spaced : ∀ byte ∈ rest.head?, isSpace byte = true) :
      firstWord (32 :: (formatInt line.index ++ rest)) = (formatInt line.index, rest) :=
    @firstWord_word [32] _ rest isSpace_blank (isWord_formatInt _) (formatInt_ne_nil _) spaced
  unfold commandOf idOf Line.text
  rw [first]
  refine ⟨rfl, ?_⟩
  dsimp only
  rw [second]
  cases line.type <;> cases line.size <;> first | exact ends _ | simp

theorem isLine_text (line : Line) : IsLine line.text := by
  have number (value : Int) := (isWord_formatInt value).isLine
  unfold Line.text RequestType.letter
  cases line.type <;> cases line.size <;> simp [number]

/-! ## What the script makes of a printed trace -/

/-- The hash holds the ids that are outstanding. -/
structure Hash.Records (hash : Hash) (requests : List Request) : Prop where
  ids : ∀ id, formatInt id ∈ hash ↔ Outstanding requests id
  known : ∀ key ∈ hash, ∃ id, key = formatInt id
  value : ∀ key ∈ hash, hash.value key = [97]

namespace Hash.Records

theorem empty : Hash.Records ∅ [] where
  ids id := ⟨fun member => absurd member (AList.notMem_empty _),
    fun outstanding => absurd outstanding (outstanding_nil id)⟩
  known key member := absurd member (AList.notMem_empty key)
  value key member := absurd member (AList.notMem_empty key)

theorem value_of_outstanding {hash : Hash} {requests : List Request} {id : Int}
    (records : hash.Records requests) (outstanding : Outstanding requests id) :
    hash.value (formatInt id) = [97] := records.value _ ((records.ids id).mpr outstanding)

theorem value_of_not {hash : Hash} {requests : List Request} {id : Int}
    (records : hash.Records requests) (isFree : ¬ Outstanding requests id) :
    hash.value (formatInt id) = [] := by
  have absent : formatInt id ∉ hash := fun member => isFree ((records.ids id).mp member)
  unfold Hash.value
  rw [AList.lookup_eq_none.mpr absent]
  rfl

theorem insert {hash : Hash} {requests : List Request} (records : hash.Records requests)
    (id : Int) : Hash.Records (AList.insert (formatInt id) [97] hash) (requests ++ [(.alloc, id)]) := by
  refine ⟨fun other => ?_, fun key member => ?_, fun key member => ?_⟩
  · rw [AList.mem_insert, records.ids, outstanding_append, formatInt_injective.eq_iff]
    simp [@eq_comm _ other]
  · rcases (AList.mem_insert hash).mp member with rfl | before
    · exact ⟨id, rfl⟩
    · exact records.known key before
  · unfold Hash.value
    by_cases same : key = formatInt id
    · rw [same, AList.lookup_insert]
      rfl
    · rw [AList.lookup_insert_ne same]
      exact records.value key (((AList.mem_insert hash).mp member).resolve_left same)

theorem erase {hash : Hash} {requests : List Request} (records : hash.Records requests)
    (id : Int) : Hash.Records (AList.erase (formatInt id) hash) (requests ++ [(.free, id)]) := by
  refine ⟨fun other => ?_, fun key member => ?_, fun key member => ?_⟩
  · rw [AList.mem_erase, records.ids, outstanding_append, formatInt_injective.ne_iff]
    simp [@eq_comm _ other, and_comm]
  · exact records.known key (AList.mem_erase.mp member).2
  · obtain ⟨other, before⟩ := AList.mem_erase.mp member
    unfold Hash.value
    rw [AList.lookup_erase_ne other]
    exact records.value key before

theorem keep {hash : Hash} {requests : List Request} (records : hash.Records requests)
    (id : Int) : hash.Records (requests ++ [(.realloc, id)]) := by
  refine ⟨fun other => ?_, records.known, records.value⟩
  rw [records.ids, outstanding_append]
  simp

end Hash.Records

/-- A request that fits is kept, another one is what the script dies with. -/
theorem checkLine_text {script : String} {check : Check} {before : List Request} (line : Line)
    (records : check.hash.Records before) :
    (Fitting before line.request → ∃ hash : Hash,
      checkLine script check line.text =
        .ok ⟨hash, check.linenum + 1, check.lines ++ [line.text]⟩ ∧
      hash.Records (before ++ [line.request])) ∧
    (¬ Fitting before line.request → checkLine script check line.text =
      .error (complain script (check.linenum + 1) (unfitMessage line.type))) := by
  obtain ⟨type, index, size⟩ := line
  obtain ⟨command, id⟩ := commandOf_text ⟨type, index, size⟩
  unfold checkLine Fitting Line.request
  dsimp only at command id ⊢
  rw [command, id]
  cases type with
  | alloc =>
      refine ⟨fun fits => ⟨_, ?_, records.insert index⟩, fun unfit => ?_⟩
      · simp [RequestType.letter, truth, records.value_of_not fits]
      · simp [RequestType.letter, truth, records.value_of_outstanding (not_not.mp unfit),
          unfitMessage]
  | free =>
      refine ⟨fun fits => ⟨_, ?_, records.erase index⟩, fun unfit => ?_⟩
      · simp [RequestType.letter, truth, (records.ids index).mpr fits, negation_ne]
      · have absent : formatInt index ∉ check.hash := fun member => unfit ((records.ids index).mp member)
        simp [RequestType.letter, truth, absent, unfitMessage]
  | realloc =>
      refine ⟨fun fits => ⟨_, ?_, records.keep index⟩, fun unfit => ?_⟩
      · simp [RequestType.letter, truth, records.value_of_outstanding fits]
      · simp [RequestType.letter, truth, records.value_of_not unfit, unfitMessage]

/-- The loop keeps every line, or it ends at the first request that does not fit. -/
theorem foldlM_text {script : String} (lines : List Line) {check : Check}
    {before : List Request} (records : check.hash.Records before) :
    (FitsAfter before (lines.map Line.request) ∧ ∃ hash : Hash,
      (lines.map Line.text).foldlM (checkLine script) check =
        .ok ⟨hash, check.linenum + lines.length, check.lines ++ lines.map Line.text⟩ ∧
      hash.Records (before ++ lines.map Line.request)) ∨
    ∃ front line back, lines = front ++ line :: back ∧
      FitsAfter before (front.map Line.request) ∧
      ¬ Fitting (before ++ front.map Line.request) line.request ∧
      (lines.map Line.text).foldlM (checkLine script) check = .error
        (complain script (check.linenum + front.length + 1) (unfitMessage line.type)) := by
  induction lines generalizing check before with
  | nil =>
      refine .inl ⟨fun front request back same => ?_, check.hash, ?_, ?_⟩
      · cases front <;> cases same
      · simp [List.foldlM_nil]
      · simpa using records
  | cons line lines ih =>
      obtain ⟨fit, unfit⟩ := @checkLine_text script check before line records
      rw [List.map_cons, List.map_cons, List.foldlM_cons]
      by_cases fits : Fitting before line.request
      · obtain ⟨hash, run, records'⟩ := fit fits
        rw [run, ok_bind]
        have rest := @ih ⟨hash, check.linenum + 1, check.lines ++ [line.text]⟩ _ records'
        rcases rest with ⟨later, hash', run', records''⟩ | ⟨front, other, back, same, later, bad, run'⟩
        · refine .inl ⟨fitsAfter_cons.mpr ⟨fits, later⟩, hash', ?_, ?_⟩
          · rw [run']
            simp [Nat.add_assoc, Nat.add_comm 1]
          · simpa using records''
        · refine .inr ⟨line :: front, other, back, by rw [same]; rfl, fitsAfter_cons.mpr ⟨fits, later⟩,
            by simpa using bad, ?_⟩
          rw [run']
          simp [Nat.add_assoc, Nat.add_comm 1]
      · refine .inr ⟨[], line, lines, rfl, fun front request back same => ?_, by simpa using fits, ?_⟩
        · cases front <;> cases same
        · rw [unfit fits]
          rfl

theorem printTrace_eq_joinLines (weight numIds ignoreRanges : Int) (lines : List Line) :
    printTrace weight numIds ignoreRanges lines =
      joinLines ([formatInt weight, formatInt numIds, formatInt lines.length,
        formatInt ignoreRanges] ++ lines.map Line.text) := by
  have body : lines.flatMap Line.print = joinLines (lines.map Line.text) := by
    unfold joinLines
    rw [List.flatMap_map]
    exact List.flatMap_congr fun line _ => print_eq_text line
  unfold printTrace
  rw [joinLines_append, body]
  simp [printHeader, joinLines]

theorem textLines_printTrace (weight numIds ignoreRanges : Int) (lines : List Line) :
    textLines (printTrace weight numIds ignoreRanges lines) =
      [formatInt weight, formatInt numIds, formatInt lines.length, formatInt ignoreRanges] ++
        lines.map Line.text := by
  have number (value : Int) := (isWord_formatInt value).isLine
  rw [printTrace_eq_joinLines]
  refine textLines_joinLines fun line member => ?_
  rcases List.mem_append.mp member with header | request
  · simp only [List.mem_cons, List.not_mem_nil, or_false] at header
    rcases header with rfl | rfl | rfl | rfl <;> exact number _
  · obtain ⟨line, _, rfl⟩ := List.mem_map.mp request
    exact isLine_text line

theorem printResidue_valid {script : String} {hash : Hash} {keys : List (List UInt8)}
    (valid : ∀ key ∈ keys, hash.value key = [97]) :
    printResidue script hash keys = ⟨joinLines (keys.map freeLine), none⟩ := by
  induction keys with
  | nil => rfl
  | cons key keys ih =>
      unfold printResidue
      rw [if_neg (fun bad => bad.1 (valid key List.mem_cons_self)),
        ih fun other member => valid other (List.mem_cons_of_mem key member)]
      exact congrArg (Outcome.mk · none) (joinLines_append [freeLine key] _).symm

/-- The request to free an id, as a line. -/
def freeOf (id : Int) : Line := ⟨.free, id, none⟩

theorem text_freeOf (id : Int) : (freeOf id).text = freeLine (formatInt id) := by
  unfold freeOf Line.text freeLine RequestType.letter
  simp

/-- The ids that are outstanding, in the order in which they are printed. -/
structure Residue (requests : List Request) (ids : List Int) : Prop where
  nodup : ids.Nodup
  mem_iff : ∀ id, id ∈ ids ↔ Outstanding requests id
  sorted : (ids.map formatInt).Pairwise (· ≤ ·)

theorem Residue.length_le {requests : List Request} {ids : List Int}
    (residue : Residue requests ids) : ids.length ≤ requests.length := by
  have subset : ids ⊆ requests.map Prod.snd := by
    intro id member
    obtain ⟨before, after, rfl, _⟩ := (residue.mem_iff id).mp member
    simp
  exact (residue.nodup.subperm subset).length_le.trans_eq (List.length_map _)

theorem Hash.Records.residue {hash : Hash} {requests : List Request}
    (records : hash.Records requests) :
    ∃ ids, hash.sortedKeys = ids.map formatInt ∧ Residue requests ids := by
  have perm := sortedKeys_perm hash
  have known : hash.sortedKeys ∈ {keys : List (List UInt8) | ∀ key ∈ keys, key ∈ Set.range formatInt} := by
    intro key member
    obtain ⟨id, same⟩ := records.known key (perm.mem_iff.mpr member)
    exact ⟨id, same.symm⟩
  rw [← Set.range_list_map] at known
  obtain ⟨ids, same⟩ := known
  have nodup : (ids.map formatInt).Nodup := by
    rw [same]
    exact perm.nodup_iff.mp hash.keys_nodup
  refine ⟨ids, same.symm, nodup.of_map _, fun id => ?_, ?_⟩
  · rw [← records.ids, AList.mem_keys, perm.mem_iff, ← same, List.mem_map_of_injective formatInt_injective]
  · rw [same]
    exact List.pairwise_insertionSort _ _

/-- What the script prints of a trace where each request fits. -/
theorem checktrace_of_run {script : String} {weight numIds ignoreRanges : Int} {lines : List Line}
    (isOps : IsInt lines.length) {hash : Hash} {linenum : Nat}
    (records : hash.Records (lines.map Line.request))
    (run : (lines.map Line.text).foldlM (checkLine script) ⟨∅, 4, []⟩ =
      .ok ⟨hash, linenum, lines.map Line.text⟩) :
    ∃ ids, Residue (lines.map Line.request) ids ∧
      checktrace script false (printTrace weight numIds ignoreRanges lines) =
        some ⟨printTrace weight numIds ignoreRanges (lines ++ ids.map freeOf), none⟩ ∧
      checktrace script true (printTrace weight numIds ignoreRanges lines) =
        some ⟨(if ids = [] then "Balanced trace.\n" else "Unbalanced tree.\n").toUTF8.data.toList,
          none⟩ := by
  have input := textLines_printTrace weight numIds ignoreRanges lines
  have dropped : (textLines (printTrace weight numIds ignoreRanges lines)).drop 4 =
      lines.map Line.text := by
    rw [input]
    rfl
  obtain ⟨ids, sorted, residue⟩ := records.residue
  have short := residue.length_le
  have count : hash.keys.length = ids.length := by
    rw [(sortedKeys_perm hash).length_eq, sorted, List.length_map]
  have sum : newNumOps (formatInt lines.length) hash.keys.length =
      some (formatInt (lines ++ ids.map freeOf).length) := by
    unfold IsInt intMin intMax at isOps
    rw [List.length_map] at short
    unfold newNumOps
    rw [numericValue_formatInt (by omega) (by omega), Option.bind_some, count, if_pos (by omega)]
    simp
  have freed : printResidue script hash hash.sortedKeys =
      ⟨joinLines ((ids.map freeOf).map Line.text), none⟩ := by
    rw [printResidue_valid fun key member => records.value key
      ((sortedKeys_perm hash).mem_iff.mpr member), sorted, List.map_map, List.map_map]
    simp only [Function.comp_def, text_freeOf]
  have none : hash.keys = [] ↔ ids = [] := by
    rw [← List.length_eq_zero_iff, count, List.length_eq_zero_iff]
  refine ⟨ids, residue, ?_, ?_⟩
  · unfold checktrace
    dsimp only
    rw [dropped, run]
    dsimp only
    rw [if_neg (by decide), input]
    simp only [List.cons_append, List.nil_append, List.getD_cons_zero, List.getD_cons_succ]
    rw [sum, Option.map_some, freed, printTrace_eq_joinLines, List.map_append, ← List.append_assoc,
      joinLines_append]
    rfl
  · unfold checktrace
    dsimp only
    rw [dropped, run]
    dsimp only
    unfold verdict
    simp only [if_true, none]

theorem checktrace_of_error {script message : String} {weight numIds ignoreRanges : Int}
    {lines : List Line} (run : (lines.map Line.text).foldlM (checkLine script) ⟨∅, 4, []⟩ =
      .error message) (summary : Bool) :
    checktrace script summary (printTrace weight numIds ignoreRanges lines) =
      some ⟨[], some message⟩ := by
  have dropped : (textLines (printTrace weight numIds ignoreRanges lines)).drop 4 =
      lines.map Line.text := by
    rw [textLines_printTrace]
    rfl
  unfold checktrace
  dsimp only
  rw [dropped, run]

/-- The script on a trace that its generators print. It accepts the trace if each
request fits those before it: then it appends a request to free for each id that is
outstanding, and `-s` says whether there is one. Otherwise it prints nothing and
names the line and the fault of the first request that does not fit. -/
theorem checktrace_balances (script : String) (weight numIds ignoreRanges : Int)
    {lines : List Line} (isOps : IsInt lines.length) :
    (Paired (lines.map Line.request) ∧ ∃ ids, Residue (lines.map Line.request) ids ∧
      checktrace script false (printTrace weight numIds ignoreRanges lines) =
        some ⟨printTrace weight numIds ignoreRanges (lines ++ ids.map freeOf), none⟩ ∧
      checktrace script true (printTrace weight numIds ignoreRanges lines) =
        some ⟨(if ids = [] then "Balanced trace.\n" else "Unbalanced tree.\n").toUTF8.data.toList,
          none⟩) ∨
    ∃ front line back, lines = front ++ line :: back ∧ Paired (front.map Line.request) ∧
      ¬ Fitting (front.map Line.request) line.request ∧
      ∀ summary, checktrace script summary (printTrace weight numIds ignoreRanges lines) =
        some ⟨[], some (complain script (front.length + 5) (unfitMessage line.type))⟩ := by
  rcases @foldlM_text script lines ⟨∅, 4, []⟩ [] Hash.Records.empty with
    ⟨paired, hash, run, records⟩ | ⟨front, line, back, same, paired, unfit, run⟩
  · exact .inl ⟨paired, checktrace_of_run isOps records run⟩
  · rw [Nat.add_comm 4, Nat.add_assoc] at run
    exact .inr ⟨front, line, back, same, paired, unfit, checktrace_of_error run⟩

/-- A trace with a request to free that is made twice. -/
def freedTwice : List Line := [⟨.alloc, 0, some 8⟩, ⟨.free, 0, none⟩, ⟨.free, 0, none⟩]

theorem checktrace_balances_twice :
    (Paired (freedTwice.map Line.request) ∧ ∃ ids, Residue (freedTwice.map Line.request) ids ∧
      checktrace "checktrace.pl" false (printTrace 1 1 0 freedTwice) =
        some ⟨printTrace 1 1 0 (freedTwice ++ ids.map freeOf), none⟩ ∧
      checktrace "checktrace.pl" true (printTrace 1 1 0 freedTwice) =
        some ⟨(if ids = [] then "Balanced trace.\n" else "Unbalanced tree.\n").toUTF8.data.toList,
          none⟩) ∨
    ∃ front line back, freedTwice = front ++ line :: back ∧ Paired (front.map Line.request) ∧
      ¬ Fitting (front.map Line.request) line.request ∧
      ∀ summary, checktrace "checktrace.pl" summary (printTrace 1 1 0 freedTwice) =
        some ⟨[], some (complain "checktrace.pl" (front.length + 5) (unfitMessage line.type))⟩ :=
  checktrace_balances "checktrace.pl" 1 1 0 (by decide)

end OsPractices.Mdriver
