import Mathlib.Data.UInt
import OsPractices.Keibot.Entries
import OsPractices.Library.Overlay

/-!
# Contents of a file

Reads and writes through a handle of a regular file, against an array over which
the writes are laid.
-/

set_option autoImplicit false

namespace OsPractices.Keibot

open Library

/-- The reply to a request, and `st_size` of the file after it. -/
structure Seen where
  reply : Reply
  size : Option Nat
  deriving DecidableEq, Repr

/-- A request, as the user of a handle sees it. -/
def observe (fh : Nat) (fs : FileSystem) (call : Call) : Option (FileSystem × List Seen) :=
  (fs.step call).map fun (next, replies) =>
    (next, replies.map fun reply => ⟨reply, (next.deref fh).map fun entry => entry.status.size⟩)

/-- The array model: a write lays its data over the array, a read gives the
slice that the array has. No array is longer than `PTRDIFF_MAX`. -/
def overlayStep (array : List UInt8) : Call → Option (List UInt8 × List Seen)
  | .write _ _ buf _ offset _ =>
      if ptrdiffMax < offset + buf.length then
        some (array, [⟨.code (-ENOMEM), some array.length⟩])
      else
        some (overlay array offset buf,
          [⟨.code buf.length, some (max array.length (offset + buf.length))⟩])
  | .read _ bytes offset =>
      some (array, [⟨.data (min (array.length - offset) bytes : Nat)
        ((array.drop offset).take bytes), some array.length⟩])
  | _ => none

/-- Reads and writes through a handle, of less than 2^31 bytes; a write starts
within the file. -/
def InFile (fh : Nat) (fs : FileSystem) : Call → Prop
  | .write _ handle buf _ offset _ => handle = some fh ∧ buf.length < 2 ^ 31 ∧
      ∀ entry ∈ fs.deref fh, offset ≤ entry.status.size
  | .read handle bytes _ => handle = some fh ∧ bytes < 2 ^ 31
  | _ => False

instance (fh : Nat) (fs : FileSystem) : (call : Call) → Decidable (InFile fh fs call)
  | .write _ handle buf _ offset _ =>
      inferInstanceAs (Decidable (handle = some fh ∧ buf.length < 2 ^ 31 ∧
        ∀ entry ∈ fs.deref fh, offset ≤ entry.status.size))
  | .read handle bytes _ => inferInstanceAs (Decidable (handle = some fh ∧ bytes < 2 ^ 31))
  | .mknod _ _ _ | .mkdir _ _ | .unlink _ | .rmdir _ | .rename _ _ _ | .openFile _ | .opendir _
  | .getattr _ => isFalse id

/-- Such requests, where a write does not end before the file does. -/
def Extends (fh : Nat) (fs : FileSystem) : Call → Prop
  | .write path handle buf behind offset junk =>
      InFile fh fs (.write path handle buf behind offset junk) ∧
        ∀ entry ∈ fs.deref fh, entry.status.size ≤ offset + buf.length
  | call => InFile fh fs call

instance (fh : Nat) (fs : FileSystem) : (call : Call) → Decidable (Extends fh fs call)
  | .write path handle buf behind offset junk =>
      inferInstanceAs (Decidable (InFile fh fs (.write path handle buf behind offset junk) ∧
        ∀ entry ∈ fs.deref fh, entry.status.size ≤ offset + buf.length))
  | .read handle bytes offset => inferInstanceAs (Decidable (InFile fh fs (.read handle bytes offset)))
  | .mknod _ _ _ | .mkdir _ _ | .unlink _ | .rmdir _ | .rename _ _ _ | .openFile _ | .opendir _
  | .getattr _ => isFalse id

theorem Extends.inFile {fh : Nat} {fs : FileSystem} {call : Call} (extending : Extends fh fs call) :
    InFile fh fs call := by
  cases call with
  | write => exact extending.1
  | _ => exact extending

theorem bmod_of_small {value : Nat} (small : value < 2 ^ 31) :
    (value : Int).bmod (2 ^ 32) = value := by
  apply Int.bmod_eq_of_le <;> omega

namespace FileSystem

variable {fs next : FileSystem} {fh : Nat} {entry : Entry}

theorem deref_update (found : fs.deref fh = some entry) (written : Entry)
    (same : written.id = entry.id) :
    (fs.update fh fun _ => written).deref fh = some written := by
  have id := (deref_some found).2
  rw [deref_updated, found, Option.map_some, if_pos id]
  intro old _ here
  rw [same, id, here]

theorem read_regular (sound : fs.Sound) (found : fs.deref fh = some entry)
    (regular : entry.Regular) {bytes offset : Nat} (small : bytes < 2 ^ 31) :
    fs.read (some fh) bytes offset = some (.data (min (entry.data.length - offset) bytes : Nat)
      ((entry.data.drop offset).take bytes)) := by
  have sized := sound.sized entry (deref_some found).1
  have length := sized.length_data
  cases known : entry.content with
  | none => exact absurd (sized.missing known).2 regular.not_directory
  | some content =>
      have rbytes : min (max ((entry.status.size : Int) - offset) 0).toNat bytes =
          min (entry.status.size - offset) bytes := by omega
      have slice : (List.range (min (entry.status.size - offset) bytes)).map
          (fun index => content.bytes (offset + index)) = (entry.data.drop offset).take bytes := by
        apply List.ext_getElem?
        intro index
        rw [List.getElem?_take, List.getElem?_drop, List.getElem?_map]
        simp only [Entry.data, known, List.getElem?_map]
        by_cases inside : index < bytes
        · by_cases within : offset + index < entry.status.size
          · rw [List.getElem?_range (by omega), List.getElem?_range within, if_pos inside]
            rfl
          · rw [List.getElem?_eq_none (by simp; omega), List.getElem?_eq_none (by simp; omega),
              if_pos inside]
            rfl
        · rw [List.getElem?_eq_none (by simp; omega), if_neg inside]
          rfl
      simp only [read, found, Option.bind_some, regular.isDir, Bool.false_eq_true, if_false, known,
        rbytes, slice, length, bmod_of_small (lt_of_le_of_lt (min_le_right _ _) small)]

theorem write_regular (plain : fs.options.chatbotMode = false)
    (found : fs.deref fh = some entry) {path : Path} {buf behind : List UInt8} {offset : Nat}
    {junk : Nat → Memory} {reply : Reply} (small : buf.length < 2 ^ 31)
    (wrote : fs.write path (some fh) buf behind offset junk = some (next, reply)) :
    ∃ written ret, Wrote entry buf offset (junk 0) written ret ∧
      next = (fs.update fh fun _ => written) ∧
      reply = .code (if ret < 0 then ret else buf.length) := by
  have id := (deref_some found).2
  have stored : ∀ {middle : FileSystem} {ret : Int},
      fs.writeEntry entry buf behind offset (junk 0) = some (middle, ret) →
      ∃ written, Wrote entry buf offset (junk 0) written ret ∧
        middle = (fs.update fh fun _ => written) := by
    intro middle ret first
    obtain ⟨text, start, written, chosen, stored, rfl⟩ := writeEntry_cases first
    simp only [emojiOr, plain, Bool.false_and, Bool.false_eq_true, if_false, Option.some.injEq,
      Prod.mk.injEq] at chosen
    obtain ⟨rfl, rfl⟩ := chosen
    exact ⟨written, stored, id ▸ rfl⟩
  obtain ⟨ret, rfl, writing⟩ := write_cases wrote
  cases writing with
  | refused found' first negative =>
      cases found.symm.trans found'
      obtain ⟨written, stored, rfl⟩ := stored first
      exact ⟨written, ret, stored, rfl, by rw [if_pos negative]⟩
  | alone found' first done =>
      cases found.symm.trans found'
      obtain ⟨written, stored, rfl⟩ := stored first
      exact ⟨written, _, stored, rfl, by rw [if_neg (Int.not_lt.mpr done), bmod_of_small small]⟩
  | both found' first _ chosen =>
      cases found.symm.trans found'
      obtain ⟨written, _, rfl⟩ := stored first
      have off : (fs.update fh fun _ => written).options.chatbotMode = false := plain
      rw [counterpart, off, if_neg Bool.false_ne_true] at chosen
      cases chosen

end FileSystem

/-- An open regular file, outside chatbot mode. -/
structure Opened (fh : Nat) (fs : FileSystem) (entry : Entry) : Prop where
  sound : fs.Sound
  plain : fs.options.chatbotMode = false
  found : fs.deref fh = some entry
  regular : entry.Regular

/-- One request through a handle: the array model does the same if the request
extends the file, and else shows another size. -/
theorem Opened.observe {fs next : FileSystem} {fh : Nat} {entry : Entry} {call : Call}
    {more : List Seen} (opened : Opened fh fs entry) (inFile : InFile fh fs call)
    (observed : observe fh fs call = some (next, more)) :
    ∃ entry', Opened fh next entry' ∧
      (Extends fh fs call → overlayStep entry.data call = some (entry'.data, more)) ∧
      ∀ array, overlayStep entry.data call = some (array, more) → Extends fh fs call := by
  obtain ⟨sound, plain, found, regular⟩ := opened
  have sized := sound.sized entry (FileSystem.deref_some found).1
  have length := sized.length_data
  cases call with
  | read handle bytes offset =>
      obtain ⟨rfl, small⟩ := inFile
      simp only [Keibot.observe, FileSystem.step, FileSystem.read_regular sound found regular small,
        Option.map_some, List.map_cons, List.map_nil, found, Option.some.injEq,
        Prod.mk.injEq] at observed
      obtain ⟨rfl, rfl⟩ := observed
      refine ⟨entry, ⟨sound, plain, found, regular⟩, fun _ => ?_, fun _ _ => ⟨rfl, small⟩⟩
      simp only [overlayStep, length]
  | write path handle buf behind offset junk =>
      obtain ⟨rfl, small, starts⟩ := inFile
      have starts := starts entry found
      obtain ⟨⟨last, replies⟩, stepped, same⟩ := Option.map_eq_some_iff.mp observed
      obtain ⟨⟨last, reply⟩, wrote, same'⟩ := Option.map_eq_some_iff.mp stepped
      cases same'
      cases same
      obtain ⟨written, ret, stored, rfl, rfl⟩ := FileSystem.write_regular plain found small wrote
      have keeps := stored.keeps
      have found' := FileSystem.deref_update found written keeps.1
      have opened : Opened fh (fs.update fh fun _ => written) written := by
        refine ⟨sound.update ?_ fun _ _ _ => stored.sized sized, plain, found', ?_⟩
        · intro old _ here
          exact keeps.1.trans ((FileSystem.deref_some found).2.trans here.symm)
        · rw [Entry.Regular, keeps.2.2]
          exact regular
      have bounded := sized.bounded
      have whole : (offset + buf.length) % 2 ^ 64 = offset + buf.length := by
        unfold ptrdiffMax at bounded
        exact Nat.mod_eq_of_lt (by omega)
      refine ⟨written, opened, ?_⟩
      simp only [List.map_cons, List.map_nil, found', Option.map_some]
      rcases stored.outcome with ⟨isDir, _⟩ | ⟨large, rfl, rfl⟩ | rfl
      · exact absurd isDir (by simp [regular.isDir])
      · rw [whole] at large
        refine ⟨fun _ => ?_, fun _ _ => ⟨⟨rfl, small, fun other known => ?_⟩, fun other known => ?_⟩⟩
        · simp [overlayStep, large, length, ENOMEM]
        · cases found.symm.trans known
          exact starts
        · cases found.symm.trans known
          exact bounded.trans large.le
      · obtain ⟨size, limit⟩ := stored.size sized
        have data := stored.data sized starts
        rw [whole] at size data
        have taken : (entry.data.take offset).length = offset := by
          rw [List.length_take, length, Nat.min_eq_left starts]
        rw [List.take_of_length_le (by simp [taken])] at data
        have fits : ¬ ptrdiffMax < offset + buf.length := Nat.not_lt.mpr (size ▸ limit)
        simp only [overlayStep, fits, if_false, lt_irrefl, Option.some.injEq, Prod.mk.injEq,
          List.cons.injEq, Seen.mk.injEq, and_true, true_and, length, size, data]
        constructor
        · rintro ⟨_, reaches⟩
          have reaches := reaches entry found
          exact ⟨overlay_of_reaches (length ▸ reaches), Nat.max_eq_right reaches⟩
        · rintro array ⟨_, same⟩
          refine ⟨⟨rfl, small, fun other known => ?_⟩, fun other known => ?_⟩
          · cases found.symm.trans known
            exact starts
          · cases found.symm.trans known
            exact max_eq_right_iff.mp same
  | _ => exact inFile.elim

theorem observe_single {fs next : FileSystem} {fh : Nat} {call : Call} {more : List Seen}
    (observed : observe fh fs call = some (next, more)) : ∃ seen, more = [seen] := by
  obtain ⟨⟨last, replies⟩, stepped, same⟩ := Option.map_eq_some_iff.mp observed
  cases same
  have single : ∃ reply, replies = [reply] := by
    cases call with
    | mknod | mkdir | rename | write | read =>
        obtain ⟨_, _, same⟩ := Option.map_eq_some_iff.mp stepped
        cases same
        exact ⟨_, rfl⟩
    | _ =>
        cases congrArg (Option.map Prod.snd) stepped
        exact ⟨_, rfl⟩
  obtain ⟨reply, rfl⟩ := single
  exact ⟨_, rfl⟩

theorem overlayStep_single {array next : List UInt8} {call : Call} {more : List Seen}
    (stepped : overlayStep array call = some (next, more)) : ∃ seen, more = [seen] := by
  cases call with
  | write path handle buf behind offset junk =>
      simp only [overlayStep] at stepped
      split at stepped <;>
      · cases stepped
        exact ⟨_, rfl⟩
  | read handle bytes offset =>
      cases stepped
      exact ⟨_, rfl⟩
  | _ => cases stepped

/-- While every write reaches the end of the file, the array model gives the
same replies and sizes, and has the data of the file. -/
theorem overlay_of_extends {fs fs' : FileSystem} {fh : Nat} {entry : Entry} {calls : List Call}
    {seen : List Seen} (opened : Opened fh fs entry)
    (run : Run (observe fh) (Extends fh) fs calls seen fs') :
    ∃ entry', Opened fh fs' entry' ∧
      Run overlayStep (fun _ _ => True) entry.data calls seen entry'.data := by
  induction run with
  | nil => exact ⟨entry, opened, .nil⟩
  | @snoc calls seen more middle next call _ reaches observed ih =>
      obtain ⟨before, opened, run⟩ := ih
      obtain ⟨after, opened, forth, _⟩ := opened.observe reaches.inFile observed
      exact ⟨after, opened, run.snoc trivial (forth reaches)⟩

/-- The file system in which only an empty file "/f" was made. -/
def withFile : FileSystem :=
  (FileSystem.init ⟨false, [], []⟩).newFile [slash, 102] (some .empty) (modeReg ||| 0o644) 0 1

theorem withFile_reached : Reached ⟨false, [], []⟩ withFile :=
  ⟨[.mknod [slash, 102] 0o644 0], _, Run.of_exec rfl⟩

end OsPractices.Keibot
