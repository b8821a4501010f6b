import OsPractices.Keibot.Entries

/-!
# The buffer of a file

`write_file` with each store tested against the bytes last allocated. The NUL
behind the data goes to the byte behind the buffer whenever the file grows.
-/

set_option autoImplicit false

namespace OsPractices.Keibot

open Library

namespace Content

variable {content written : Content} {offset index : Nat} {buf : List UInt8} {byte : UInt8}

/-- `memcpy` into the buffer. -/
def memcpyChecked (content : Content) (offset : Nat) (buf : List UInt8) : Option Content :=
  if buf = [] ∨ offset + buf.length ≤ content.allocated then some (content.memcpy offset buf)
  else none

def storeChecked (content : Content) (index : Nat) (byte : UInt8) : Option Content :=
  if index < content.allocated then some (content.store index byte) else none

theorem memcpyChecked_eq_some : content.memcpyChecked offset buf = some written ↔
    (buf = [] ∨ offset + buf.length ≤ content.allocated) ∧
      content.memcpy offset buf = written := by
  simp [memcpyChecked]

theorem storeChecked_eq_some : content.storeChecked index byte = some written ↔
    index < content.allocated ∧ content.store index byte = written := by
  simp [storeChecked]

end Content

/-- `write_file` as it would be if a store outside of the buffer were refused. -/
def writeFileChecked (entry : Entry) (buf : List UInt8) (offset : Nat) (junk : Memory) :
    Option (Entry × Int) :=
  if entry.isDir then some (entry, -EISDIR)
  else
    let finish := (offset + buf.length) % 2 ^ 64
    if entry.status.size < finish ∧ ptrdiffMax < finish then some (entry, -ENOMEM)
    else
      let content :=
        if entry.status.size < finish then some (Content.realloc entry.content finish junk)
        else entry.content
      content.bind fun content =>
        (content.memcpyChecked offset buf).bind fun content =>
          (content.storeChecked finish 0).map fun content =>
            ({ entry with
                content := some content
                status := { entry.status with
                  size := finish
                  blocks := (finish + (blockSize - 1)) % 2 ^ 64 / blockSize } }, 0)

/-- The size of a file is at most what was allocated for it. -/
def Entry.Fits (entry : Entry) : Prop :=
  ∀ content ∈ entry.content, entry.status.size ≤ content.allocated

structure Write where
  buf : List UInt8
  offset : Nat
  junk : Memory

/-- All stores of some calls of `write_file` stay inside the buffer, and so does
the size. -/
inductive StaysInside : Entry → List Write → Prop where
  | nil {entry : Entry} : entry.Fits → StaysInside entry []
  | cons {entry next : Entry} {ret : Int} {write : Write} {writes : List Write} :
      entry.Fits →
      writeFileChecked entry write.buf write.offset write.junk = some (next, ret) →
      StaysInside next writes → StaysInside entry (write :: writes)

/-- A write that stores no byte but a NUL at the start, or that is refused for its
length. -/
def Write.Harmless (write : Write) : Prop :=
  write.buf = [] ∧ write.offset % 2 ^ 64 = 0 ∨
    ptrdiffMax < (write.offset + write.buf.length) % 2 ^ 64

/-- An entry whose file is empty, in a buffer of one byte. -/
structure Entry.OneByte (entry : Entry) : Prop where
  buffer : ∃ content, entry.content = some content ∧ content.allocated = 1
  size : entry.status.size = 0

theorem Entry.OneByte.fits {entry : Entry} (empty : entry.OneByte) : entry.Fits :=
  fun _ _ => empty.size ▸ Nat.zero_le _

variable {entry next : Entry} {buf : List UInt8} {offset : Nat} {junk : Memory} {ret : Int}

/-- The tests take nothing else away. -/
theorem writeFile_of_checked
    (stored : writeFileChecked entry buf offset junk = some (next, ret)) :
    writeFile entry buf offset junk = some (next, ret) := by
  unfold writeFileChecked at stored
  unfold writeFile
  split
  case isTrue directory => simpa [directory] using stored
  case isFalse file =>
    simp only [file, Bool.false_eq_true, if_false] at stored
    dsimp only at stored ⊢
    split
    case isTrue refused => simpa only [if_pos refused] using stored
    case isFalse served =>
      rw [if_neg served] at stored
      obtain ⟨content, given, rest⟩ := Option.bind_eq_some_iff.mp stored
      obtain ⟨copied, copy, rest⟩ := Option.bind_eq_some_iff.mp rest
      obtain ⟨closed, close, result⟩ := Option.map_eq_some_iff.mp rest
      obtain ⟨_, rfl⟩ := Content.memcpyChecked_eq_some.mp copy
      obtain ⟨_, rfl⟩ := Content.storeChecked_eq_some.mp close
      rw [given, Option.map_some, result]

/-- Whenever a file grows, the NUL is stored behind its buffer. -/
theorem writeFileChecked_of_grows (file : entry.isDir = false)
    (grows : entry.status.size < (offset + buf.length) % 2 ^ 64)
    (small : (offset + buf.length) % 2 ^ 64 ≤ ptrdiffMax) :
    writeFileChecked entry buf offset junk = none := by
  have served : ¬ (entry.status.size < (offset + buf.length) % 2 ^ 64 ∧
      ptrdiffMax < (offset + buf.length) % 2 ^ 64) :=
    fun refused => absurd refused.2 (Nat.not_lt.mpr small)
  unfold writeFileChecked
  dsimp only
  rw [file, if_neg Bool.false_ne_true, if_neg served, if_pos grows, Option.bind_some,
    Option.bind_eq_none_iff]
  intro copied copy
  obtain ⟨_, rfl⟩ := Content.memcpyChecked_eq_some.mp copy
  have allocated : ((Content.realloc entry.content ((offset + buf.length) % 2 ^ 64) junk).memcpy
      offset buf).allocated = (offset + buf.length) % 2 ^ 64 := by
    cases entry.content <;> rfl
  rw [Content.storeChecked, allocated, if_neg (Nat.lt_irrefl _), Option.map_none]

/-- A harmless write leaves an empty file in its one byte. -/
theorem Entry.OneByte.harmless (empty : entry.OneByte) (file : entry.isDir = false) {write : Write}
    (harmless : write.Harmless) : ∃ next ret,
      writeFileChecked entry write.buf write.offset write.junk = some (next, ret) ∧
        next.OneByte ∧ next.isDir = false := by
  obtain ⟨buf, offset, junk⟩ := write
  unfold writeFileChecked
  dsimp only
  rw [file, if_neg Bool.false_ne_true, empty.size]
  cases harmless with
  | inl start =>
      obtain ⟨rfl, start⟩ := start
      obtain ⟨content, known, allocated⟩ := empty.buffer
      have room : ((content.memcpy offset []).storeChecked 0 0) =
          some ((content.memcpy offset []).store 0 0) :=
        Content.storeChecked_eq_some.mpr ⟨by rw [Content.memcpy, allocated]; decide, rfl⟩
      simp only [List.length_nil, Nat.add_zero, start, Nat.lt_irrefl, false_and, if_false, known,
        Option.bind_some, Content.memcpyChecked, true_or, if_true, room, Option.map_some]
      exact ⟨_, 0, rfl, ⟨⟨_, rfl, allocated⟩, rfl⟩, file⟩
  | inr long =>
      exact ⟨entry, -ENOMEM, if_pos ⟨Nat.zero_lt_of_lt long, long⟩, empty, file⟩

/-- No other write to it stays inside. -/
theorem Entry.OneByte.harmless_of_stored (empty : entry.OneByte) (file : entry.isDir = false)
    {write : Write}
    (stored : writeFileChecked entry write.buf write.offset write.junk = some (next, ret)) :
    write.Harmless := by
  obtain ⟨buf, offset, junk⟩ := write
  by_cases long : ptrdiffMax < (offset + buf.length) % 2 ^ 64
  · exact .inr long
  by_cases grows : 0 < (offset + buf.length) % 2 ^ 64
  · have none := @writeFileChecked_of_grows _ buf offset junk file (by rwa [empty.size])
      (Nat.not_lt.mp long)
    cases none.symm.trans stored
  · have start : (offset + buf.length) % 2 ^ 64 = 0 := by omega
    obtain ⟨content, known, allocated⟩ := empty.buffer
    unfold writeFileChecked at stored
    dsimp only at stored
    rw [file, if_neg Bool.false_ne_true, empty.size, start, if_neg (by decide),
      if_neg (Nat.lt_irrefl 0), known, Option.bind_some] at stored
    obtain ⟨copied, copy, _⟩ := Option.bind_eq_some_iff.mp stored
    have within := (Content.memcpyChecked_eq_some.mp copy).1
    have nothing : buf = [] := by
      cases within with
      | inl none => exact none
      | inr short =>
          rw [allocated] at short
          exact List.eq_nil_of_length_eq_zero (by omega)
    subst nothing
    exact .inl ⟨rfl, by simpa using start⟩

theorem writeFileChecked_directory (directory : entry.isDir = true) :
    writeFileChecked entry buf offset junk = some (entry, -EISDIR) := if_pos directory

theorem StaysInside.directory (directory : entry.isDir = true) (fits : entry.Fits)
    (writes : List Write) : StaysInside entry writes := by
  induction writes with
  | nil => exact .nil fits
  | cons write writes ih => exact .cons fits (writeFileChecked_directory directory) ih

/-- To an empty file in one byte, all stores of some writes stay inside exactly if
each of them is harmless. -/
theorem Entry.OneByte.staysInside_iff (empty : entry.OneByte) (file : entry.isDir = false)
    (writes : List Write) : StaysInside entry writes ↔ ∀ write ∈ writes, write.Harmless := by
  induction writes generalizing entry with
  | nil => exact iff_of_true (.nil empty.fits) fun _ inside => absurd inside List.not_mem_nil
  | cons write writes ih =>
      constructor
      · intro stays
        cases stays with
        | cons _ stored rest =>
            have harmless := empty.harmless_of_stored file stored
            obtain ⟨next, ret, same, still, file'⟩ := empty.harmless file harmless
            cases same.symm.trans stored
            exact List.forall_mem_cons.mpr ⟨harmless, (ih still file').mp rest⟩
      · intro harmless
        obtain ⟨first, rest⟩ := List.forall_mem_cons.mp harmless
        obtain ⟨next, ret, stored, still, file'⟩ := empty.harmless file first
        exact .cons empty.fits stored ((ih still file').mpr rest)

/-- The entry that `create_file` makes. -/
def createdEntry (id : Nat) (path : Path) (mode : Mode) (rdev nlink : Nat) : Entry :=
  ⟨id, path, some .empty, ⟨mode, rdev, nlink, 0, 0⟩⟩

theorem createdEntry_oneByte (id : Nat) (path : Path) (mode : Mode) (rdev nlink : Nat) :
    (createdEntry id path mode rdev nlink).OneByte := ⟨⟨.empty, rfl, rfl⟩, rfl⟩

theorem FileSystem.createFile_created {fs after : FileSystem} {path : Path} {mode : Mode}
    {rdev nlink : Nat} (created : fs.createFile path mode rdev nlink = (after, 0)) :
    after.entries = fs.entries ++ [createdEntry fs.nextId path mode rdev nlink] := by
  cases FileSystem.createFile_cases path mode rdev nlink with
  | inl new =>
      rw [FileSystem.createFile_new new.1 new.2] at created
      cases created
      rfl
  | inr refused =>
      rw [created] at refused
      exact absurd refused.2 (Int.lt_irrefl 0)

/-- The stores of some calls of `write_file`, and the size, stay inside the buffer
that `create_file` made exactly if the entry is a directory or each call is
harmless. -/
theorem stays_inside_iff {fs after : FileSystem} {path : Path} {mode : Mode} {rdev nlink : Nat}
    (created : fs.createFile path mode rdev nlink = (after, 0)) :
    ∃ entry : Entry, after.entries = fs.entries ++ [entry] ∧ entry.content = some .empty ∧
      ∀ writes, StaysInside entry writes ↔
        entry.isDir = true ∨ ∀ write ∈ writes, write.Harmless := by
  have empty := createdEntry_oneByte fs.nextId path mode rdev nlink
  refine ⟨_, FileSystem.createFile_created created, rfl, fun writes => ?_⟩
  cases kind : (createdEntry fs.nextId path mode rdev nlink).isDir with
  | true => exact iff_of_true (.directory kind empty.fits writes) (.inl rfl)
  | false => simpa using empty.staysInside_iff kind writes

/-- The file system as mounted, without bots. -/
def mounted : FileSystem := .init ⟨false, [], []⟩

theorem stays_inside_of_new_file : ∃ entry : Entry,
    (mounted.createFile [slash, 102] (modeReg ||| 0o644) 0 1).1.entries =
        mounted.entries ++ [entry] ∧
      entry.content = some .empty ∧ ∀ writes, StaysInside entry writes ↔
        entry.isDir = true ∨ ∀ write ∈ writes, write.Harmless :=
  @stays_inside_iff mounted _ [slash, 102] (modeReg ||| 0o644) 0 1 rfl

/-- One byte is written to a new file: the NUL goes to the byte behind it. -/
theorem first_byte_leaves_buffer : ∃ (entry : Entry) (writes : List Write),
    (mounted.createFile [slash, 102] (modeReg ||| 0o644) 0 1).1.entries =
        mounted.entries ++ [entry] ∧
      ¬ StaysInside entry writes := by
  refine ⟨createdEntry 1 [slash, 102] (modeReg ||| 0o644) 0 1, [⟨[97], 0, fun _ => 0⟩], rfl,
    fun stays => ?_⟩
  cases stays with
  | cons _ stored _ => cases stored

end OsPractices.Keibot
