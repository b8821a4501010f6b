import Mathlib.Data.List.Find
import Mathlib.Data.List.Nodup
import OsPractices.Keibot.Code

/-!
# Entries

What the operations do to the list of entries, and what holds of it in every
state: addresses are distinct, and the size of a file is within its block.
-/

set_option autoImplicit false

namespace OsPractices.Keibot

open Library

/-- A regular file, by the kind bits of its mode. -/
def Entry.Regular (entry : Entry) : Prop := entry.status.mode &&& modeKind = modeReg

def Entry.Directory (entry : Entry) : Prop := entry.status.mode &&& modeKind = modeDir

instance (entry : Entry) : Decidable entry.Regular := inferInstanceAs (Decidable (_ = _))
instance (entry : Entry) : Decidable entry.Directory := inferInstanceAs (Decidable (_ = _))

/-- The first `st_size` bytes of the content. -/
def Entry.data (entry : Entry) : List UInt8 :=
  match entry.content with
  | none => []
  | some content => (List.range entry.status.size).map content.bytes

/-- Only a directory may have no content yet; a size is within the allocation. -/
structure Entry.Sized (entry : Entry) : Prop where
  missing : entry.content = none → entry.status.size = 0 ∧ entry.Directory
  inside : ∀ content, entry.content = some content → entry.status.size ≤ content.allocated
  bounded : entry.status.size ≤ ptrdiffMax

/-- The kind bits are among those that `IS_DIR` compares. -/
theorem Entry.directory_of_isDir {entry : Entry} (isDir : entry.isDir = true) :
    entry.Directory := by
  have masked : entry.status.mode &&& ~~~0o111 = modeDir := by simpa [Entry.isDir] using isDir
  calc
    entry.status.mode &&& modeKind = entry.status.mode &&& (~~~0o111 &&& modeKind) := by
      rw [show (~~~0o111 &&& modeKind : Mode) = modeKind by decide]
    _ = modeDir &&& modeKind := by rw [← BitVec.and_assoc, masked]
    _ = modeDir := by decide

theorem Entry.Regular.not_directory {entry : Entry} (regular : entry.Regular) :
    ¬ entry.Directory := by
  intro directory
  exact absurd (regular.symm.trans directory) (by decide)

theorem Entry.Regular.isDir {entry : Entry} (regular : entry.Regular) : entry.isDir = false := by
  cases isDir : entry.isDir with
  | false => rfl
  | true => exact absurd (directory_of_isDir isDir) regular.not_directory

theorem Entry.Sized.length_data {entry : Entry} (sized : entry.Sized) :
    entry.data.length = entry.status.size := by
  unfold Entry.data
  cases known : entry.content with
  | none => exact (sized.missing known).1.symm
  | some content => simp

theorem Entry.sized_new (id : Nat) (path : Path) (mode : Mode) (rdev nlink : Nat) :
    Entry.Sized ⟨id, path, some .empty, ⟨mode, rdev, nlink, 0, 0⟩⟩ :=
  ⟨nofun, by rintro _ ⟨⟩; exact Nat.zero_le _, Nat.zero_le _⟩

theorem kind_directory : (modeDir ||| 0o755 : Mode) &&& modeKind = modeDir := by decide

theorem Entry.sized_directory (id : Nat) (path : Path) :
    Entry.Sized ⟨id, path, none, ⟨modeDir ||| 0o755, 0, 2, 0, 0⟩⟩ :=
  ⟨fun _ => ⟨rfl, kind_directory⟩, nofun, Nat.zero_le _⟩

/-- The entry that `write_file` leaves when it stores `buf`. -/
def Entry.stored (entry : Entry) (content : Content) (buf : List UInt8) (offset finish : Nat) :
    Entry :=
  { entry with
    content := some ((content.memcpy offset buf).store finish 0)
    status := { entry.status with
      size := finish
      blocks := (finish + (blockSize - 1)) % 2 ^ 64 / blockSize } }

theorem Entry.data_stored {entry : Entry} {content : Content} {buf old : List UInt8}
    {offset finish : Nat} (length : old.length = entry.status.size)
    (starts : offset ≤ entry.status.size) (ends : finish ≤ offset + buf.length)
    (agrees : ∀ index < entry.status.size, index < finish →
      some (content.bytes index) = old[index]?) :
    (entry.stored content buf offset finish).data = (old.take offset ++ buf).take finish := by
  apply List.ext_getElem?
  intro index
  rw [List.getElem?_take]
  split
  case isFalse outside =>
    have beyond := Nat.not_lt.mp outside
    simp [Entry.data, Entry.stored, beyond]
  case isTrue inside =>
    simp only [Entry.data, Entry.stored, Content.store, Content.memcpy, List.getElem?_map,
      List.getElem?_range inside, Option.map_some, Function.update_of_ne (Nat.ne_of_lt inside)]
    by_cases before : index < offset
    · have first : index < (old.take offset).length := by
        rw [List.length_take, length]
        exact lt_min before (before.trans_le starts)
      rw [if_neg (Nat.not_le.mpr before), List.getElem?_append_left first,
        List.getElem?_take_of_lt before]
      exact agrees index (before.trans_le starts) inside
    · have taken : (old.take offset).length = offset := by
        rw [List.length_take, length, Nat.min_eq_left starts]
      have written : index - offset < buf.length := by omega
      rw [if_pos (Nat.not_lt.mp before), List.getElem?_append_right (by omega), taken,
        List.getElem?_eq_getElem written]
      rfl

/-- What `write_file` does. -/
inductive Wrote (entry : Entry) (buf : List UInt8) (offset : Nat) (junk : Memory) :
    Entry → Int → Prop where
  | isDirectory : entry.isDir = true → Wrote entry buf offset junk entry (-EISDIR)
  | noMemory : entry.isDir = false → ptrdiffMax < (offset + buf.length) % 2 ^ 64 →
      entry.status.size < (offset + buf.length) % 2 ^ 64 →
      Wrote entry buf offset junk entry (-ENOMEM)
  | grown : entry.isDir = false → (offset + buf.length) % 2 ^ 64 ≤ ptrdiffMax →
      entry.status.size < (offset + buf.length) % 2 ^ 64 →
      Wrote entry buf offset junk
        (entry.stored (Content.realloc entry.content ((offset + buf.length) % 2 ^ 64) junk)
          buf offset ((offset + buf.length) % 2 ^ 64)) 0
  | within {content : Content} : entry.isDir = false → entry.content = some content →
      (offset + buf.length) % 2 ^ 64 ≤ entry.status.size →
      Wrote entry buf offset junk
        (entry.stored content buf offset ((offset + buf.length) % 2 ^ 64)) 0

theorem writeFile_cases {entry next : Entry} {buf : List UInt8} {offset : Nat} {junk : Memory}
    {ret : Int} (wrote : writeFile entry buf offset junk = some (next, ret)) :
    Wrote entry buf offset junk next ret := by
  unfold writeFile at wrote
  split at wrote
  case isTrue isDir =>
    cases wrote
    exact .isDirectory isDir
  case isFalse isDir =>
    rw [Bool.not_eq_true] at isDir
    by_cases grows : entry.status.size < (offset + buf.length) % 2 ^ 64
    · by_cases large : ptrdiffMax < (offset + buf.length) % 2 ^ 64
      · simp only [grows, large, and_self, if_true, Option.some.injEq, Prod.mk.injEq] at wrote
        obtain ⟨rfl, rfl⟩ := wrote
        exact .noMemory isDir large grows
      · simp only [grows, large, and_false, if_false, if_true, Option.map_some,
          Option.some.injEq, Prod.mk.injEq] at wrote
        obtain ⟨rfl, rfl⟩ := wrote
        exact .grown isDir (Nat.not_lt.mp large) grows
    · simp only [grows, false_and, if_false] at wrote
      obtain ⟨content, known, same⟩ := Option.map_eq_some_iff.mp wrote
      cases same
      exact .within isDir known (Nat.not_lt.mp grows)

namespace Wrote

variable {entry next : Entry} {buf : List UInt8} {offset : Nat} {junk : Memory} {ret : Int}

theorem keeps (wrote : Wrote entry buf offset junk next ret) :
    next.id = entry.id ∧ next.path = entry.path ∧ next.status.mode = entry.status.mode := by
  cases wrote <;> exact ⟨rfl, rfl, rfl⟩

theorem sized (wrote : Wrote entry buf offset junk next ret) (sized : entry.Sized) :
    next.Sized := by
  cases wrote with
  | isDirectory => exact sized
  | noMemory => exact sized
  | grown _ small =>
      refine ⟨nofun, ?_, small⟩
      rintro _ ⟨⟩
      cases known : entry.content <;> simp [Entry.stored, Content.memcpy, Content.store,
        Content.realloc]
  | @within content _ known within =>
      refine ⟨nofun, ?_, within.trans sized.bounded⟩
      rintro _ ⟨⟩
      exact within.trans (sized.inside content known)

theorem outcome (wrote : Wrote entry buf offset junk next ret) :
    (entry.isDir = true ∧ ret = -EISDIR) ∨
      (ptrdiffMax < (offset + buf.length) % 2 ^ 64 ∧ next = entry ∧ ret = -ENOMEM) ∨ ret = 0 := by
  cases wrote with
  | isDirectory isDir => exact .inl ⟨isDir, rfl⟩
  | noMemory _ large => exact .inr (.inl ⟨large, rfl, rfl⟩)
  | grown => exact .inr (.inr rfl)
  | within => exact .inr (.inr rfl)

theorem size (wrote : Wrote entry buf offset junk next 0) (sized : entry.Sized) :
    next.status.size = (offset + buf.length) % 2 ^ 64 ∧ next.status.size ≤ ptrdiffMax := by
  cases wrote with
  | grown _ small => exact ⟨rfl, small⟩
  | within _ _ inside => exact ⟨rfl, inside.trans sized.bounded⟩

/-- The data of a file after a write that starts in it: all that was behind the
written bytes is gone. -/
theorem data (wrote : Wrote entry buf offset junk next 0) (sized : entry.Sized)
    (starts : offset ≤ entry.status.size) :
    next.data = (entry.data.take offset ++ buf).take ((offset + buf.length) % 2 ^ 64) := by
  have finish := Nat.mod_le (offset + buf.length) (2 ^ 64)
  have length := sized.length_data
  cases wrote with
  | grown _ _ grows =>
      apply Entry.data_stored length starts finish
      intro index old inside
      cases known : entry.content with
      | none => exact absurd (sized.missing known).1 (Nat.ne_of_gt (Nat.zero_lt_of_lt old))
      | some content =>
          have allocated := old.trans_le (sized.inside content known)
          simp only [Entry.data, known, Content.realloc, List.getElem?_map,
            List.getElem?_range old, Option.map_some, lt_min_iff, allocated, inside, and_self,
            if_true]
  | within _ known _ =>
      apply Entry.data_stored length starts finish
      intro index old _
      simp only [Entry.data, known, List.getElem?_map, List.getElem?_range old, Option.map_some]

end Wrote

namespace FileSystem

variable {fs next : FileSystem}

/-! ## The list -/

theorem findEntry_some {path : Path} {entry : Entry} (found : fs.findEntry path = some entry) :
    entry ∈ fs.entries ∧ entry.path = path :=
  ⟨List.mem_of_find?_eq_some found, by simpa using List.find?_some found⟩

theorem findEntry_none {path : Path} :
    fs.findEntry path = none ↔ ∀ entry ∈ fs.entries, entry.path ≠ path := by
  simp [findEntry, List.find?_eq_none]

theorem deref_some {fh : Nat} {entry : Entry} (found : fs.deref fh = some entry) :
    entry ∈ fs.entries ∧ entry.id = fh :=
  ⟨List.mem_of_find?_eq_some found, by simpa using List.find?_some found⟩

@[simp] theorem mem_newFile {path : Path} {content : Option Content} {mode : Mode}
    {rdev nlink : Nat} {entry : Entry} :
    entry ∈ (fs.newFile path content mode rdev nlink).entries ↔
      entry ∈ fs.entries ∨ entry = ⟨fs.nextId, path, content, ⟨mode, rdev, nlink, 0, 0⟩⟩ := by
  simp [newFile]

@[simp] theorem mem_delFile {entry other : Entry} :
    other ∈ (fs.delFile entry).entries ↔ other ∈ fs.entries ∧ other.id ≠ entry.id := by
  simp [delFile]

@[simp] theorem mem_update {id : Nat} {change : Entry → Entry} {entry : Entry} :
    entry ∈ (fs.update id change).entries ↔
      ∃ old ∈ fs.entries, (if old.id = id then change old else old) = entry := by
  simp [update]

theorem deref_updated {id : Nat} {change : Entry → Entry}
    (same : ∀ entry ∈ fs.entries, entry.id = id → (change entry).id = entry.id) (fh : Nat) :
    (fs.update id change).deref fh =
      (fs.deref fh).map fun entry => if entry.id = id then change entry else entry := by
  simp only [deref, update, List.find?_map]
  congr 1
  apply List.find?_congr
  intro entry inside
  simp only [Function.comp_apply]
  split
  case isTrue here => rw [same entry inside here]
  case isFalse => rfl

/-! ## Addresses and sizes -/

structure Sound (fs : FileSystem) : Prop where
  distinct : (fs.entries.map Entry.id).Nodup
  fresh : ∀ entry ∈ fs.entries, entry.id < fs.nextId
  sized : ∀ entry ∈ fs.entries, entry.Sized

/-- An address belongs to one entry. -/
theorem Sound.same (sound : fs.Sound) {entry other : Entry} (inside : entry ∈ fs.entries)
    (inside' : other ∈ fs.entries) (id : entry.id = other.id) : entry = other :=
  List.inj_on_of_nodup_map sound.distinct inside inside' id

theorem Sound.deref (sound : fs.Sound) {entry : Entry} (inside : entry ∈ fs.entries) :
    fs.deref entry.id = some entry := by
  cases found : fs.deref entry.id with
  | none =>
      have missing := List.find?_eq_none.mp found entry inside
      simp at missing
  | some other =>
      obtain ⟨inside', id⟩ := deref_some found
      rw [sound.same inside' inside id]

theorem Sound.newFile (sound : fs.Sound) {path : Path} {content : Option Content} {mode : Mode}
    {rdev nlink : Nat}
    (sized : Entry.Sized ⟨fs.nextId, path, content, ⟨mode, rdev, nlink, 0, 0⟩⟩) :
    (fs.newFile path content mode rdev nlink).Sound where
  distinct := by
    simp only [FileSystem.newFile, List.map_append, List.map_cons, List.map_nil]
    rw [List.nodup_append]
    refine ⟨sound.distinct, List.nodup_singleton _, ?_⟩
    intro id inside other last same
    obtain ⟨entry, member, rfl⟩ := List.mem_map.mp inside
    cases List.mem_singleton.mp last
    exact Nat.lt_irrefl _ (same ▸ sound.fresh entry member)
  fresh entry inside := by
    cases mem_newFile.mp inside with
    | inl old => exact Nat.lt_succ_of_lt (sound.fresh entry old)
    | inr new => exact new ▸ Nat.lt_succ_self _
  sized entry inside := by
    cases mem_newFile.mp inside with
    | inl old => exact sound.sized entry old
    | inr new => exact new ▸ sized

theorem Sound.freePath (sound : fs.Sound) (id : Nat) : (fs.freePath id).Sound :=
  ⟨sound.distinct, sound.fresh, sound.sized⟩

theorem Sound.delFile (sound : fs.Sound) (entry : Entry) : (fs.delFile entry).Sound where
  distinct := sound.distinct.sublist (List.filter_sublist.map Entry.id)
  fresh other inside := sound.fresh other (mem_delFile.mp inside).1
  sized other inside := sound.sized other (mem_delFile.mp inside).1

theorem Sound.update (sound : fs.Sound) {id : Nat} {change : Entry → Entry}
    (same : ∀ entry ∈ fs.entries, entry.id = id → (change entry).id = entry.id)
    (sized : ∀ entry ∈ fs.entries, entry.id = id → (change entry).Sized) :
    (fs.update id change).Sound where
  distinct := by
    have ids : (fs.update id change).entries.map Entry.id = fs.entries.map Entry.id := by
      simp only [FileSystem.update, List.map_map]
      apply List.map_congr_left
      intro entry inside
      by_cases here : entry.id = id
      · simp [here, same entry inside here]
      · simp [here]
    rw [ids]
    exact sound.distinct
  fresh entry inside := by
    obtain ⟨old, member, rfl⟩ := mem_update.mp inside
    split
    case isTrue here => exact same old member here ▸ sound.fresh old member
    case isFalse => exact sound.fresh old member
  sized entry inside := by
    obtain ⟨old, member, rfl⟩ := mem_update.mp inside
    split
    case isTrue here => exact sized old member here
    case isFalse => exact sound.sized old member

/-! ## The requests -/

theorem writeEntry_cases {entry : Entry} {buf behind : List UInt8} {offset : Nat} {junk : Memory}
    {ret : Int} (wrote : fs.writeEntry entry buf behind offset junk = some (next, ret)) :
    ∃ text start written, fs.emojiOr buf behind offset = some (text, start) ∧
      Wrote entry text start junk written ret ∧ next = fs.update entry.id fun _ => written := by
  obtain ⟨⟨text, start⟩, chosen, wrote⟩ := Option.bind_eq_some_iff.mp wrote
  obtain ⟨⟨written, ret'⟩, stored, same⟩ := Option.map_eq_some_iff.mp wrote
  cases same
  have wrote := writeFile_cases stored
  exact ⟨text, start, written, chosen, wrote, by rw [wrote.keeps.1]⟩

theorem Sound.written (sound : fs.Sound) {entry written : Entry} {text : List UInt8} {start : Nat}
    {junk : Memory} {ret : Int} (inside : entry ∈ fs.entries)
    (stored : Wrote entry text start junk written ret) :
    (fs.update entry.id fun _ => written).Sound := by
  apply sound.update
  case same => exact fun old _ here => stored.keeps.1.trans here.symm
  case sized => exact fun _ _ _ => stored.sized (sound.sized entry inside)

theorem Sound.writeEntry (sound : fs.Sound) {entry : Entry} {buf behind : List UInt8}
    {offset : Nat} {junk : Memory} {ret : Int} (inside : entry ∈ fs.entries)
    (wrote : fs.writeEntry entry buf behind offset junk = some (next, ret)) : next.Sound := by
  obtain ⟨text, start, written, _, stored, rfl⟩ := writeEntry_cases wrote
  exact sound.written inside stored

/-- What a `keibot_write` through a handle does, where it returns. -/
inductive Writing (fs : FileSystem) (path : Path) (fh : Nat) (buf behind : List UInt8)
    (offset : Nat) (junk : Nat → Memory) : FileSystem → Int → Prop where
  | refused {next : FileSystem} {entry : Entry} {ret : Int} : fs.deref fh = some entry →
      fs.writeEntry entry buf behind offset (junk 0) = some (next, ret) → ret < 0 →
      Writing fs path fh buf behind offset junk next ret
  | alone {next : FileSystem} {entry : Entry} {ret : Int} {npath : Option Path} :
      fs.deref fh = some entry →
      fs.writeEntry entry buf behind offset (junk 0) = some (next, ret) → 0 ≤ ret →
      next.counterpart path = some npath → npath.bind next.findEntry = none →
      Writing fs path fh buf behind offset junk next ((buf.length : Int).bmod (2 ^ 32))
  | both {middle next : FileSystem} {entry other : Entry} {ret ret' : Int} {npath : Path} :
      fs.deref fh = some entry →
      fs.writeEntry entry buf behind offset (junk 0) = some (middle, ret) → 0 ≤ ret →
      middle.counterpart path = some (some npath) → middle.findEntry npath = some other →
      middle.writeEntry other buf behind offset (junk 1) = some (next, ret') →
      Writing fs path fh buf behind offset junk next ((buf.length : Int).bmod (2 ^ 32))

theorem write_cases {path : Path} {fh : Nat} {buf behind : List UInt8} {offset : Nat}
    {junk : Nat → Memory} {reply : Reply}
    (wrote : fs.write path (some fh) buf behind offset junk = some (next, reply)) :
    ∃ ret, reply = .code ret ∧ Writing fs path fh buf behind offset junk next ret := by
  obtain ⟨entry, found, wrote⟩ := Option.bind_eq_some_iff.mp wrote
  obtain ⟨⟨middle, ret⟩, first, wrote⟩ := Option.bind_eq_some_iff.mp wrote
  dsimp only at wrote
  split at wrote
  case isTrue negative =>
    cases wrote
    exact ⟨ret, rfl, .refused found first negative⟩
  case isFalse done =>
    obtain ⟨npath, chosen, wrote⟩ := Option.bind_eq_some_iff.mp wrote
    cases mirrored : npath.bind middle.findEntry with
    | none =>
        rw [mirrored] at wrote
        cases wrote
        exact ⟨_, rfl, .alone found first (Int.not_lt.mp done) chosen mirrored⟩
    | some other =>
        rw [mirrored] at wrote
        obtain ⟨⟨last, ret'⟩, second, same⟩ := Option.map_eq_some_iff.mp wrote
        cases same
        obtain ⟨target, rfl, found'⟩ := Option.bind_eq_some_iff.mp mirrored
        exact ⟨_, rfl, .both found first (Int.not_lt.mp done) chosen found' second⟩

/-- What every `write_file` keeps, a write keeps. -/
theorem write_preserves (kept : FileSystem → Prop) {path : Path} {fh : Option Nat}
    {buf behind : List UInt8} {offset : Nat} {junk : Nat → Memory} {reply : Reply}
    (each : ∀ {fs next : FileSystem} {entry : Entry} {junk : Memory} {ret : Int}, kept fs →
      entry ∈ fs.entries → fs.writeEntry entry buf behind offset junk = some (next, ret) →
      kept next)
    (holds : kept fs) (wrote : fs.write path fh buf behind offset junk = some (next, reply)) :
    kept next := by
  cases fh with
  | none =>
      cases wrote
      exact holds
  | some fh =>
      obtain ⟨_, _, writing⟩ := write_cases wrote
      cases writing with
      | refused found first => exact each holds (deref_some found).1 first
      | alone found first => exact each holds (deref_some found).1 first
      | both found first _ _ found' second =>
          have holds := each holds (deref_some found).1 first
          exact each holds (findEntry_some found').1 second

theorem createFile_new {path : Path} (new : fs.findEntry path = none)
    (fits : path.length ≤ maxFileNameLen) (mode : Mode) (rdev nlink : Nat) :
    fs.createFile path mode rdev nlink =
      (fs.newFile path (some .empty) mode rdev nlink, 0) := by
  simp only [FileSystem.createFile, if_neg (Nat.not_lt.mpr fits), new]

theorem createFile_cases (path : Path) (mode : Mode) (rdev nlink : Nat) :
    (fs.findEntry path = none ∧ path.length ≤ maxFileNameLen) ∨
      (fs.createFile path mode rdev nlink).1 = fs ∧
        (fs.createFile path mode rdev nlink).2 < 0 := by
  unfold FileSystem.createFile
  split
  case isTrue => exact .inr ⟨rfl, (by decide : -ENAMETOOLONG < 0)⟩
  case isFalse fits =>
    split
    case h_1 => exact .inr ⟨rfl, (by decide : -EEXIST < 0)⟩
    case h_2 new => exact .inl ⟨new, Nat.not_lt.mp fits⟩

/-- What a `keibot_mknod` or `keibot_mkdir` does, where it returns. -/
inductive Creating (fs : FileSystem) (path : Path) (mode : Mode) (rdev nlink : Nat) :
    FileSystem → Int → Prop where
  | refused : (fs.createFile path mode rdev nlink).2 < 0 →
      Creating fs path mode rdev nlink fs (fs.createFile path mode rdev nlink).2
  | alone : fs.findEntry path = none → path.length ≤ maxFileNameLen →
      fs.counterpart path = some none →
      Creating fs path mode rdev nlink (fs.newFile path (some .empty) mode rdev nlink) 0
  | both {npath : Path} : fs.findEntry path = none → path.length ≤ maxFileNameLen →
      fs.counterpart path = some (some npath) →
      Creating fs path mode rdev nlink
        ((fs.newFile path (some .empty) mode rdev nlink).createFile npath mode rdev nlink).1
        ((fs.newFile path (some .empty) mode rdev nlink).createFile npath mode rdev nlink).2

theorem createBoth_cases {path : Path} {mode : Mode} {rdev nlink : Nat} {reply : Reply}
    (created : fs.createBoth path mode rdev nlink = some (next, reply)) :
    ∃ ret, reply = .code ret ∧ Creating fs path mode rdev nlink next ret := by
  simp only [createBoth] at created
  cases fs.createFile_cases path mode rdev nlink with
  | inl new =>
      rw [createFile_new new.1 new.2] at created
      obtain ⟨npath, chosen, same⟩ := Option.map_eq_some_iff.mp created
      have chosen : fs.counterpart path = some npath := chosen
      cases npath with
      | none =>
          cases same
          exact ⟨0, rfl, .alone new.1 new.2 chosen⟩
      | some npath =>
          cases same
          exact ⟨_, rfl, .both new.1 new.2 chosen⟩
  | inr failed =>
      rw [if_pos failed.2, failed.1] at created
      cases created
      exact ⟨_, rfl, .refused failed.2⟩

theorem createBoth_preserves {kept : FileSystem → Prop} {path : Path} {mode : Mode}
    {rdev nlink : Nat} {reply : Reply}
    (first : kept (fs.createFile path mode rdev nlink).1)
    (second : ∀ npath, fs.findEntry path = none → path.length ≤ maxFileNameLen →
      npath ∈ (fs.counterpart path).join →
      kept ((fs.newFile path (some .empty) mode rdev nlink).createFile npath mode rdev nlink).1)
    (created : fs.createBoth path mode rdev nlink = some (next, reply)) : kept next := by
  obtain ⟨_, _, creating⟩ := createBoth_cases created
  cases creating with
  | refused failed =>
      cases fs.createFile_cases path mode rdev nlink with
      | inl new =>
          rw [createFile_new new.1 new.2] at failed
          exact absurd failed (Int.lt_irrefl 0)
      | inr failed => exact failed.1 ▸ first
  | alone new fits =>
      rw [createFile_new new fits] at first
      exact first
  | both new fits chosen => exact second _ new fits (by rw [chosen]; rfl)

/-- The destination is deleted, and the source gets its path. -/
def moved (fs : FileSystem) (srcEntry : Entry) (dest : Path) : FileSystem :=
  ((((fs.findEntry dest).map fs.delFile).getD fs).freePath srcEntry.id).update srcEntry.id
    fun entry => { entry with path := dest }

/-- What a `keibot_rename` that does not abort does. -/
inductive Renamed (fs : FileSystem) (src dest : Path) (flags : Nat) : FileSystem → Int → Prop where
  | samePath : src.take maxFileNameLen = dest.take maxFileNameLen → Renamed fs src dest flags fs 0
  | missing : fs.findEntry src = none → Renamed fs src dest flags fs (-ENOENT)
  | occupied : src.take maxFileNameLen ≠ dest.take maxFileNameLen → flags = renameNoreplace →
      (fs.findEntry dest).isSome → Renamed fs src dest flags fs (-EEXIST)
  | moved {srcEntry : Entry} :
      src.take maxFileNameLen ≠ dest.take maxFileNameLen → flags ≠ renameExchange →
      fs.findEntry src = some srcEntry →
      ¬ (flags = renameNoreplace ∧ (fs.findEntry dest).isSome) →
      (srcEntry.isDir = true → ∀ entry ∈ (fs.moved srcEntry dest).entries,
        isParentPath src entry.path false = false) →
      Renamed fs src dest flags (fs.moved srcEntry dest) 0

theorem rename_cases {src dest : Path} {flags : Nat} {reply : Reply}
    (renamed : fs.rename src dest flags = some (next, reply)) :
    ∃ ret, reply = .code ret ∧ Renamed fs src dest flags next ret := by
  unfold rename at renamed
  split at renamed
  case isTrue same =>
    cases renamed
    exact ⟨0, rfl, .samePath same⟩
  case isFalse different =>
    split at renamed
    case isTrue => cases renamed
    case isFalse exchange =>
      split at renamed
      case h_1 missing =>
        cases renamed
        exact ⟨_, rfl, .missing missing⟩
      case h_2 srcEntry found =>
        split at renamed
        case isTrue occupied =>
          cases renamed
          exact ⟨_, rfl, .occupied different occupied.1 occupied.2⟩
        case isFalse free =>
          simp only at renamed
          split at renamed
          case isTrue => cases renamed
          case isFalse quiet =>
            cases renamed
            refine ⟨0, rfl, .moved different exchange found free ?_⟩
            intro isDir entry inside
            rw [isDir, Bool.true_and, Bool.not_eq_true, List.any_eq_false] at quiet
            simpa using quiet entry inside

theorem Sound.delete (sound : fs.Sound) (path : Path) :
    (((fs.findEntry path).map fs.delFile).getD fs).Sound := by
  cases fs.findEntry path with
  | none => exact sound
  | some entry => exact sound.delFile entry

theorem Sound.renamed (sound : fs.Sound) {src dest : Path} {flags : Nat} {ret : Int}
    (renamed : Renamed fs src dest flags next ret) : next.Sound := by
  cases renamed with
  | samePath => exact sound
  | missing => exact sound
  | occupied => exact sound
  | moved =>
      have sound := (sound.delete dest).freePath
      apply (sound _).update
      case same => exact fun _ _ _ => rfl
      case sized =>
        intro entry inside _
        have sized := (sound 0).sized entry inside
        exact ⟨sized.missing, sized.inside, sized.bounded⟩

theorem openFile_found {path : Path} {entry : Entry} (found : fs.findEntry path = some entry) :
    (fs.openFile path).1 = fs := by
  simp only [openFile, found]
  split <;> rfl

theorem openFile_missing {path : Path} (missing : fs.findEntry path = none) :
    (fs.openFile path).1 = fs.newFile path (some .empty) (modeReg ||| 0o444) 0 1 := by
  simp only [openFile, missing]
  split <;> rfl

theorem opendir_found {path : Path} {entry : Entry} (found : fs.findEntry path = some entry) :
    (fs.opendir path).1 = fs := by
  simp only [opendir, found]
  split <;> rfl

theorem opendir_missing {path : Path} (missing : fs.findEntry path = none) :
    (fs.opendir path).1 = fs.newFile path none (modeDir ||| 0o755) 0 2 := by
  simp only [opendir, missing]
  split <;> rfl

theorem unlink_cases (path : Path) : (fs.unlink path).1 = fs ∨
    ∃ entry, fs.findEntry path = some entry ∧ entry.isDir = false ∧
      (fs.unlink path).1 = fs.delFile entry := by
  unfold unlink
  split
  case h_1 => exact .inl rfl
  case h_2 entry found =>
    split
    case isTrue => exact .inl rfl
    case isFalse isDir => exact .inr ⟨entry, found, by simpa using isDir, rfl⟩

theorem rmdir_cases (path : Path) : (fs.rmdir path).1 = fs ∨
    ∃ entry, fs.findEntry path = some entry ∧ entry.isReg = false ∧
      (∀ other ∈ fs.entries, isParentPath path other.path false = false) ∧
      (fs.rmdir path).1 = fs.delFile entry := by
  unfold rmdir
  split
  case h_1 => exact .inl rfl
  case h_2 entry found =>
    split
    case isTrue => exact .inl rfl
    case isFalse isReg =>
      split
      case isTrue => exact .inl rfl
      case isFalse childless =>
        refine .inr ⟨entry, found, by simpa using isReg, ?_, rfl⟩
        simpa [List.countP_eq_zero] using childless

/-- What the operations on the list keep, every request keeps. -/
structure Preserved (kept : FileSystem → Prop) : Prop where
  newFile : ∀ {fs : FileSystem} {path : Path} {content : Option Content} {mode : Mode}
    {rdev nlink : Nat}, kept fs → fs.findEntry path = none →
    Entry.Sized ⟨fs.nextId, path, content, ⟨mode, rdev, nlink, 0, 0⟩⟩ →
    kept (fs.newFile path content mode rdev nlink)
  delFile : ∀ {fs : FileSystem} {entry : Entry}, kept fs → entry ∈ fs.entries →
    kept (fs.delFile entry)
  renamed : ∀ {fs next : FileSystem} {src dest : Path} {flags : Nat} {ret : Int}, kept fs →
    Renamed fs src dest flags next ret → kept next
  written : ∀ {fs : FileSystem} {entry written : Entry} {text : List UInt8} {start : Nat}
    {junk : Memory} {ret : Int}, kept fs → entry ∈ fs.entries →
    Wrote entry text start junk written ret → kept (fs.update entry.id fun _ => written)

namespace Preserved

variable {kept : FileSystem → Prop}

theorem createFile (preserved : Preserved kept) (holds : kept fs) (path : Path) (mode : Mode)
    (rdev nlink : Nat) : kept (fs.createFile path mode rdev nlink).1 := by
  rcases fs.createFile_cases path mode rdev nlink with ⟨missing, fits⟩ | ⟨same, _⟩
  · rw [createFile_new missing fits]
    exact preserved.newFile holds missing (Entry.sized_new _ _ _ _ _)
  · rwa [same]

theorem createBoth (preserved : Preserved kept) (holds : kept fs) {path : Path} {mode : Mode}
    {rdev nlink : Nat} {reply : Reply}
    (created : fs.createBoth path mode rdev nlink = some (next, reply)) : kept next :=
  createBoth_preserves (preserved.createFile holds path mode rdev nlink)
    (fun npath missing _ _ => preserved.createFile
      (preserved.newFile holds missing (Entry.sized_new _ _ _ _ _)) npath mode rdev nlink) created

theorem write (preserved : Preserved kept) (holds : kept fs) {path : Path} {fh : Option Nat}
    {buf behind : List UInt8} {offset : Nat} {junk : Nat → Memory} {reply : Reply}
    (wrote : fs.write path fh buf behind offset junk = some (next, reply)) : kept next := by
  refine write_preserves kept ?_ holds wrote
  intro fs next entry junk ret holds inside wrote
  obtain ⟨text, start, written, _, stored, rfl⟩ := writeEntry_cases wrote
  exact preserved.written holds inside stored

theorem step (preserved : Preserved kept) (holds : kept fs) {call : Call} {replies : List Reply}
    (stepped : fs.step call = some (next, replies)) : kept next := by
  cases call with
  | mknod path mode rdev =>
      obtain ⟨⟨middle, reply⟩, created, same⟩ := Option.map_eq_some_iff.mp stepped
      cases same
      exact preserved.createBoth holds created
  | mkdir path mode =>
      obtain ⟨⟨middle, reply⟩, created, same⟩ := Option.map_eq_some_iff.mp stepped
      cases same
      exact preserved.createBoth holds created
  | unlink path =>
      have result : (fs.unlink path).1 = next := congrArg Prod.fst (Option.some.inj stepped)
      rw [← result]
      rcases fs.unlink_cases path with same | ⟨entry, found, _, same⟩
      · rwa [same]
      · rw [same]
        exact preserved.delFile holds (findEntry_some found).1
  | rmdir path =>
      have result : (fs.rmdir path).1 = next := congrArg Prod.fst (Option.some.inj stepped)
      rw [← result]
      rcases fs.rmdir_cases path with same | ⟨entry, found, _, _, same⟩
      · rwa [same]
      · rw [same]
        exact preserved.delFile holds (findEntry_some found).1
  | rename src dest flags =>
      obtain ⟨⟨middle, reply⟩, moved, same⟩ := Option.map_eq_some_iff.mp stepped
      cases same
      obtain ⟨ret, _, renamed⟩ := rename_cases moved
      exact preserved.renamed holds renamed
  | openFile path =>
      have result : (fs.openFile path).1 = next := congrArg Prod.fst (Option.some.inj stepped)
      rw [← result]
      cases found : fs.findEntry path with
      | none =>
          rw [openFile_missing found]
          exact preserved.newFile holds found (Entry.sized_new _ _ _ _ _)
      | some entry => rwa [openFile_found found]
  | opendir path =>
      have result : (fs.opendir path).1 = next := congrArg Prod.fst (Option.some.inj stepped)
      rw [← result]
      cases found : fs.findEntry path with
      | none =>
          rw [opendir_missing found]
          exact preserved.newFile holds found (Entry.sized_directory _ _)
      | some entry => rwa [opendir_found found]
  | write path fh buf behind offset junk =>
      obtain ⟨⟨middle, reply⟩, wrote, same⟩ := Option.map_eq_some_iff.mp stepped
      cases same
      exact preserved.write holds wrote
  | read fh bytes offset =>
      obtain ⟨reply, _, same⟩ := Option.map_eq_some_iff.mp stepped
      cases same
      exact holds
  | getattr path =>
      cases stepped
      exact holds

end Preserved

theorem sound_preserved : Preserved Sound where
  newFile sound _ sized := sound.newFile sized
  delFile sound _ := sound.delFile _
  renamed sound renamed := sound.renamed renamed
  written sound inside stored := sound.written inside stored

theorem Sound.init (options : CliOptions) : (init options).Sound := by
  have empty : (⟨options, [], 0, none, none, []⟩ : FileSystem).Sound := ⟨by simp, by simp, by simp⟩
  have root := empty.newFile (Entry.sized_directory 0 rootPath)
  unfold FileSystem.init
  dsimp only
  split
  case isFalse => exact root
  case isTrue =>
    have ready : ∀ (first second : Option Path), FileSystem.Sound
        { (⟨options, [], 0, none, none, []⟩ : FileSystem).newFile rootPath none
            (modeDir ||| 0o755) 0 2 with bot1Path := first, bot2Path := second } :=
      fun _ _ => ⟨root.distinct, root.fresh, root.sized⟩
    have bot1 := (ready (some (concatenate rootPath options.bot1))
      (some (concatenate rootPath options.bot2))).newFile
      (Entry.sized_directory 1 (concatenate rootPath options.bot1))
    have bot2 := bot1.newFile (Entry.sized_directory 2 (concatenate rootPath options.bot2))
    exact ⟨bot2.distinct, bot2.fresh, bot2.sized⟩

end FileSystem

/-- The file system after some requests. -/
def Reached (options : CliOptions) (fs : FileSystem) : Prop :=
  ∃ calls replies, Run FileSystem.step (fun _ _ => True) (.init options) calls replies fs

/-- What the operations on the list keep holds in every state reached. -/
theorem FileSystem.Preserved.reached {kept : FileSystem → Prop} {options : CliOptions}
    {fs : FileSystem} (preserved : FileSystem.Preserved kept) (start : kept (.init options))
    (reached : Reached options fs) : kept fs := by
  obtain ⟨calls, replies, run⟩ := reached
  exact run.invariant start fun holds _ stepped => preserved.step holds stepped

theorem Reached.sound {options : CliOptions} {fs : FileSystem} (reached : Reached options fs) :
    fs.Sound :=
  FileSystem.sound_preserved.reached (FileSystem.Sound.init options) reached

end OsPractices.Keibot
