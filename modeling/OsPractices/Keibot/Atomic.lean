import OsPractices.Keibot.Mirror

/-!
# Calls that fail

A mirrored call has two steps. `keibot_mknod` and `keibot_mkdir` return the error of
the second one and leave what the first one made; `keibot_write` does not return it.
-/

set_option autoImplicit false

namespace OsPractices.Keibot

open Library

/-- Of an entry: its path, mode, size and contents. -/
structure Shown where
  path : Path
  mode : Mode
  size : Nat
  data : List UInt8
  deriving DecidableEq, Repr

def Entry.shown (entry : Entry) : Shown :=
  ⟨entry.path, entry.status.mode, entry.status.size, entry.data⟩

/-- The same entries, each as it was. -/
def SameEntries (fs next : FileSystem) : Prop :=
  ∀ id, (next.deref id).map Entry.shown = (fs.deref id).map Entry.shown

theorem SameEntries.refl (fs : FileSystem) : SameEntries fs fs := fun _ => rfl

theorem SameEntries.symm {fs next : FileSystem} (same : SameEntries fs next) :
    SameEntries next fs :=
  fun id => (same id).symm

theorem SameEntries.trans {fs middle next : FileSystem} (first : SameEntries fs middle)
    (second : SameEntries middle next) : SameEntries fs next :=
  fun id => (second id).trans (first id)

/-! ## One write -/

/-- `write_file` refuses to store the text: the entry is a directory, or `realloc`
gives no block. -/
def Entry.Refuses (entry : Entry) (text : List UInt8) (start : Nat) : Prop :=
  entry.isDir = true ∨ entry.status.size < (start + text.length) % 2 ^ 64 ∧
    ptrdiffMax < (start + text.length) % 2 ^ 64

/-- The file ends with the text already. -/
def Entry.Rewrites (entry : Entry) (text : List UInt8) (start : Nat) : Prop :=
  entry.status.size = (start + text.length) % 2 ^ 64 ∧
    ∀ index < entry.status.size, start ≤ index → entry.data[index]? = text[index - start]?

namespace Wrote

variable {entry next : Entry} {text : List UInt8} {start : Nat} {junk : Memory} {ret : Int}

theorem refused (wrote : Wrote entry text start junk next ret)
    (refuses : entry.Refuses text start) : ret < 0 ∧ next = entry := by
  cases wrote with
  | isDirectory => exact ⟨by decide, rfl⟩
  | noMemory => exact ⟨by decide, rfl⟩
  | grown file small =>
      cases refuses with
      | inl directory => cases file.symm.trans directory
      | inr large => exact absurd large.2 (Nat.not_lt.mpr small)
  | within file _ small =>
      cases refuses with
      | inl directory => cases file.symm.trans directory
      | inr large => exact absurd large.1 (Nat.not_lt.mpr small)

theorem served (wrote : Wrote entry text start junk next ret)
    (serves : ¬ entry.Refuses text start) : ret = 0 := by
  cases wrote with
  | isDirectory directory => exact absurd (.inl directory) serves
  | noMemory _ large grows => exact absurd (.inr ⟨grows, large⟩) serves
  | grown => rfl
  | within => rfl

/-- After a write the file ends with the text. -/
theorem rewrites (wrote : Wrote entry text start junk next 0) : next.Rewrites text start := by
  have ends : ∀ content : Content, (entry.stored content text start
      ((start + text.length) % 2 ^ 64)).Rewrites text start := by
    intro content
    refine ⟨rfl, fun index less behind => ?_⟩
    have less : index < (start + text.length) % 2 ^ 64 := less
    have within : index - start < text.length := by
      have finish := Nat.mod_le (start + text.length) (2 ^ 64)
      omega
    simp only [Entry.data, Entry.stored, List.getElem?_map, List.getElem?_range less,
      Option.map_some, Content.store, Content.memcpy, Function.update_of_ne less.ne, if_pos behind,
      List.getElem?_eq_getElem within, Option.getD_some]
  cases wrote with
  | grown => exact ends _
  | within => exact ends _

/-- What was written once is not refused when it is written again. -/
theorem serves (wrote : Wrote entry text start junk next 0) (serves : ¬ entry.Refuses text start) :
    ¬ next.Refuses text start := by
  intro refuses
  cases refuses with
  | inl directory =>
      have mode : next.isDir = entry.isDir := by rw [Entry.isDir, Entry.isDir, wrote.keeps.2.2]
      exact serves (.inl (mode ▸ directory))
  | inr large => exact absurd wrote.rewrites.1 large.1.ne

/-- A write leaves the file as it is shown exactly if it was there before. -/
theorem shown_iff (wrote : Wrote entry text start junk next 0) :
    next.shown = entry.shown ↔ entry.Rewrites text start := by
  have written := wrote.rewrites
  cases wrote with
  | grown _ _ grows =>
      refine iff_of_false (fun same => ?_) fun rewrites => absurd rewrites.1 grows.ne
      exact absurd (congrArg Shown.size same) grows.ne'
  | @within content _ known inside =>
      have before : ∀ index < entry.status.size,
          entry.data[index]? = some (content.bytes index) := by
        intro index less
        simp only [Entry.data, known, List.getElem?_map, List.getElem?_range less, Option.map_some]
      have after : ∀ index < (start + text.length) % 2 ^ 64,
          (entry.stored content text start ((start + text.length) % 2 ^ 64)).data[index]? =
            some (if start ≤ index then (text[index - start]?).getD (content.bytes index)
              else content.bytes index) := by
        intro index less
        simp only [Entry.data, Entry.stored, List.getElem?_map, List.getElem?_range less,
          Option.map_some, Content.store, Content.memcpy, Function.update_of_ne less.ne]
      constructor
      · intro same
        have size : (start + text.length) % 2 ^ 64 = entry.status.size :=
          congrArg Shown.size same
        have data := congrArg Shown.data same
        refine ⟨size.symm, fun index less behind => ?_⟩
        exact (congrArg (·[index]?) data.symm).trans (written.2 index (size ▸ less) behind)
      · intro rewrites
        obtain ⟨size, here⟩ := rewrites
        have data : (entry.stored content text start ((start + text.length) % 2 ^ 64)).data =
            entry.data := by
          apply List.ext_getElem?
          intro index
          by_cases less : index < entry.status.size
          · rw [after index (size ▸ less)]
            split
            case isTrue behind =>
              rw [← here index less behind, before index less]
              rfl
            case isFalse => exact (before index less).symm
          · have beyond : ∀ data : List UInt8, data.length = entry.status.size →
                data[index]? = none :=
              fun _ length => List.getElem?_eq_none (length.trans_le (Nat.not_lt.mp less))
            rw [beyond _ (by simp [Entry.data, Entry.stored, size]),
              beyond _ (by simp [Entry.data, known])]
        exact Shown.mk.injEq .. ▸ ⟨rfl, rfl, size.symm, data⟩

end Wrote

namespace FileSystem

variable {fs next : FileSystem}

/-- `create_file` makes the path. -/
def Creatable (fs : FileSystem) (path : Path) : Prop :=
  path.length ≤ maxFileNameLen ∧ fs.findEntry path = none

/-- The mirrored `create_file` succeeds, if there is one. -/
def MirrorCreated (fs : FileSystem) (path : Path) (mode : Mode) (rdev nlink : Nat) : Prop :=
  ∀ npath, fs.counterpart path = some (some npath) →
    ((fs.createFile path mode rdev nlink).1.createFile npath mode rdev nlink).2 = 0

/-- The mirrored `write_file` succeeds, if there is one. -/
def MirrorWritten (fs : FileSystem) (path : Path) (fh : Nat) (buf behind : List UInt8)
    (offset : Nat) (junk : Nat → Memory) : Prop :=
  ∀ entry middle ret npath, fs.deref fh = some entry →
    fs.writeEntry entry buf behind offset (junk 0) = some (middle, ret) →
    fs.counterpart path = some (some npath) →
    ∃ other last, middle.findEntry npath = some other ∧
      middle.writeEntry other buf behind offset (junk 1) = some (last, 0)

/-- The mirrored step of a call succeeds. -/
def Mirrored (fs : FileSystem) : Call → Prop
  | .mknod path mode rdev => fs.MirrorCreated path (modeReg ||| mode) rdev 1
  | .mkdir path mode => fs.MirrorCreated path (modeDir ||| mode) 0 2
  | .write path (some fh) buf behind offset junk =>
      fs.MirrorWritten path fh buf behind offset junk
  | _ => True

/-- A call that returns an error changes nothing, and a call that succeeds has
succeeded at the counterpart too. -/
structure Atomic (fs : FileSystem) (call : Call) (next : FileSystem) (ret : Int) : Prop where
  failed : ret < 0 → SameEntries fs next
  mirrored : 0 ≤ ret → fs.Mirrored call

/-- If the path can be made, so can its counterpart. -/
def CleanCreate (fs : FileSystem) (path : Path) : Prop :=
  fs.Creatable path → ∀ npath, fs.counterpart path = some (some npath) →
    npath ≠ path ∧ fs.Creatable npath

/-- If the file can be written, so can its counterpart; with a length that is
negative as an `int`, the text is in both files already. -/
def CleanWrite (fs : FileSystem) (path : Path) (fh : Nat) (buf behind : List UInt8)
    (offset : Nat) : Prop :=
  ∀ entry text start, fs.deref fh = some entry → fs.emojiOr buf behind offset = some (text, start) →
    ¬ entry.Refuses text start →
    (0 ≤ (buf.length : Int).bmod (2 ^ 32) → ∀ npath, fs.counterpart path = some (some npath) →
      ∃ other, fs.findEntry npath = some other ∧ ¬ other.Refuses text start) ∧
    ((buf.length : Int).bmod (2 ^ 32) < 0 → entry.Rewrites text start ∧
      ∀ npath other, fs.counterpart path = some (some npath) → fs.findEntry npath = some other →
        ¬ other.Refuses text start → other.Rewrites text start)

/-- What makes a call atomic: a call with one step always is. -/
def Clean (fs : FileSystem) : Call → Prop
  | .mknod path _ _ | .mkdir path _ => fs.CleanCreate path
  | .write path (some fh) buf behind offset _ => fs.CleanWrite path fh buf behind offset
  | _ => True

/-- A new entry is seen. -/
theorem not_sameEntries_newFile (sound : fs.Sound) (path : Path) (content : Option Content)
    (mode : Mode) (rdev nlink : Nat) :
    ¬ SameEntries fs (fs.newFile path content mode rdev nlink) := by
  intro same
  have fresh : fs.deref fs.nextId = none := by
    refine List.find?_eq_none.mpr fun entry inside => ?_
    simpa using (sound.fresh entry inside).ne
  have made : (fs.newFile path content mode rdev nlink).deref fs.nextId =
      some ⟨fs.nextId, path, content, ⟨mode, rdev, nlink, 0, 0⟩⟩ := by
    rw [deref, newFile, List.find?_append]
    change (fs.deref fs.nextId).or _ = _
    rw [fresh]
    simp
  have here := same fs.nextId
  rw [fresh, made] at here
  cases here

/-- A change of one entry is seen in that entry. -/
theorem sameEntries_update {entry written : Entry} (found : fs.deref entry.id = some entry)
    (same : written.id = entry.id) (sound : fs.Sound) :
    SameEntries fs (fs.update entry.id fun _ => written) ↔ written.shown = entry.shown := by
  have derefs := @deref_updated fs entry.id (fun _ => written)
    fun _ _ here => same.trans here.symm
  constructor
  · intro all
    have here := all entry.id
    rw [derefs, found, Option.map_some, if_pos rfl] at here
    exact Option.some.inj here
  · intro shown id
    rw [derefs]
    cases here : fs.deref id with
    | none => rfl
    | some other =>
        rw [Option.map_some]
        split
        case isTrue id' =>
          have one := sound.same (deref_some here).1 (deref_some found).1 id'
          rw [one, Option.map_some, Option.map_some, shown]
        case isFalse => rfl

theorem createFile_mirrored {path npath : Path} {mode : Mode} {rdev nlink : Nat} :
    ((fs.newFile path (some .empty) mode rdev nlink).createFile npath mode rdev nlink).2 = 0 ↔
      npath ≠ path ∧ fs.Creatable npath := by
  have found := @findEntry_newFile fs path (some .empty) mode rdev nlink npath
  by_cases apart : path = npath
  · refine iff_of_false (fun done => ?_) fun clean => clean.1 apart.symm
    cases createFile_cases npath mode rdev nlink with
    | inl new =>
        rw [new.1, if_pos apart] at found
        cases earlier : fs.findEntry npath with
        | none => rw [earlier] at found; cases found
        | some entry => rw [earlier] at found; cases found
    | inr failed => exact absurd done failed.2.ne
  · rw [if_neg apart, Option.or_none] at found
    cases createFile_cases npath mode rdev nlink with
    | inl new =>
        rw [createFile_new new.1 new.2]
        exact iff_of_true rfl ⟨Ne.symm apart, new.2, found ▸ new.1⟩
    | inr failed =>
        refine iff_of_false failed.2.ne fun clean => failed.2.ne ?_
        rw [createFile_new (found.trans clean.2.2) clean.2.1]

/-- A mirrored creation is atomic exactly if the counterpart can be made. -/
theorem Creating.atomic_iff (sound : fs.Sound) {path : Path} {mode : Mode} {rdev nlink : Nat}
    {ret : Int} (creating : Creating fs path mode rdev nlink next ret) :
    ((ret < 0 → SameEntries fs next) ∧ (0 ≤ ret → fs.MirrorCreated path mode rdev nlink)) ↔
      fs.CleanCreate path := by
  cases creating with
  | refused failed =>
      refine iff_of_true ⟨fun _ => .refl fs, fun done => absurd failed done.not_gt⟩ ?_
      intro new
      rw [createFile_new new.2 new.1] at failed
      exact absurd failed (lt_irrefl 0)
  | alone _ _ chosen =>
      refine iff_of_true ⟨fun negative => absurd negative (lt_irrefl 0), fun _ npath other => ?_⟩
        fun _ npath other => ?_
      · cases chosen.symm.trans other
      · cases chosen.symm.trans other
  | @both npath new fits chosen =>
      by_cases clean : npath ≠ path ∧ fs.Creatable npath
      · have done := (@createFile_mirrored fs path npath mode rdev nlink).mpr clean
        refine iff_of_true ⟨fun negative => absurd done negative.ne, fun _ npath' other => ?_⟩
          fun _ npath' other => ?_
        · cases chosen.symm.trans other
          rw [createFile_new new fits]
          exact done
        · cases chosen.symm.trans other
          exact clean
      · refine iff_of_false (fun atomic => ?_) fun all => clean (all ⟨fits, new⟩ npath chosen)
        cases createFile_cases npath mode rdev nlink with
        | inl new' =>
            refine clean ((@createFile_mirrored fs path npath mode rdev nlink).mp ?_)
            rw [createFile_new new'.1 new'.2]
        | inr failed =>
            have same := atomic.1 failed.2
            rw [failed.1] at same
            exact not_sameEntries_newFile sound path _ mode rdev nlink same

section Write

variable {entry other written : Entry} {text : List UInt8} {start : Nat} {junk : Memory}
  {ret : Int}

theorem sameEntries_written (sound : fs.Sound) (found : fs.deref entry.id = some entry)
    (stored : Wrote entry text start junk written ret) :
    SameEntries fs (fs.update entry.id fun _ => written) ↔
      (¬ entry.Refuses text start → entry.Rewrites text start) := by
  rw [sameEntries_update found stored.keeps.1 sound]
  by_cases refuses : entry.Refuses text start
  · exact iff_of_true (by rw [(stored.refused refuses).2]) fun serves => absurd refuses serves
  · rw [stored.served refuses] at stored
    rw [stored.shown_iff]
    exact ⟨fun rewrites _ => rewrites, fun all => all refuses⟩

/-- A path leads to the entry that it led to before a write. -/
theorem findEntry_written (sound : fs.Sound) (inside : entry ∈ fs.entries)
    (stored : Wrote entry text start junk written ret) {npath : Path} {other : Entry}
    (found : (fs.update entry.id fun _ => written).findEntry npath = some other) :
    ∃ old, fs.findEntry npath = some old ∧
      (old = entry ∧ other = written ∨ old.id ≠ entry.id ∧ other = old) := by
  rw [findEntry_update] at found
  case same =>
    intro old member here
    rw [stored.keeps.2.1, sound.same member inside here]
  obtain ⟨old, found, same⟩ := Option.map_eq_some_iff.mp found
  refine ⟨old, found, ?_⟩
  split at same
  case isTrue here =>
    exact .inl ⟨sound.same (findEntry_some found).1 inside here, same.symm⟩
  case isFalse apart => exact .inr ⟨apart, same.symm⟩

theorem cleanWrite_iff {path : Path} {fh : Nat} {buf behind : List UInt8} {offset : Nat}
    (found : fs.deref fh = some entry) (chosen : fs.emojiOr buf behind offset = some (text, start))
    (serves : ¬ entry.Refuses text start) : fs.CleanWrite path fh buf behind offset ↔
      (0 ≤ (buf.length : Int).bmod (2 ^ 32) → ∀ npath, fs.counterpart path = some (some npath) →
        ∃ other, fs.findEntry npath = some other ∧ ¬ other.Refuses text start) ∧
      ((buf.length : Int).bmod (2 ^ 32) < 0 → entry.Rewrites text start ∧
        ∀ npath other, fs.counterpart path = some (some npath) → fs.findEntry npath = some other →
          ¬ other.Refuses text start → other.Rewrites text start) := by
  constructor
  · intro clean
    exact clean entry text start found chosen serves
  · intro clean entry' text' start' found' chosen' _
    cases found.symm.trans found'
    cases chosen.symm.trans chosen'
    exact clean

theorem mirrorWritten_iff {middle : FileSystem} {path : Path} {fh : Nat}
    {buf behind : List UInt8} {offset : Nat} {junk : Nat → Memory}
    (found : fs.deref fh = some entry)
    (first : fs.writeEntry entry buf behind offset (junk 0) = some (middle, ret)) :
    fs.MirrorWritten path fh buf behind offset junk ↔
      ∀ npath, fs.counterpart path = some (some npath) →
        ∃ other last, middle.findEntry npath = some other ∧
          middle.writeEntry other buf behind offset (junk 1) = some (last, 0) := by
  constructor
  · intro written npath
    exact written entry middle ret npath found first
  · intro written entry' middle' ret' npath found' first'
    cases found.symm.trans found'
    cases first.symm.trans first'
    exact written npath

end Write

/-- A write without a counterpart, or whose counterpart is gone. -/
theorem alone_atomic (sound : fs.Sound) {path : Path} {fh : Nat} {buf behind : List UInt8}
    {offset : Nat} {junk : Nat → Memory} {entry : Entry} {ret : Int} {npath : Option Path}
    (found : fs.deref fh = some entry)
    (first : fs.writeEntry entry buf behind offset (junk 0) = some (next, ret)) (done : 0 ≤ ret)
    (chosen : fs.counterpart path = some npath) (gone : npath.bind next.findEntry = none) :
    (((buf.length : Int).bmod (2 ^ 32) < 0 → SameEntries fs next) ∧
      (0 ≤ (buf.length : Int).bmod (2 ^ 32) → fs.MirrorWritten path fh buf behind offset junk)) ↔
      fs.CleanWrite path fh buf behind offset := by
  obtain ⟨text, start, written, emoji, stored, rfl⟩ := writeEntry_cases first
  have serves : ¬ entry.Refuses text start :=
    fun refuses => absurd (stored.refused refuses).1 done.not_gt
  obtain ⟨inside, id⟩ := deref_some found
  have missing : ∀ target, fs.counterpart path = some (some target) →
      fs.findEntry target = none ∧
        (fs.update entry.id fun _ => written).findEntry target = none := by
    intro target other
    cases chosen.symm.trans other
    refine ⟨?_, gone⟩
    have gone : (fs.update entry.id fun _ => written).findEntry target = none := gone
    rw [findEntry_update] at gone
    case same => exact fun old member here => sound.same member inside here ▸ stored.keeps.2.1
    exact Option.map_eq_none_iff.mp gone
  rw [cleanWrite_iff found emoji serves, mirrorWritten_iff found first]
  refine and_comm.trans (and_congr (imp_congr_right fun _ => ?_) (imp_congr_right fun _ => ?_))
  · constructor
    · intro mirrored target other
      obtain ⟨_, _, there, _⟩ := mirrored target other
      cases (missing target other).2.symm.trans there
    · intro mirrored target other
      obtain ⟨_, there, _⟩ := mirrored target other
      cases (missing target other).1.symm.trans there
  · rw [sameEntries_written sound (id ▸ found) stored]
    constructor
    · intro rewrites
      refine ⟨rewrites serves, fun target old other there => ?_⟩
      cases (missing target other).1.symm.trans there
    · exact fun both _ => both.1

/-- A write at both paths. -/
theorem both_atomic (sound : fs.Sound) {path : Path} {fh : Nat} {buf behind : List UInt8}
    {offset : Nat} {junk : Nat → Memory} {middle : FileSystem} {entry other : Entry}
    {ret ret' : Int} {npath : Path} (found : fs.deref fh = some entry)
    (first : fs.writeEntry entry buf behind offset (junk 0) = some (middle, ret)) (done : 0 ≤ ret)
    (chosen : fs.counterpart path = some (some npath)) (found' : middle.findEntry npath = some other)
    (second : middle.writeEntry other buf behind offset (junk 1) = some (next, ret')) :
    (((buf.length : Int).bmod (2 ^ 32) < 0 → SameEntries fs next) ∧
      (0 ≤ (buf.length : Int).bmod (2 ^ 32) → fs.MirrorWritten path fh buf behind offset junk)) ↔
      fs.CleanWrite path fh buf behind offset := by
  obtain ⟨text, start, written, emoji, stored, rfl⟩ := writeEntry_cases first
  obtain ⟨_, _, written', emoji', stored', rfl⟩ := writeEntry_cases second
  cases emoji.symm.trans emoji'
  have serves : ¬ entry.Refuses text start :=
    fun refuses => absurd (stored.refused refuses).1 done.not_gt
  have inside := (deref_some found).1
  have known : fs.deref entry.id = some entry := sound.deref inside
  obtain ⟨old, there, same⟩ := findEntry_written sound inside stored found'
  rw [cleanWrite_iff found emoji serves, mirrorWritten_iff found first]
  cases stored.served serves
  have agree : other.Refuses text start ↔ old.Refuses text start := by
    cases same with
    | inl here => rw [here.1, here.2]; exact iff_of_false (stored.serves serves) serves
    | inr apart => rw [apart.2]
  refine and_comm.trans (and_congr (imp_congr_right fun _ => ?_) (imp_congr_right fun _ => ?_))
  · constructor
    · intro mirrored target here
      cases chosen.symm.trans here
      obtain ⟨other', last, again, wrote⟩ := mirrored npath chosen
      cases found'.symm.trans again
      cases second.symm.trans wrote
      refine ⟨old, there, fun refuses => ?_⟩
      exact absurd (stored'.refused (agree.mpr refuses)).1 (lt_irrefl 0)
    · intro mirrored target here
      cases chosen.symm.trans here
      obtain ⟨old', again, serves'⟩ := mirrored npath chosen
      cases there.symm.trans again
      cases stored'.served fun refuses => serves' (agree.mp refuses)
      exact ⟨other, _, found', second⟩
  · have sound' := sound.written inside stored
    have first := sameEntries_written sound known stored
    have last := sameEntries_written sound' (sound'.deref (findEntry_some found').1) stored'
    cases same with
    | inl here =>
        obtain ⟨rfl, rfl⟩ := here
        have again := last.mpr fun _ => stored.rewrites
        constructor
        · intro whole
          have rewrites := first.mp (whole.trans again.symm) serves
          refine ⟨rewrites, fun target old' here there' _ => ?_⟩
          cases chosen.symm.trans here
          cases there.symm.trans there'
          exact rewrites
        · intro both
          exact (first.mpr fun _ => both.1).trans again
    | inr apart =>
        obtain ⟨apart, rfl⟩ := apart
        constructor
        · intro whole
          -- the second step does not change the entry of the first one
          have here := whole entry.id
          rw [deref_updated fun _ _ there => stored'.keeps.1.trans there.symm,
            deref_updated fun _ _ there => stored.keeps.1.trans there.symm, known,
            Option.map_some, if_pos rfl, Option.map_some, stored.keeps.1, if_neg apart.symm,
            Option.map_some, Option.map_some] at here
          have shown := (sameEntries_update known stored.keeps.1 sound).mpr
            (Option.some.inj here)
          refine ⟨first.mp shown serves, fun target old' here there' => ?_⟩
          cases chosen.symm.trans here
          cases there.symm.trans there'
          exact last.mp (shown.symm.trans whole)
        · intro both
          exact (first.mpr fun _ => both.1).trans (last.mpr (both.2 npath other chosen there))

/-- A write is atomic exactly if its two steps go the same way. -/
theorem Writing.atomic_iff (sound : fs.Sound) {path : Path} {fh : Nat}
    {buf behind : List UInt8} {offset : Nat} {junk : Nat → Memory} {ret : Int}
    (writing : Writing fs path fh buf behind offset junk next ret) :
    ((ret < 0 → SameEntries fs next) ∧
      (0 ≤ ret → fs.MirrorWritten path fh buf behind offset junk)) ↔
      fs.CleanWrite path fh buf behind offset := by
  cases writing with
  | @refused _ entry _ found first negative =>
      obtain ⟨text, start, written, emoji, stored, rfl⟩ := writeEntry_cases first
      obtain ⟨inside, id⟩ := deref_some found
      have refuses : entry.Refuses text start := by
        by_contra serves
        exact negative.ne (stored.served serves)
      refine iff_of_true ⟨fun _ => ?_, fun done => absurd negative done.not_gt⟩ ?_
      · exact (sameEntries_written sound (id ▸ found) stored).mpr fun serves => absurd refuses serves
      · intro entry' text' start' found'' emoji'' serves
        cases found.symm.trans found''
        cases emoji.symm.trans emoji''
        exact absurd refuses serves
  | alone found first done chosen gone =>
      obtain ⟨_, _, _, _, _, rfl⟩ := writeEntry_cases first
      exact alone_atomic sound found first done chosen gone
  | both found first done chosen found' second =>
      obtain ⟨_, _, _, _, _, rfl⟩ := writeEntry_cases first
      exact both_atomic sound found first done chosen found' second

theorem atomic_iff_and {call : Call} {ret : Int} : fs.Atomic call next ret ↔
    (ret < 0 → SameEntries fs next) ∧ (0 ≤ ret → fs.Mirrored call) :=
  ⟨fun atomic => ⟨atomic.failed, atomic.mirrored⟩, fun both => ⟨both.1, both.2⟩⟩

/-- A call with one step changes nothing where it fails. -/
theorem atomic_of_unchanged {call : Call} {ret : Int} (unchanged : ret < 0 → next = fs)
    (single : fs.Mirrored call) : fs.Atomic call next ret :=
  ⟨fun negative => unchanged negative ▸ .refl next, fun _ => single⟩

theorem unlink_failed {path : Path} {ret : Int} (replied : (fs.unlink path).2 = .code ret)
    (negative : ret < 0) : (fs.unlink path).1 = fs := by
  unfold unlink at replied ⊢
  split
  case h_1 => rfl
  case h_2 entry found =>
    rw [found] at replied
    dsimp only at replied
    split
    case isTrue => rfl
    case isFalse file =>
      rw [if_neg file] at replied
      cases replied
      exact absurd negative (lt_irrefl 0)

theorem rmdir_failed {path : Path} {ret : Int} (replied : (fs.rmdir path).2 = .code ret)
    (negative : ret < 0) : (fs.rmdir path).1 = fs := by
  unfold rmdir at replied ⊢
  split
  case h_1 => rfl
  case h_2 entry found =>
    rw [found] at replied
    dsimp only at replied
    split
    case isTrue => rfl
    case isFalse directory =>
      rw [if_neg directory] at replied
      split
      case isTrue => rfl
      case isFalse childless =>
        rw [if_neg childless] at replied
        cases replied
        exact absurd negative (lt_irrefl 0)

theorem Renamed.failed {src dest : Path} {flags : Nat} {ret : Int}
    (renamed : Renamed fs src dest flags next ret) (negative : ret < 0) : next = fs := by
  cases renamed with
  | samePath => rfl
  | missing => rfl
  | occupied => rfl
  | moved => exact absurd negative (lt_irrefl 0)

theorem openFile_failed {path : Path} {ret : Int} (replied : (fs.openFile path).2 = .code ret) :
    (fs.openFile path).1 = fs := by
  cases found : fs.findEntry path with
  | none =>
      have file : ((modeReg ||| 0o444) &&& ~~~0o111 == modeDir) = false := by decide
      simp only [openFile, found, Entry.isDir, file, Bool.false_eq_true, if_false] at replied
      cases replied
  | some entry => exact openFile_found found

theorem opendir_failed {path : Path} {ret : Int} (replied : (fs.opendir path).2 = .code ret) :
    (fs.opendir path).1 = fs := by
  cases found : fs.findEntry path with
  | none =>
      have directory : ((modeDir ||| 0o755) &&& ~~~0o111 == modeReg) = false := by decide
      simp only [opendir, found, Entry.isReg, directory, Bool.false_eq_true, if_false] at replied
      cases replied
  | some entry => exact opendir_found found

end FileSystem

/-- A call that returns is atomic exactly if its steps go the same way. -/
theorem call_atomic_iff {options : CliOptions} {fs next : FileSystem} {call : Call} {ret : Int}
    (reached : Reached options fs) (returned : fs.step call = some (next, [.code ret])) :
    fs.Atomic call next ret ↔ fs.Clean call := by
  have sound := reached.sound
  cases call with
  | mknod path mode rdev =>
      obtain ⟨⟨last, reply⟩, created, same⟩ := Option.map_eq_some_iff.mp returned
      cases same
      obtain ⟨_, same, creating⟩ := FileSystem.createBoth_cases created
      cases same
      exact FileSystem.atomic_iff_and.trans (creating.atomic_iff sound)
  | mkdir path mode =>
      obtain ⟨⟨last, reply⟩, created, same⟩ := Option.map_eq_some_iff.mp returned
      cases same
      obtain ⟨_, same, creating⟩ := FileSystem.createBoth_cases created
      cases same
      exact FileSystem.atomic_iff_and.trans (creating.atomic_iff sound)
  | unlink path =>
      obtain ⟨rfl, replied⟩ := Prod.mk.inj (Option.some.inj returned)
      exact iff_of_true (FileSystem.atomic_of_unchanged
        (FileSystem.unlink_failed (List.singleton_inj.mp replied)) trivial) trivial
  | rmdir path =>
      obtain ⟨rfl, replied⟩ := Prod.mk.inj (Option.some.inj returned)
      exact iff_of_true (FileSystem.atomic_of_unchanged
        (FileSystem.rmdir_failed (List.singleton_inj.mp replied)) trivial) trivial
  | rename src dest flags =>
      obtain ⟨⟨last, reply⟩, renamed, same⟩ := Option.map_eq_some_iff.mp returned
      cases same
      obtain ⟨_, same, renamed⟩ := FileSystem.rename_cases renamed
      cases same
      exact iff_of_true (FileSystem.atomic_of_unchanged renamed.failed trivial) trivial
  | openFile path =>
      obtain ⟨rfl, replied⟩ := Prod.mk.inj (Option.some.inj returned)
      exact iff_of_true (FileSystem.atomic_of_unchanged (fun _ =>
        FileSystem.openFile_failed (List.singleton_inj.mp replied)) trivial) trivial
  | opendir path =>
      obtain ⟨rfl, replied⟩ := Prod.mk.inj (Option.some.inj returned)
      exact iff_of_true (FileSystem.atomic_of_unchanged (fun _ =>
        FileSystem.opendir_failed (List.singleton_inj.mp replied)) trivial) trivial
  | write path fh buf behind offset junk =>
      obtain ⟨⟨last, reply⟩, wrote, same⟩ := Option.map_eq_some_iff.mp returned
      cases same
      cases fh with
      | none =>
          cases wrote
          exact iff_of_true (FileSystem.atomic_of_unchanged (fun _ => rfl) trivial) trivial
      | some fh =>
          obtain ⟨_, same, writing⟩ := FileSystem.write_cases wrote
          cases same
          exact FileSystem.atomic_iff_and.trans (writing.atomic_iff sound)
  | read fh bytes offset =>
      obtain ⟨reply, _, same⟩ := Option.map_eq_some_iff.mp returned
      cases same
      exact iff_of_true (FileSystem.atomic_of_unchanged (fun _ => rfl) trivial) trivial
  | getattr path =>
      obtain ⟨rfl, _⟩ := Prod.mk.inj (Option.some.inj returned)
      exact iff_of_true (FileSystem.atomic_of_unchanged (fun _ => rfl) trivial) trivial

/-- The file system of the bots "a" and "k" after "/a/f" was made, and removed on
one side only. -/
def halfMade : FileSystem :=
  (((FileSystem.init ⟨true, [97], [107]⟩).newFile [slash, 97, slash, 102] (some .empty)
    (modeReg ||| 0o644) 0 1).newFile [slash, 107, slash, 102] (some .empty) (modeReg ||| 0o644)
      0 1).delFile ⟨3, [slash, 97, slash, 102], some .empty, ⟨modeReg ||| 0o644, 0, 1, 0, 0⟩⟩

theorem halfMade_reached : Reached ⟨true, [97], [107]⟩ halfMade :=
  ⟨[.mknod [slash, 97, slash, 102] 0o644 0, .unlink [slash, 97, slash, 102]], _, Run.of_exec rfl⟩

/-- A file is made below the first bot again, which fails at the counterpart. -/
theorem failed_mknod_leaves_file : ∃ (fs next : FileSystem) (ret : Int),
    Reached ⟨true, [97], [107]⟩ fs ∧
      fs.step (.mknod [slash, 97, slash, 102] 0o644 0) = some (next, [.code ret]) ∧
      ret = -EEXIST ∧ ¬ SameEntries fs next := by
  refine ⟨halfMade, _, -EEXIST, halfMade_reached, rfl, rfl, ?_⟩
  exact FileSystem.not_sameEntries_newFile halfMade_reached.sound _ _ _ _ _

/-- A file is made below the first bot, with a free counterpart. -/
theorem call_atomic_of_mirrored : ∃ (next : FileSystem) (ret : Int),
    (FileSystem.init ⟨true, [97], [107]⟩).Atomic (.mknod [slash, 97, slash, 102] 0o644 0) next ret := by
  refine ⟨_, 0, (call_atomic_iff ⟨[], [], .nil⟩ rfl).mpr fun _ npath chosen => ?_⟩
  cases chosen
  exact ⟨by decide, by decide, rfl⟩

end OsPractices.Keibot
