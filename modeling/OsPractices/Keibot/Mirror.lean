import Mathlib.Data.List.Find
import Mathlib.Logic.Function.Basic
import OsPractices.Keibot.Orphans

/-!
# The mirror of the two bots

In chatbot mode, what is made and written below one bot directory is made and
written at the counterpart below the other.
-/

set_option autoImplicit false

namespace OsPractices.Keibot

open Library

/-! ## Counterparts -/

def CliOptions.bot1Path (options : CliOptions) : Path := concatenate rootPath options.bot1
def CliOptions.bot2Path (options : CliOptions) : Path := concatenate rootPath options.bot2

/-- Two paths at the same place below the two bots. -/
def Mirrors (options : CliOptions) (path npath : Path) : Prop :=
  ∃ rel, rel ≠ [] ∧
    (path = stem options.bot1Path ++ rel ∧ npath = stem options.bot2Path ++ rel ∨
      path = stem options.bot2Path ++ rel ∧ npath = stem options.bot1Path ++ rel)

/-- Two such paths, both shorter than `MAX_FILE_NAME_LEN`. -/
def ShortMirrors (options : CliOptions) (path npath : Path) : Prop :=
  Mirrors options path npath ∧ path.length < maxFileNameLen ∧ npath.length < maxFileNameLen

theorem Mirrors.symm {options : CliOptions} {path npath : Path}
    (mirrors : Mirrors options path npath) : Mirrors options npath path := by
  obtain ⟨rel, some, here⟩ := mirrors
  exact ⟨rel, some, here.symm.imp And.symm And.symm⟩

/-- A name up to its slash. -/
theorem name_of_append {name other rest rest' : Path} (isName : IsName name)
    (isName' : IsName other) (same : name ++ slash :: rest = other ++ slash :: rest') :
    name = other := by
  have head : ∀ {name rest : Path}, IsName name →
      (name ++ slash :: rest).takeWhile (· ≠ slash) = name := by
    intro name rest isName
    rw [List.takeWhile_append_of_pos]
    · simp
    · intro byte inside
      simp only [ne_eq, decide_eq_true_eq]
      rintro rfl
      exact isName.2 inside
  rw [← @head name rest isName, same, head isName']

theorem stem_name {name : Path} (isName : IsName name) :
    stem (slash :: name) = slash :: (name ++ [slash]) := by
  have notRoot : slash :: name ≠ rootPath := by simpa [rootPath] using isName.1
  rw [stem, if_neg notRoot, List.cons_append]

theorem stem_bot {name rel : Path} (isName : IsName name)
    (short : (stem (concatenate rootPath name) ++ rel).length < maxFileNameLen) :
    concatenate rootPath name = slash :: name ∧
      stem (concatenate rootPath name) ++ rel = slash :: (name ++ slash :: rel) := by
  have whole : concatenate rootPath name = slash :: name.take 1023 := rfl
  have cut : IsName (name.take 1023) :=
    ⟨by simpa using isName.1, fun inside => isName.2 (List.mem_of_mem_take inside)⟩
  rw [whole, stem_name cut] at short
  have fits : name.length ≤ 1023 := by
    simp only [List.length_append, List.length_cons, List.length_take, List.length_nil,
      maxFileNameLen] at short
    omega
  rw [whole, List.take_of_length_le fits, stem_name isName]
  exact ⟨rfl, by simp⟩

theorem strstr_prefix (pattern rest : Path) : strstr (pattern ++ rest) pattern = some 0 := by
  have found : pattern.isPrefixOf (pattern ++ rest) = true :=
    List.isPrefixOf_iff_prefix.mpr (List.prefix_append _ _)
  simp only [strstr, List.range_succ_eq_map, List.find?_cons, List.drop_zero, found]

/-- `replace_first_after` exchanges the name of the bot. -/
theorem replaceFirstAfter_bot {oldStr newStr rest : Path}
    (short : (slash :: (oldStr ++ rest)).length < maxFileNameLen)
    (fits : newStr.length ≤ maxFileNameLen) :
    replaceFirstAfter rootPath (slash :: (oldStr ++ rest)) oldStr newStr =
      slash :: (newStr ++ rest) := by
  have length : boundedLength oldStr = oldStr.length := by
    simp only [List.length_cons, List.length_append] at short
    exact Nat.min_eq_left (by omega)
  have one : boundedLength rootPath = 1 := rfl
  simp only [replaceFirstAfter, List.take_of_length_le short.le, one, List.drop_succ_cons,
    List.drop_zero, strstr_prefix, List.take_succ_cons, List.take_zero, length,
    List.take_of_length_le fits, Nat.add_comm 1, List.drop_left]
  rfl

/-- The bots of a file system, as `keibot_init` set them. -/
structure HasBots (options : CliOptions) (fs : FileSystem) : Prop where
  same : fs.options = options
  mode : options.chatbotMode = true
  bot1 : fs.bot1Path = some options.bot1Path
  bot2 : fs.bot2Path = some options.bot2Path

theorem isPath_bot {name : Path} (isName : IsName name) : IsPath (slash :: name) := by
  refine .inr ⟨by simp, fun last => isName.2 ?_⟩
  rw [← List.singleton_append, List.getLast?_append_of_ne_nil _ isName.1] at last
  exact List.mem_of_getLast? last

theorem HasBots.counterpart {options : CliOptions} {fs : FileSystem} (bots : HasBots options fs)
    (named : options.Named) {path npath : Path} (mirrors : ShortMirrors options path npath) :
    fs.counterpart path = some (some npath) := by
  obtain ⟨⟨rel, nonempty, here⟩, short, short'⟩ := mirrors
  have parent : ∀ {name : Path}, IsName name →
      (stem (concatenate rootPath name) ++ rel).length < maxFileNameLen →
      isParentPath (concatenate rootPath name) (stem (concatenate rootPath name) ++ rel) false =
        true := by
    intro name isName short
    obtain ⟨whole, path⟩ := stem_bot isName short
    refine isParentPath_of_below (whole ▸ isPath_bot isName) ?_ ⟨rel, nonempty, rfl⟩
    rw [path] at short
    rw [whole]
    simp only [List.length_cons, List.length_append] at short ⊢
    omega
  -- the first occurrence of the bot's name is that of the directory itself
  have exchange : ∀ {name other : Path}, IsName name → IsName other →
      (stem (concatenate rootPath name) ++ rel).length < maxFileNameLen →
      (stem (concatenate rootPath other) ++ rel).length < maxFileNameLen →
      replaceFirstAfter rootPath (stem (concatenate rootPath name) ++ rel) name other =
        stem (concatenate rootPath other) ++ rel := by
    intro name other isName isName' short short'
    have path := (stem_bot isName short).2
    have npath := (stem_bot isName' short').2
    rw [path] at short ⊢
    rw [npath] at short' ⊢
    apply replaceFirstAfter_bot short
    simp only [List.length_cons, List.length_append] at short'
    omega
  unfold FileSystem.counterpart FileSystem.swtichBot
  rw [bots.same, bots.mode, bots.bot1, bots.bot2, if_pos rfl, Option.bind_some]
  rcases here with ⟨rfl, rfl⟩ | ⟨rfl, rfl⟩
  · rw [CliOptions.bot1Path, if_pos (parent named.bot1 short),
      exchange named.bot1 named.bot2 short short', CliOptions.bot2Path]
  · have other : ¬ isParentPath options.bot1Path (stem options.bot2Path ++ rel) false = true := by
      intro isParent
      have whole : options.bot1Path = slash :: options.bot1 := (stem_bot named.bot1 short').1
      obtain ⟨rel', _, same⟩ :=
        below_of_isParentPath (whole ▸ isPath_bot named.bot1) isParent
      have path : stem options.bot2Path ++ rel = slash :: (options.bot2 ++ slash :: rel) :=
        (stem_bot named.bot2 short).2
      rw [path, whole, stem_name named.bot1, List.cons_append, List.append_assoc] at same
      exact named.distinct (name_of_append named.bot1 named.bot2 (List.cons.inj same).2.symm)
    rw [if_neg other, Option.map_some, CliOptions.bot2Path, if_pos (parent named.bot2 short),
      exchange named.bot2 named.bot1 short short', CliOptions.bot1Path]

theorem stem_unique {name other rest rest' : Path} (isName : IsName name) (isName' : IsName other)
    (same : stem (concatenate rootPath name) ++ rest = stem (concatenate rootPath other) ++ rest') :
    stem (concatenate rootPath name) = stem (concatenate rootPath other) := by
  have cut : ∀ {name : Path}, IsName name →
      IsName (name.take 1023) ∧ concatenate rootPath name = slash :: name.take 1023 := by
    intro name isName
    exact ⟨⟨by simpa using isName.1, fun inside => isName.2 (List.mem_of_mem_take inside)⟩, rfl⟩
  obtain ⟨isName, whole⟩ := cut isName
  obtain ⟨isName', whole'⟩ := cut isName'
  rw [whole, whole'] at same ⊢
  rw [stem_name isName, stem_name isName', List.cons_append, List.cons_append, List.append_assoc,
    List.append_assoc] at same
  rw [name_of_append isName isName' (List.cons.inj same).2]

theorem Mirrors.unique {options : CliOptions} (named : options.Named) {path npath other : Path}
    (mirrors : Mirrors options path npath) (again : Mirrors options path other) :
    npath = other := by
  obtain ⟨rel, _, ⟨rfl, rfl⟩ | ⟨rfl, rfl⟩⟩ := mirrors
  · obtain ⟨rel', _, ⟨same, rfl⟩ | ⟨same, rfl⟩⟩ := again
    · rw [List.append_cancel_left same]
    · have stems : stem options.bot1Path = stem options.bot2Path :=
        stem_unique named.bot1 named.bot2 same
      rw [stems] at same ⊢
      rw [List.append_cancel_left same]
  · obtain ⟨rel', _, ⟨same, rfl⟩ | ⟨same, rfl⟩⟩ := again
    · have stems : stem options.bot2Path = stem options.bot1Path :=
        stem_unique named.bot2 named.bot1 same
      rw [stems] at same ⊢
      rw [List.append_cancel_left same]
    · rw [List.append_cancel_left same]

theorem ShortMirrors.ne {options : CliOptions} (named : options.Named) {path npath : Path}
    (mirrors : ShortMirrors options path npath) : path ≠ npath := by
  obtain ⟨⟨rel, _, ⟨rfl, rfl⟩ | ⟨rfl, rfl⟩⟩, short, short'⟩ := mirrors
  · intro same
    have first := (stem_bot named.bot1 short).2
    have second := (stem_bot named.bot2 short').2
    exact named.distinct (name_of_append named.bot1 named.bot2
      (List.cons.inj (first.symm.trans (same.trans second))).2)
  · intro same
    have first := (stem_bot named.bot2 short).2
    have second := (stem_bot named.bot1 short').2
    exact named.distinct (name_of_append named.bot2 named.bot1
      (List.cons.inj (first.symm.trans (same.trans second))).2).symm

/-! ## Views -/

/-- What is compared of an entry: its mode, and the data of a regular file. -/
structure View where
  mode : Mode
  data : Option (List UInt8)
  deriving DecidableEq, Repr

def Entry.view (entry : Entry) : View :=
  ⟨entry.status.mode, if entry.Regular then some entry.data else none⟩

theorem Entry.view_congr {entry other : Entry}
    (mode : entry.status.mode = other.status.mode) (data : entry.data = other.data) :
    entry.view = other.view := by
  have regular : entry.Regular ↔ other.Regular := by rw [Entry.Regular, mode]; rfl
  simp only [Entry.view, mode, data, regular]

theorem Entry.of_view {entry other : Entry} (regular : entry.Regular)
    (same : other.view = entry.view) :
    other.status.mode = entry.status.mode ∧ other.Regular ∧ other.data = entry.data := by
  have mode : other.status.mode = entry.status.mode := congrArg View.mode same
  have regular' : other.Regular := by rwa [Entry.Regular, mode]
  have data := congrArg View.data same
  simp only [Entry.view, if_pos regular, if_pos regular', Option.some.injEq] at data
  exact ⟨mode, regular', data⟩

/-- The view of an entry that was just made. -/
def View.new (mode : Mode) : View := ⟨mode, if mode &&& modeKind = modeReg then some [] else none⟩

def FileSystem.view (fs : FileSystem) (path : Path) : Option View :=
  (fs.findEntry path).map Entry.view

theorem FileSystem.findEntry_newFile {fs : FileSystem} {path : Path} {content : Option Content}
    {mode : Mode} {rdev nlink : Nat} (target : Path) :
    (fs.newFile path content mode rdev nlink).findEntry target =
      (fs.findEntry target).or (if path = target then
        some ⟨fs.nextId, path, content, ⟨mode, rdev, nlink, 0, 0⟩⟩ else none) := by
  simp [FileSystem.findEntry, FileSystem.newFile, List.find?_append, List.find?_singleton]

theorem FileSystem.view_newFile {fs : FileSystem} {path : Path} {mode : Mode} {rdev nlink : Nat}
    (new : fs.findEntry path = none) :
    (fs.newFile path (some .empty) mode rdev nlink).view =
      Function.update fs.view path (some (.new mode)) := by
  funext target
  unfold FileSystem.view
  rw [findEntry_newFile]
  by_cases here : path = target
  · subst here
    rw [new, if_pos rfl, Function.update_self]
    rfl
  · rw [if_neg here, Option.or_none, Function.update_of_ne (Ne.symm here)]

theorem FileSystem.findEntry_update {fs : FileSystem} {id : Nat} {change : Entry → Entry}
    (same : ∀ entry ∈ fs.entries, entry.id = id → (change entry).path = entry.path)
    (path : Path) :
    (fs.update id change).findEntry path =
      (fs.findEntry path).map fun entry => if entry.id = id then change entry else entry := by
  simp only [findEntry, update, List.find?_map]
  congr 1
  apply List.find?_congr
  intro entry inside
  simp only [Function.comp_apply]
  split
  case isTrue here => rw [same entry inside here]
  case isFalse => rfl

/-- The bots are set, and the paths below them are unique. -/
structure Placed (options : CliOptions) (fs : FileSystem) : Prop where
  bots : HasBots options fs
  sound : fs.Sound
  single : ∀ entry ∈ fs.entries, ∀ other ∈ fs.entries,
    (∃ npath, Mirrors options entry.path npath) → entry.path = other.path → entry = other

/-- The two trees agree. -/
structure Mirror (options : CliOptions) (fs : FileSystem) : Prop extends Placed options fs where
  same : ∀ path npath, Mirrors options path npath → fs.view path = fs.view npath

/-- One change at both places keeps the agreement. -/
theorem update_both {options : CliOptions} (named : options.Named) {view : Path → Option View}
    (same : ∀ path npath, Mirrors options path npath → view path = view npath)
    {path npath : Path} (mirrors : Mirrors options path npath) (value : Option View) :
    ∀ target ntarget, Mirrors options target ntarget →
      Function.update (Function.update view path value) npath value target =
        Function.update (Function.update view path value) npath value ntarget := by
  intro target ntarget mirrors'
  have iff : (target = npath ↔ ntarget = path) ∧ (target = path ↔ ntarget = npath) := by
    refine ⟨⟨?_, ?_⟩, ⟨?_, ?_⟩⟩
    · rintro rfl
      exact mirrors'.unique named mirrors.symm
    · rintro rfl
      exact mirrors'.symm.unique named mirrors
    · rintro rfl
      exact mirrors'.unique named mirrors
    · rintro rfl
      exact mirrors'.symm.unique named mirrors.symm
  by_cases first : target = path
  · simp [Function.update_apply, first, iff.2.mp first]
  · by_cases second : target = npath
    · simp [Function.update_apply, second, iff.1.mp second]
    · simp [first, second, mt iff.1.mpr second, mt iff.2.mpr first,
        same target ntarget mirrors']

namespace Placed

variable {options : CliOptions} {fs : FileSystem}

theorem findEntry (placed : Placed options fs) {entry : Entry} (inside : entry ∈ fs.entries)
    {npath : Path} (mirrors : Mirrors options entry.path npath) :
    fs.findEntry entry.path = some entry := by
  cases found : fs.findEntry entry.path with
  | none => exact absurd rfl (FileSystem.findEntry_none.mp found entry inside)
  | some other =>
      obtain ⟨inside', path⟩ := FileSystem.findEntry_some found
      rw [placed.single entry inside other inside' ⟨npath, mirrors⟩ path.symm]

theorem newFile (placed : Placed options fs) {path : Path} (new : fs.findEntry path = none)
    (mode : Mode) (rdev nlink : Nat) :
    Placed options (fs.newFile path (some .empty) mode rdev nlink) where
  bots := ⟨placed.bots.same, placed.bots.mode, placed.bots.bot1, placed.bots.bot2⟩
  sound := placed.sound.newFile (Entry.sized_new _ _ _ _ _)
  single entry inside other inside' mirrors path' := by
    have missing := FileSystem.findEntry_none.mp new
    cases FileSystem.mem_newFile.mp inside with
    | inl old =>
        cases FileSystem.mem_newFile.mp inside' with
        | inl old' => exact placed.single entry old other old' mirrors path'
        | inr last =>
            rw [last] at path'
            exact absurd path' (missing entry old)
    | inr last =>
        cases FileSystem.mem_newFile.mp inside' with
        | inl old' =>
            rw [last] at path'
            exact absurd path'.symm (missing other old')
        | inr last' => rw [last, last']

theorem update (placed : Placed options fs) {entry written : Entry}
    (inside : entry ∈ fs.entries) (id : written.id = entry.id) (path : written.path = entry.path)
    (sized : written.Sized) : Placed options (fs.update entry.id fun _ => written) where
  bots := ⟨placed.bots.same, placed.bots.mode, placed.bots.bot1, placed.bots.bot2⟩
  sound := placed.sound.update (fun _ _ here => id.trans here.symm) fun _ _ _ => sized
  single first inside₁ second inside₂ mirrors same := by
    obtain ⟨old₁, member₁, rfl⟩ := FileSystem.mem_update.mp inside₁
    obtain ⟨old₂, member₂, rfl⟩ := FileSystem.mem_update.mp inside₂
    have paths : ∀ old ∈ fs.entries,
        (if old.id = entry.id then written else old).path = old.path := by
      intro old member
      split
      case isTrue here => rw [path, placed.sound.same member inside here]
      case isFalse => rfl
    rw [paths old₁ member₁] at mirrors same
    rw [paths old₂ member₂] at same
    rw [placed.single old₁ member₁ old₂ member₂ mirrors same]

theorem view_update (placed : Placed options fs) {entry written : Entry}
    (inside : entry ∈ fs.entries) {npath : Path} (mirrors : Mirrors options entry.path npath)
    (path : written.path = entry.path) :
    (fs.update entry.id fun _ => written).view =
      Function.update fs.view entry.path (some written.view) := by
  have keeps : ∀ old ∈ fs.entries, old.id = entry.id → written.path = old.path := by
    intro old member here
    rw [path, placed.sound.same member inside here]
  funext target
  unfold FileSystem.view
  rw [FileSystem.findEntry_update keeps, Option.map_map]
  by_cases here : target = entry.path
  · subst here
    rw [placed.findEntry inside mirrors, Function.update_self]
    simp
  · rw [Function.update_of_ne here]
    cases found : fs.findEntry target with
    | none => rfl
    | some other =>
        obtain ⟨member, path'⟩ := FileSystem.findEntry_some found
        have apart : other.id ≠ entry.id := by
          intro id
          rw [placed.sound.same member inside id] at path'
          exact here path'.symm
        simp [apart]

end Placed

theorem view_eq_none {fs : FileSystem} {path : Path} :
    fs.view path = none ↔ fs.findEntry path = none := by simp [FileSystem.view]

namespace Mirror

variable {options : CliOptions} {fs : FileSystem}

theorem missing (mirror : Mirror options fs) {path npath : Path}
    (mirrors : Mirrors options path npath) (new : fs.findEntry path = none) :
    fs.findEntry npath = none :=
  view_eq_none.mp (mirror.same path npath mirrors ▸ view_eq_none.mpr new)

/-- A new path is made at both places. -/
theorem createBoth_new (mirror : Mirror options fs) (named : options.Named) {path npath : Path}
    (mirrors : ShortMirrors options path npath) (new : fs.findEntry path = none) (mode : Mode)
    (rdev nlink : Nat) :
    ∃ next, fs.createBoth path mode rdev nlink = some (next, .code 0) ∧ Mirror options next := by
  obtain ⟨same, short, short'⟩ := id mirrors
  have placed := mirror.toPlaced.newFile new mode rdev nlink
  have new' : (fs.newFile path (some .empty) mode rdev nlink).findEntry npath = none := by
    rw [FileSystem.findEntry_newFile, mirror.missing same new, if_neg (mirrors.ne named)]
    rfl
  refine ⟨(fs.newFile path (some .empty) mode rdev nlink).newFile npath (some .empty) mode rdev
    nlink, ?_, placed.newFile new' mode rdev nlink, ?_⟩
  · have first := FileSystem.createFile_new new short.le mode rdev nlink
    have second := FileSystem.createFile_new new' short'.le mode rdev nlink
    simp only [FileSystem.createBoth, first, lt_irrefl, if_false,
      placed.bots.counterpart named mirrors, Option.map_some, second]
  · rw [FileSystem.view_newFile new', FileSystem.view_newFile new]
    exact update_both named mirror.same same (some (.new mode))

end Mirror

namespace FileSystem

variable {fs : FileSystem}

theorem createBoth_old {path : Path} {entry : Entry} (old : fs.findEntry path = some entry)
    (mode : Mode) (rdev nlink : Nat) :
    ∃ ret, fs.createBoth path mode rdev nlink = some (fs, .code ret) := by
  rcases fs.createFile_cases path mode rdev nlink with ⟨new, _⟩ | ⟨same, failed⟩
  · exact nomatch new.symm.trans old
  · refine ⟨(fs.createFile path mode rdev nlink).2, ?_⟩
    simp only [createBoth, if_pos failed, same]

theorem writeFile_total {entry : Entry} {content : Content} (known : entry.content = some content)
    (buf : List UInt8) (offset : Nat) (junk : Memory) :
    ∃ next ret, writeFile entry buf offset junk = some (next, ret) := by
  unfold writeFile
  split
  case isTrue => exact ⟨_, _, rfl⟩
  case isFalse =>
    dsimp only
    split
    case isTrue => exact ⟨_, _, rfl⟩
    case isFalse =>
      split
      case isTrue => exact ⟨_, _, rfl⟩
      case isFalse =>
        rw [known]
        exact ⟨_, _, rfl⟩

theorem writeEntry_total (sound : fs.Sound) {entry : Entry} (inside : entry ∈ fs.entries)
    (regular : entry.Regular) {buf behind text : List UInt8} {offset start : Nat}
    (chosen : fs.emojiOr buf behind offset = some (text, start)) (junk : Memory) :
    ∃ written ret, Wrote entry text start junk written ret ∧
      fs.writeEntry entry buf behind offset junk =
        some (fs.update entry.id fun _ => written, ret) := by
  have content : ∃ content, entry.content = some content := by
    cases known : entry.content with
    | none => exact absurd ((sound.sized entry inside).missing known).2 regular.not_directory
    | some content => exact ⟨content, rfl⟩
  obtain ⟨content, known⟩ := content
  obtain ⟨written, ret, stored⟩ := writeFile_total known text start junk
  have wrote := writeFile_cases stored
  refine ⟨written, ret, wrote, ?_⟩
  simp only [writeEntry, chosen, Option.bind_some, stored, Option.map_some, wrote.keeps.1]

end FileSystem

namespace Mirror

variable {options : CliOptions} {fs : FileSystem}

/-- A write through the handle of one of two mirrored files writes both. -/
theorem write (mirror : Mirror options fs) (named : options.Named) {entry : Entry}
    {npath : Path} (mirrors : ShortMirrors options entry.path npath)
    (inside : entry ∈ fs.entries) (regular : entry.Regular) {buf behind text : List UInt8}
    {offset start : Nat} (chosen : fs.emojiOr buf behind offset = some (text, start))
    (starts : start ≤ entry.status.size) (junk : Nat → Memory) :
    ∃ next ret, fs.write entry.path (some entry.id) buf behind offset junk =
      some (next, .code ret) ∧ Mirror options next := by
  have sized := mirror.sound.sized entry inside
  obtain ⟨written, ret, wrote, first⟩ :=
    FileSystem.writeEntry_total mirror.sound inside regular chosen (junk 0)
  obtain ⟨id, path, mode⟩ := wrote.keeps
  have placed := mirror.toPlaced.update inside id path (wrote.sized sized)
  have viewed := mirror.toPlaced.view_update inside mirrors.1 path
  have here := mirror.toPlaced.findEntry inside mirrors.1
  simp only [FileSystem.write, mirror.sound.deref inside, Option.bind_some, first]
  rcases wrote.outcome with ⟨isDir, _⟩ | ⟨_, rfl, rfl⟩ | rfl
  · exact absurd isDir (by simp [regular.isDir])
  · refine ⟨_, -ENOMEM, if_pos (by decide), placed, ?_⟩
    have same : fs.view written.path = some written.view := by simp [FileSystem.view, here]
    rw [viewed, ← same, Function.update_eq_self]
    exact mirror.same
  · rw [if_neg (lt_irrefl 0), placed.bots.counterpart named mirrors, Option.bind_some,
      Option.bind_some]
    -- the counterpart exists, with the same mode and data
    have viewed' : fs.view npath = some entry.view := by
      rw [← mirror.same _ _ mirrors.1, FileSystem.view, here, Option.map_some]
    obtain ⟨other, found, same⟩ := Option.map_eq_some_iff.mp viewed'
    obtain ⟨mode', regular', data⟩ := Entry.of_view regular same
    obtain ⟨inside', path'⟩ := FileSystem.findEntry_some found
    have apart : other.id ≠ entry.id := fun id =>
      mirrors.ne named (path' ▸ congrArg Entry.path (mirror.sound.same inside' inside id)).symm
    have found' : (fs.update entry.id fun _ => written).findEntry npath = some other := by
      rw [FileSystem.findEntry_update, found, Option.map_some, if_neg apart]
      intro old member here
      rw [path, mirror.sound.same member inside here]
    have member := (FileSystem.findEntry_some found').1
    obtain ⟨written', ret', wrote', second⟩ :=
      FileSystem.writeEntry_total placed.sound member regular'
        (chosen : (fs.update entry.id fun _ => written).emojiOr buf behind offset = _) (junk 1)
    obtain ⟨id', path'', mode''⟩ := wrote'.keeps
    have sized' := placed.sound.sized other member
    have size : other.status.size = entry.status.size := by
      rw [← sized'.length_data, ← sized.length_data, data]
    -- both sizes ask for the same block
    have done : ret' = 0 := by
      rcases wrote'.outcome with ⟨isDir, _⟩ | ⟨large, _, _⟩ | done
      · exact absurd isDir (by simp [regular'.isDir])
      · obtain ⟨finish, limit⟩ := wrote.size sized
        exact absurd large (Nat.not_lt.mpr (finish ▸ limit))
      · exact done
    subst done
    have views : written'.view = written.view := by
      have mode₂ : written'.status.mode = written.status.mode :=
        mode''.trans (mode'.trans mode.symm)
      have data₂ : written'.data = written.data := by
        rw [wrote'.data sized' (size ▸ starts), wrote.data sized starts, data]
      exact Entry.view_congr mode₂ data₂
    have mirrors' : Mirrors options other.path entry.path := path' ▸ mirrors.1.symm
    refine ⟨_, (buf.length : Int).bmod (2 ^ 32), by simp only [found', second, Option.map_some],
      placed.update member id' path'' (wrote'.sized sized'), ?_⟩
    rw [placed.view_update member mirrors' path'', viewed, path', views]
    exact update_both named mirror.same mirrors.1 (some written.view)

end Mirror

/-! ## Runs below the bots -/

/-- Files and directories made below a bot, and writes to regular files there
through a handle of the entry, from within the file, with emoji that exist. -/
def InBots (options : CliOptions) (fs : FileSystem) : Call → Prop
  | .mknod path _ _ => ∃ npath, ShortMirrors options path npath
  | .mkdir path _ => ∃ npath, ShortMirrors options path npath
  | .write path fh buf behind offset _ => (∃ npath, ShortMirrors options path npath) ∧
      ∃ entry ∈ fs.entries, fh = some entry.id ∧ entry.path = path ∧ entry.Regular ∧
        offset ≤ entry.status.size ∧ getEmojiId (buf ++ behind) < fs.emoji.length
  | _ => False

/-- A path is made that is not there. -/
def Creates (fs : FileSystem) : Call → Prop
  | .mknod path _ _ => fs.findEntry path = none
  | .mkdir path _ => fs.findEntry path = none
  | _ => False

theorem Mirrors.two_slashes {options : CliOptions} (named : options.Named) {path npath : Path}
    (mirrors : Mirrors options path npath) {name : Path} (separate : slash ∉ name) :
    path ≠ slash :: name := by
  have deep : ∀ {bot rel : Path}, IsName bot →
      stem (concatenate rootPath bot) ++ rel ≠ slash :: name := by
    intro bot rel isName same
    have cut : IsName (bot.take 1023) :=
      ⟨by simpa using isName.1, fun inside => isName.2 (List.mem_of_mem_take inside)⟩
    rw [show concatenate rootPath bot = slash :: bot.take 1023 from rfl, stem_name cut,
      List.cons_append, List.append_assoc] at same
    refine separate ((List.cons.inj same).2 ▸ ?_)
    simp
  obtain ⟨rel, _, ⟨rfl, _⟩ | ⟨rfl, _⟩⟩ := mirrors
  · exact deep named.bot1
  · exact deep named.bot2

theorem Mirror.init {options : CliOptions} (chatbot : options.chatbotMode = true)
    (named : options.Named) : Mirror options (.init options) := by
  have shallow : ∀ entry ∈ (FileSystem.init options).entries,
      ∃ name, slash ∉ name ∧ entry.path = slash :: name := by
    intro entry inside
    have cases : entry.path = rootPath ∨ entry.path = slash :: options.bot1.take 1023 ∨
        entry.path = slash :: options.bot2.take 1023 := by
      simp only [FileSystem.init, chatbot, if_true, FileSystem.newFile, List.nil_append,
        List.cons_append, List.mem_cons, List.not_mem_nil, or_false] at inside
      rcases inside with rfl | rfl | rfl
      · exact .inl rfl
      · exact .inr (.inl rfl)
      · exact .inr (.inr rfl)
    rcases cases with root | bot1 | bot2
    · exact ⟨[], by simp, root⟩
    · exact ⟨_, fun inside => named.bot1.2 (List.mem_of_mem_take inside), bot1⟩
    · exact ⟨_, fun inside => named.bot2.2 (List.mem_of_mem_take inside), bot2⟩
  have none : ∀ path npath, Mirrors options path npath →
      (FileSystem.init options).view path = none := by
    intro path npath mirrors
    rw [view_eq_none, FileSystem.findEntry_none]
    intro entry inside here
    obtain ⟨name, separate, path'⟩ := shallow entry inside
    exact mirrors.two_slashes named separate (here.symm.trans path')
  refine ⟨⟨⟨?_, chatbot, ?_, ?_⟩, FileSystem.Sound.init options, ?_⟩, ?_⟩
  · simp only [FileSystem.init, chatbot, if_true, FileSystem.newFile]
  · simp only [FileSystem.init, chatbot, if_true, FileSystem.newFile]
    rfl
  · simp only [FileSystem.init, chatbot, if_true, FileSystem.newFile]
    rfl
  · intro entry inside _ _ mirrored
    obtain ⟨npath, mirrors⟩ := mirrored
    obtain ⟨name, separate, path⟩ := shallow entry inside
    exact absurd path (mirrors.two_slashes named separate)
  · intro path npath mirrors
    rw [none path npath mirrors, none npath path mirrors.symm]

theorem FileSystem.emojiOr_starts {fs : FileSystem} {buf behind : List UInt8} {offset size : Nat}
    (starts : offset ≤ size) (known : getEmojiId (buf ++ behind) < fs.emoji.length) :
    ∃ text start, fs.emojiOr buf behind offset = some (text, start) ∧ start ≤ size := by
  unfold emojiOr
  dsimp only
  split
  case isTrue emoji =>
    have inside : (getEmojiId (buf ++ behind)).toNat < fs.emoji.length := by
      simp only [Bool.and_eq_true, decide_eq_true_eq] at emoji
      omega
    rw [List.getElem?_eq_getElem inside]
    exact ⟨_, 0, rfl, Nat.zero_le _⟩
  case isFalse => exact ⟨buf, offset, rfl, starts⟩

/-- One request below the bots returns, keeps the trees equal, and does not fail
where it makes a new path. -/
theorem Mirror.step {options : CliOptions} {fs : FileSystem} (mirror : Mirror options fs)
    (named : options.Named) {call : Call} (inBots : InBots options fs call) :
    ∃ next ret, fs.step call = some (next, [.code ret]) ∧ Mirror options next ∧
      (Creates fs call → ret = 0) := by
  have both : ∀ {path npath : Path}, ShortMirrors options path npath →
      ∀ mode rdev nlink, ∃ next ret, fs.createBoth path mode rdev nlink = some (next, .code ret) ∧
        Mirror options next ∧ (fs.findEntry path = none → ret = 0) := by
    intro path npath mirrors mode rdev nlink
    cases found : fs.findEntry path with
    | none =>
        obtain ⟨next, created, mirror⟩ := mirror.createBoth_new named mirrors found mode rdev nlink
        exact ⟨next, 0, created, mirror, fun _ => rfl⟩
    | some entry =>
        obtain ⟨ret, created⟩ := FileSystem.createBoth_old found mode rdev nlink
        exact ⟨fs, ret, created, mirror, nofun⟩
  cases call with
  | mknod path mode rdev =>
      obtain ⟨npath, mirrors⟩ := inBots
      obtain ⟨next, ret, created, mirror, new⟩ := both mirrors (modeReg ||| mode) rdev 1
      exact ⟨next, ret, by rw [FileSystem.step, FileSystem.mknod, created]; rfl, mirror, new⟩
  | mkdir path mode =>
      obtain ⟨npath, mirrors⟩ := inBots
      obtain ⟨next, ret, created, mirror, new⟩ := both mirrors (modeDir ||| mode) 0 2
      exact ⟨next, ret, by rw [FileSystem.step, FileSystem.mkdir, created]; rfl, mirror, new⟩
  | write path fh buf behind offset junk =>
      obtain ⟨⟨npath, mirrors⟩, entry, inside, rfl, rfl, regular, starts, known⟩ := inBots
      obtain ⟨text, start, chosen, within⟩ := FileSystem.emojiOr_starts starts known
      obtain ⟨next, ret, wrote, mirror⟩ :=
        mirror.write named mirrors inside regular chosen within junk
      exact ⟨next, ret, by rw [FileSystem.step, wrote]; rfl, mirror, False.elim⟩
  | _ => exact inBots.elim

/-- The entries at two paths: the same mode, and of regular files the same size
and the same first `st_size` bytes. -/
structure SameAt (fs : FileSystem) (path npath : Path) : Prop where
  present : (∃ entry ∈ fs.entries, entry.path = path) ↔ ∃ entry ∈ fs.entries, entry.path = npath
  mode : ∀ entry ∈ fs.entries, ∀ other ∈ fs.entries, entry.path = path → other.path = npath →
    entry.status.mode = other.status.mode
  file : ∀ entry ∈ fs.entries, ∀ other ∈ fs.entries, entry.path = path → other.path = npath →
    entry.Regular → entry.status.size = other.status.size ∧ entry.data = other.data

theorem Mirror.sameAt {options : CliOptions} {fs : FileSystem} (mirror : Mirror options fs)
    {path npath : Path} (mirrors : Mirrors options path npath) : SameAt fs path npath := by
  have views : ∀ entry ∈ fs.entries, ∀ other ∈ fs.entries, entry.path = path →
      other.path = npath → other.view = entry.view := by
    rintro entry inside other inside' rfl rfl
    have same := mirror.same _ _ mirrors
    rw [FileSystem.view, FileSystem.view, mirror.toPlaced.findEntry inside mirrors,
      mirror.toPlaced.findEntry inside' mirrors.symm] at same
    exact (Option.some.inj same).symm
  have present : ∀ {path npath : Path}, Mirrors options path npath →
      (∃ entry ∈ fs.entries, entry.path = path) → ∃ entry ∈ fs.entries, entry.path = npath := by
    rintro path npath mirrors ⟨entry, inside, here⟩
    by_contra absent
    have missing : fs.findEntry npath = none := by
      apply FileSystem.findEntry_none.mpr
      intro other inside' here'
      exact absent ⟨other, inside', here'⟩
    have vanished : fs.findEntry path = none :=
      view_eq_none.mp (mirror.same _ _ mirrors ▸ view_eq_none.mpr missing)
    exact FileSystem.findEntry_none.mp vanished entry inside here
  refine ⟨⟨present mirrors, present mirrors.symm⟩, ?_, ?_⟩
  · intro entry inside other inside' here here'
    exact (congrArg View.mode (views entry inside other inside' here here')).symm
  · intro entry inside other inside' here here' regular
    obtain ⟨_, _, data⟩ :=
      Entry.of_view regular (views entry inside other inside' here here')
    refine ⟨?_, data.symm⟩
    rw [← (mirror.sound.sized entry inside).length_data,
      ← (mirror.sound.sized other inside').length_data, data]

end OsPractices.Keibot
