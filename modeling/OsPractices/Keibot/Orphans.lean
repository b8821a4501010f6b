import OsPractices.Keibot.Rename

/-!
# Orphans

Every entry has its parent among the directories, as long as no request takes a
directory away from what is below it, or makes a counterpart without a parent.
-/

set_option autoImplicit false

namespace OsPractices.Keibot

open Library

/-- A component of a path. -/
def IsName (name : Path) : Prop := name ≠ [] ∧ slash ∉ name

instance (name : Path) : Decidable (IsName name) := inferInstanceAs (Decidable (_ ∧ _))

/-- The options of a mount: two bots with names of their own. -/
structure CliOptions.Named (options : CliOptions) : Prop where
  bot1 : IsName options.bot1
  bot2 : IsName options.bot2
  distinct : options.bot1 ≠ options.bot2

/-- A path is that of a child of an entry that is a directory. -/
def HasParent (fs : FileSystem) (path : Path) : Prop :=
  ∃ dir ∈ fs.entries, dir.Directory ∧ ∃ name, IsName name ∧ path = stem dir.path ++ name

instance (fs : FileSystem) (path : Path) : Decidable (HasParent fs path) :=
  decidable_of_iff (∃ dir ∈ fs.entries, dir.Directory ∧
      IsName (path.drop (stem dir.path).length) ∧ stem dir.path <+: path) (by
    refine exists_congr fun dir => and_congr_right fun _ => and_congr_right fun _ => ?_
    constructor
    · rintro ⟨isName, name, rfl⟩
      exact ⟨name, by simpa using isName, rfl⟩
    · rintro ⟨name, isName, rfl⟩
      exact ⟨by simpa using isName, List.prefix_append _ _⟩)

def NoOrphans (fs : FileSystem) : Prop :=
  ∀ entry ∈ fs.entries, entry.path ≠ rootPath → HasParent fs entry.path

/-- The requests that the kernel issues. -/
def Issued (fs : FileSystem) : Call → Prop
  | .mknod path _ _ => HasParent fs path
  | .mkdir path _ => HasParent fs path
  | .rename src dest _ => (fs.findEntry src).isSome ∧ HasParent fs dest
  | .unlink path => (fs.findEntry path).isSome
  | .rmdir path => (fs.findEntry path).isSome
  | .openFile path => (fs.findEntry path).isSome
  | .opendir path => (fs.findEntry path).isSome
  | _ => True

/-- A directory for the counterpart, where one is made. -/
def MirrorsInto (fs : FileSystem) (path : Path) : Prop :=
  fs.findEntry path = none → path.length ≤ maxFileNameLen →
    ∀ npath ∈ (fs.counterpart path).join, fs.findEntry npath = none →
      npath.length ≤ maxFileNameLen → HasParent fs npath

def Childless (fs : FileSystem) (path : Path) : Prop :=
  ∀ other ∈ fs.entries, ¬ Below path other.path

/-- The requests that leave no entry behind without its parent. -/
def KeepsParents (fs : FileSystem) : Call → Prop
  | .mknod path _ _ => MirrorsInto fs path
  | .mkdir path _ => MirrorsInto fs path
  | .unlink path => ∀ entry ∈ fs.findEntry path, entry.isDir = false → Childless fs path
  | .rmdir path => ∀ entry ∈ fs.findEntry path, entry.isReg = false →
      path.length + 1 < maxFileNameLen ∨ Childless fs path
  | .rename src dest flags => src.take maxFileNameLen ≠ dest.take maxFileNameLen →
      ¬ (flags = renameNoreplace ∧ (fs.findEntry dest).isSome) →
      ¬ Below src dest ∧ Childless fs src ∧
        ((∀ entry ∈ fs.findEntry src, entry.Directory) ∨ Childless fs dest)
  | _ => True

instance (fs : FileSystem) (path : Path) : Decidable (MirrorsInto fs path) :=
  inferInstanceAs (Decidable (_ → _ → ∀ npath ∈ (fs.counterpart path).join, _))

instance (fs : FileSystem) (path : Path) : Decidable (Childless fs path) :=
  inferInstanceAs (Decidable (∀ other ∈ fs.entries, _))

instance (fs : FileSystem) : (call : Call) → Decidable (Issued fs call)
  | .mknod path _ _ | .mkdir path _ => inferInstanceAs (Decidable (HasParent fs path))
  | .rename src dest _ =>
      inferInstanceAs (Decidable ((fs.findEntry src).isSome ∧ HasParent fs dest))
  | .unlink path | .rmdir path | .openFile path | .opendir path =>
      inferInstanceAs (Decidable ((fs.findEntry path).isSome = true))
  | .write _ _ _ _ _ _ | .read _ _ _ | .getattr _ => isTrue trivial

instance (fs : FileSystem) : (call : Call) → Decidable (KeepsParents fs call)
  | .mknod path _ _ | .mkdir path _ => inferInstanceAs (Decidable (MirrorsInto fs path))
  | .unlink path =>
      inferInstanceAs (Decidable (∀ entry ∈ fs.findEntry path,
        entry.isDir = false → Childless fs path))
  | .rmdir path =>
      inferInstanceAs (Decidable (∀ entry ∈ fs.findEntry path, entry.isReg = false →
        path.length + 1 < maxFileNameLen ∨ Childless fs path))
  | .rename src dest flags =>
      inferInstanceAs (Decidable (src.take maxFileNameLen ≠ dest.take maxFileNameLen →
        ¬ (flags = renameNoreplace ∧ (fs.findEntry dest).isSome) →
        ¬ Below src dest ∧ Childless fs src ∧
          ((∀ entry ∈ fs.findEntry src, entry.Directory) ∨ Childless fs dest)))
  | .openFile _ | .opendir _ | .write _ _ _ _ _ _ | .read _ _ _ | .getattr _ => isTrue trivial

theorem HasParent.mono {fs next : FileSystem} {path : Path} (parent : HasParent fs path)
    (keeps : ∀ dir ∈ fs.entries, dir.Directory → Below dir.path path →
      ∃ dir' ∈ next.entries, dir'.path = dir.path ∧ dir'.Directory) : HasParent next path := by
  obtain ⟨dir, inside, directory, name, isName, rfl⟩ := parent
  obtain ⟨dir', inside', same, directory'⟩ := keeps dir inside directory ⟨name, isName.1, rfl⟩
  exact ⟨dir', inside', directory', name, isName, by rw [same]⟩

theorem HasParent.isPath {fs : FileSystem} {path : Path} (parent : HasParent fs path) :
    IsPath path := by
  obtain ⟨dir, _, _, name, ⟨some, separate⟩, rfl⟩ := parent
  refine .inr ⟨by simp [some], fun last => separate ?_⟩
  rw [List.getLast?_append_of_ne_nil _ some] at last
  exact List.mem_of_getLast? last

theorem NoOrphans.isPath {fs : FileSystem} (closed : NoOrphans fs) {entry : Entry}
    (inside : entry ∈ fs.entries) : IsPath entry.path := by
  by_cases root : entry.path = rootPath
  · exact .inl root
  · exact (closed entry inside root).isPath

namespace NoOrphans

variable {fs next : FileSystem}

theorem newFile (closed : NoOrphans fs) {path : Path} {content : Option Content} {mode : Mode}
    {rdev nlink : Nat} (parent : path ≠ rootPath → HasParent fs path) :
    NoOrphans (fs.newFile path content mode rdev nlink) := by
  have grows : ∀ other, HasParent fs other →
      HasParent (fs.newFile path content mode rdev nlink) other := fun _ parent =>
    parent.mono fun dir inside directory _ =>
      ⟨dir, FileSystem.mem_newFile.mpr (.inl inside), rfl, directory⟩
  intro entry inside notRoot
  have parent : HasParent fs entry.path := by
    cases FileSystem.mem_newFile.mp inside with
    | inl old => exact closed entry old notRoot
    | inr new =>
        subst new
        exact parent notRoot
  exact grows entry.path parent

theorem delFile (closed : NoOrphans fs) (sound : fs.Sound) {entry : Entry}
    (inside : entry ∈ fs.entries) (childless : Childless fs entry.path) :
    NoOrphans (fs.delFile entry) := by
  intro other member notRoot
  obtain ⟨old, _⟩ := FileSystem.mem_delFile.mp member
  refine (closed other old notRoot).mono fun dir there directory below => ?_
  refine ⟨dir, FileSystem.mem_delFile.mpr ⟨there, fun id => ?_⟩, rfl, directory⟩
  rw [sound.same there inside id] at below
  exact childless other old below

theorem update (closed : NoOrphans fs) {id : Nat} {change : Entry → Entry}
    (same : ∀ entry ∈ fs.entries, entry.id = id → (change entry).path = entry.path ∧
      (change entry).status.mode = entry.status.mode) : NoOrphans (fs.update id change) := by
  have kept : ∀ old ∈ fs.entries, ∀ entry, (if old.id = id then change old else old) = entry →
      entry.path = old.path ∧ entry.status.mode = old.status.mode := by
    intro old inside entry changed
    subst changed
    split
    case isTrue here => exact same old inside here
    case isFalse => exact ⟨rfl, rfl⟩
  intro entry member notRoot
  obtain ⟨old, inside, changed⟩ := FileSystem.mem_update.mp member
  have path := (kept old inside entry changed).1
  rw [path] at notRoot ⊢
  refine (closed old inside notRoot).mono fun dir there directory _ => ?_
  refine ⟨_, FileSystem.mem_update.mpr ⟨dir, there, rfl⟩, (kept dir there _ rfl).1, ?_⟩
  rw [Entry.Directory, (kept dir there _ rfl).2]
  exact directory

theorem createFile (closed : NoOrphans fs) {path : Path} {mode : Mode} {rdev nlink : Nat}
    (parent : fs.findEntry path = none → path.length ≤ maxFileNameLen → HasParent fs path) :
    NoOrphans (fs.createFile path mode rdev nlink).1 := by
  unfold FileSystem.createFile
  split
  case isTrue => exact closed
  case isFalse fits =>
    split
    case h_1 => exact closed
    case h_2 new => exact closed.newFile fun _ => parent new (Nat.not_lt.mp fits)

theorem createBoth (closed : NoOrphans fs) {path : Path} {mode : Mode} {rdev nlink : Nat}
    {reply : Reply} (parent : HasParent fs path) (mirrors : MirrorsInto fs path)
    (created : fs.createBoth path mode rdev nlink = some (next, reply)) : NoOrphans next := by
  refine FileSystem.createBoth_preserves (closed.createFile fun _ _ => parent) ?_ created
  intro npath new fits chosen
  have first : NoOrphans (fs.newFile path (some .empty) mode rdev nlink) :=
    closed.newFile fun _ => parent
  refine first.createFile fun new' fits' => ?_
  have missing : fs.findEntry npath = none := FileSystem.findEntry_none.mpr fun entry inside =>
    FileSystem.findEntry_none.mp new' entry (FileSystem.mem_newFile.mpr (.inl inside))
  exact (mirrors new fits npath chosen missing fits').mono fun dir inside directory _ =>
    ⟨dir, FileSystem.mem_newFile.mpr (.inl inside), rfl, directory⟩

theorem moved (closed : NoOrphans fs) (sound : fs.Sound) {src dest : Path} {srcEntry : Entry}
    (found : fs.findEntry src = some srcEntry) (different : src ≠ dest)
    (target : HasParent fs dest) (outside : ¬ Below src dest) (childless : Childless fs src)
    (takes : srcEntry.Directory ∨ Childless fs dest) : NoOrphans (fs.moved srcEntry dest) := by
  obtain ⟨inside, path⟩ := FileSystem.findEntry_some found
  -- a directory of the old tree that is not the source is still there, or the source is
  have kept : ∀ path, HasParent fs path → ¬ Below src path →
      (srcEntry.Directory ∨ ¬ Below dest path) → HasParent (fs.moved srcEntry dest) path := by
    intro path' parent away spared
    refine parent.mono fun dir there directory below => ?_
    by_cases replaced : fs.findEntry dest = some dir
    · have here := (FileSystem.findEntry_some replaced).2
      have directory' := spared.resolve_right (not_not_intro (here ▸ below))
      exact ⟨{ srcEntry with path := dest },
        (FileSystem.mem_moved sound found different).mpr (.inl rfl), here.symm, directory'⟩
    · refine ⟨dir, (FileSystem.mem_moved sound found different).mpr
        (.inr ⟨there, ?_, replaced⟩), rfl, directory⟩
      rintro rfl
      exact away (path ▸ below)
  intro entry member notRoot
  rcases (FileSystem.mem_moved sound found different).mp member with rfl | ⟨old, _, _⟩
  · exact kept dest target outside (.inr fun below => below.irrefl)
  · exact kept entry.path (closed entry old notRoot) (childless entry old)
      (takes.imp_right fun childless => childless entry old)

theorem init {options : CliOptions} (named : options.Named) : NoOrphans (.init options) := by
  have empty : NoOrphans ⟨options, [], 0, none, none, []⟩ := by
    intro entry inside
    cases inside
  have root : NoOrphans ((⟨options, [], 0, none, none, []⟩ : FileSystem).newFile rootPath none
      (modeDir ||| 0o755) 0 2) := empty.newFile (absurd rfl)
  have bot : ∀ {name : Path}, IsName name →
      concatenate rootPath name = stem rootPath ++ name.take 1023 ∧ IsName (name.take 1023) := by
    intro name isName
    refine ⟨rfl, ?_, fun inside => isName.2 (List.mem_of_mem_take inside)⟩
    simpa using isName.1
  have inRoot : ∀ {fs : FileSystem} {name : Path}, (∃ dir ∈ fs.entries, dir.Directory ∧
      dir.path = rootPath) → IsName name → HasParent fs (concatenate rootPath name) := by
    rintro fs name ⟨dir, inside, directory, path⟩ isName
    exact ⟨dir, inside, directory, name.take 1023, (bot isName).2, by rw [(bot isName).1, path]⟩
  unfold FileSystem.init
  dsimp only
  split
  case isFalse => exact root
  case isTrue =>
    have ready : ∀ (first second : Option Path), NoOrphans
        { (⟨options, [], 0, none, none, []⟩ : FileSystem).newFile rootPath none
            (modeDir ||| 0o755) 0 2 with bot1Path := first, bot2Path := second } :=
      fun _ _ => root
    have bot1 : NoOrphans (FileSystem.newFile _ (concatenate rootPath options.bot1) none
        (modeDir ||| 0o755) 0 2) :=
      (ready (some (concatenate rootPath options.bot1))
        (some (concatenate rootPath options.bot2))).newFile fun _ =>
          inRoot ⟨_, List.mem_cons_self, kind_directory, rfl⟩ named.bot1
    have bot2 : NoOrphans (FileSystem.newFile _ (concatenate rootPath options.bot2) none
        (modeDir ||| 0o755) 0 2) :=
      bot1.newFile fun _ => inRoot ⟨_, List.mem_cons_self, kind_directory, rfl⟩ named.bot2
    exact bot2

theorem writeEntry (closed : NoOrphans fs) (sound : fs.Sound) {entry : Entry}
    {buf behind : List UInt8} {offset : Nat} {junk : Memory} {ret : Int}
    (inside : entry ∈ fs.entries)
    (wrote : fs.writeEntry entry buf behind offset junk = some (next, ret)) : NoOrphans next := by
  obtain ⟨text, start, written, _, stored, rfl⟩ := FileSystem.writeEntry_cases wrote
  apply closed.update
  intro old there here
  rw [sound.same there inside here]
  exact stored.keeps.2

/-- One request keeps the parents, if the kernel issues it and it takes none away. -/
theorem step (closed : NoOrphans fs) (sound : fs.Sound) {call : Call} {replies : List Reply}
    (issued : Issued fs call) (keeps : KeepsParents fs call)
    (stepped : fs.step call = some (next, replies)) : NoOrphans next := by
  cases call with
  | mknod path mode rdev =>
      obtain ⟨⟨middle, reply⟩, created, same⟩ := Option.map_eq_some_iff.mp stepped
      cases same
      exact closed.createBoth issued keeps created
  | mkdir path mode =>
      obtain ⟨⟨middle, reply⟩, created, same⟩ := Option.map_eq_some_iff.mp stepped
      cases same
      exact closed.createBoth issued keeps created
  | unlink path =>
      have result : (fs.unlink path).1 = next := congrArg Prod.fst (Option.some.inj stepped)
      rw [← result]
      rcases fs.unlink_cases path with same | ⟨entry, found, isDir, same⟩
      · rwa [same]
      · obtain ⟨inside, here⟩ := FileSystem.findEntry_some found
        rw [same]
        exact closed.delFile sound inside (here ▸ keeps entry found isDir)
  | rmdir path =>
      have result : (fs.rmdir path).1 = next := congrArg Prod.fst (Option.some.inj stepped)
      rw [← result]
      rcases fs.rmdir_cases path with same | ⟨entry, found, isReg, counted, same⟩
      · rwa [same]
      · obtain ⟨inside, here⟩ := FileSystem.findEntry_some found
        rw [same]
        apply closed.delFile sound inside
        rw [here]
        refine (keeps entry found isReg).elim (fun room other there below => ?_) id
        have counts := isParentPath_of_below (here ▸ closed.isPath inside) room below
        rw [counted other there] at counts
        cases counts
  | rename src dest flags =>
      obtain ⟨⟨middle, reply⟩, renamed, same⟩ := Option.map_eq_some_iff.mp stepped
      cases same
      obtain ⟨ret, _, renamed⟩ := FileSystem.rename_cases renamed
      cases renamed with
      | samePath => exact closed
      | missing => exact closed
      | occupied => exact closed
      | @moved srcEntry heads _ found free quiet =>
          obtain ⟨outside, childless, takes⟩ := keeps heads free
          have different : src ≠ dest := fun same => heads (congrArg _ same)
          exact closed.moved sound found different issued.2 outside childless
            (takes.imp_left fun directory => directory srcEntry found)
  | openFile path =>
      have result : (fs.openFile path).1 = next := congrArg Prod.fst (Option.some.inj stepped)
      obtain ⟨entry, found⟩ := Option.isSome_iff_exists.mp issued
      rwa [← result, FileSystem.openFile_found found]
  | opendir path =>
      have result : (fs.opendir path).1 = next := congrArg Prod.fst (Option.some.inj stepped)
      obtain ⟨entry, found⟩ := Option.isSome_iff_exists.mp issued
      rwa [← result, FileSystem.opendir_found found]
  | write path fh buf behind offset junk =>
      obtain ⟨⟨middle, reply⟩, wrote, same⟩ := Option.map_eq_some_iff.mp stepped
      cases same
      have kept := FileSystem.write_preserves (fun fs => fs.Sound ∧ NoOrphans fs)
        (fun holds inside wrote =>
          ⟨holds.1.writeEntry inside wrote, holds.2.writeEntry holds.1 inside wrote⟩)
        ⟨sound, closed⟩ wrote
      exact kept.2
  | read fh bytes offset =>
      obtain ⟨reply, _, same⟩ := Option.map_eq_some_iff.mp stepped
      cases same
      exact closed
  | getattr path =>
      cases stepped
      exact closed

end NoOrphans

/-- In a run of requests that the kernel issues, and that take no directory away
from what is below it, no entry loses its parent. -/
theorem no_orphans {options : CliOptions} (named : options.Named) {calls : List Call}
    {replies : List Reply} {fs : FileSystem}
    (run : Run FileSystem.step (fun fs call => Issued fs call ∧ KeepsParents fs call)
      (.init options) calls replies fs) : NoOrphans fs := by
  have kept : fs.Sound ∧ NoOrphans fs := by
    induction run with
    | nil => exact ⟨FileSystem.Sound.init options, NoOrphans.init named⟩
    | snoc _ allowed stepped ih =>
        exact ⟨FileSystem.sound_preserved.step ih.1 stepped,
          ih.2.step ih.1 allowed.1 allowed.2 stepped⟩
  exact kept.2

/-- A directory below a bot is made with its counterpart, and then a file in
the counterpart; the file and one of the directories are removed again. -/
theorem no_orphans_mirrored : ∃ fs,
    Run FileSystem.step (fun fs call => Issued fs call ∧ KeepsParents fs call)
      (.init ⟨true, [97], [107]⟩)
      [.mkdir [slash, 97, slash, 100] 0o755, .mknod [slash, 107, slash, 100, slash, 102] 0o644 0,
        .unlink [slash, 107, slash, 100, slash, 102], .rmdir [slash, 107, slash, 100]]
      [.code 0, .code 0, .code 0, .code 0] fs ∧ NoOrphans fs := by
  obtain ⟨fs, run⟩ : ∃ fs,
      Run FileSystem.step (fun fs call => Issued fs call ∧ KeepsParents fs call)
        (.init ⟨true, [97], [107]⟩)
        [.mkdir [slash, 97, slash, 100] 0o755, .mknod [slash, 107, slash, 100, slash, 102] 0o644 0,
          .unlink [slash, 107, slash, 100, slash, 102], .rmdir [slash, 107, slash, 100]]
        [.code 0, .code 0, .code 0, .code 0] fs := Run.of_outputs (by decide)
  exact ⟨fs, run, no_orphans ⟨by decide, by decide, by decide⟩ run⟩

/-- A directory is renamed while it holds a file. -/
theorem rename_makes_orphan :
    ¬ ∀ replies fs, Run FileSystem.step Issued (.init ⟨false, [97], [107]⟩)
        [.mkdir [slash, 97] 0o755, .mknod [slash, 97, slash, 102] 0o644 0,
          .rename [slash, 97] [slash, 98] 0] replies fs → NoOrphans fs := by
  intro always
  have closed := always _ _ (Run.of_exec_guarded rfl)
  exact absurd (closed _ (List.mem_cons_of_mem _ (List.mem_cons_of_mem _ List.mem_cons_self))
    (by decide)) (by decide)

end OsPractices.Keibot
