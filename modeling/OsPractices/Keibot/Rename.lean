import OsPractices.Keibot.Entries

/-!
# Moving a subtree

What `keibot_rename` would have to do to a tree, and when it does.
-/

set_option autoImplicit false

namespace OsPractices.Keibot

open Library

/-- A path of the subtree of a directory. -/
def Under (dir path : Path) : Prop := path = dir ∨ Below dir path

theorem Below.length_lt {dir path : Path} (below : Below dir path) : dir.length < path.length := by
  obtain ⟨rel, some, rfl⟩ := below
  have positive := List.length_pos_iff.mpr some
  by_cases root : dir = rootPath
  · simpa [stem, root, rootPath] using positive
  · simp [stem, root]

theorem Below.irrefl {path : Path} (below : Below path path) : False :=
  Nat.lt_irrefl _ below.length_lt

theorem Under.drop {dir path : Path} (under : Under dir path) :
    dir ++ path.drop dir.length = path := by
  cases under with
  | inl same => simp [same]
  | inr below =>
      obtain ⟨rel, _, rfl⟩ := below
      by_cases root : dir = rootPath
      · simp [stem, root, rootPath]
      · simp [stem, root]

/-- The subtree of `src` is at `dest`, with contents and attributes as they were;
what was at `dest` is gone, and all else is as before. -/
structure Moved (fs : FileSystem) (src dest : Path) (next : FileSystem) : Prop where
  entries : ∀ entry, entry ∈ next.entries ↔
    (∃ old ∈ fs.entries, Under src old.path ∧
      entry = { old with path := dest ++ old.path.drop src.length }) ∨
    entry ∈ fs.entries ∧ ¬ Under src entry.path ∧ entry.path ≠ dest
  left : src ≠ dest → ∀ entry ∈ next.entries, ¬ Under src entry.path

/-- The call ends with an error or has moved the subtree. -/
def RenameMoves (fs : FileSystem) (src dest : Path) (flags : Nat) : Prop :=
  ∃ next ret, fs.rename src dest flags = some (next, .code ret) ∧
    (ret < 0 ∨ Moved fs src dest next)

/-- The source has nothing below it, and no other entry has one of the paths. -/
structure Leaf (fs : FileSystem) (src dest : Path) : Prop where
  childless : ∀ entry ∈ fs.entries, ¬ Below src entry.path
  single : ∀ entry ∈ fs.entries, ∀ other ∈ fs.entries, entry.path = other.path →
    entry.path = src ∨ entry.path = dest → entry.id = other.id

/-- When `keibot_rename` moves the subtree: it fails because of `RENAME_NOREPLACE`,
or the paths are equal, or the source is a leaf and the paths differ where
`strncmp` looks. -/
def CanMove (fs : FileSystem) (src dest : Path) (flags : Nat) : Prop :=
  src = dest ∨ src.take maxFileNameLen ≠ dest.take maxFileNameLen ∧
    (flags = renameNoreplace ∧ (fs.findEntry dest).isSome ∨ Leaf fs src dest)

namespace FileSystem

variable {fs : FileSystem} {src dest : Path} {flags : Nat} {srcEntry : Entry}

/-- The entries after the change of one path. -/
theorem mem_moved (sound : fs.Sound) (found : fs.findEntry src = some srcEntry)
    (different : src ≠ dest) {entry : Entry} :
    entry ∈ (fs.moved srcEntry dest).entries ↔ entry = { srcEntry with path := dest } ∨
      entry ∈ fs.entries ∧ entry ≠ srcEntry ∧ fs.findEntry dest ≠ some entry := by
  obtain ⟨inside, path⟩ := findEntry_some found
  have remaining : ∀ other, other ∈ (((fs.findEntry dest).map fs.delFile).getD fs).entries ↔
      other ∈ fs.entries ∧ fs.findEntry dest ≠ some other := by
    intro other
    cases target : fs.findEntry dest with
    | none => simp
    | some destEntry =>
        obtain ⟨inside', _⟩ := findEntry_some target
        simp only [Option.map_some, Option.getD_some, mem_delFile, ne_eq, Option.some.injEq]
        refine and_congr_right fun member => not_congr ⟨fun id => ?_, fun same => ?_⟩
        · exact sound.same inside' member id.symm
        · rw [same]
  have notDest : fs.findEntry dest ≠ some srcEntry := fun target =>
    different (path.symm.trans (findEntry_some target).2)
  unfold moved
  rw [mem_update]
  constructor
  · rintro ⟨old, member, rfl⟩
    obtain ⟨member, kept⟩ := (remaining old).mp member
    split
    case isTrue id => exact .inl (by rw [sound.same member inside id])
    case isFalse id => exact .inr ⟨member, fun same => id (same ▸ rfl), kept⟩
  · rintro (rfl | ⟨member, other, kept⟩)
    · exact ⟨srcEntry, (remaining _).mpr ⟨inside, notDest⟩, if_pos rfl⟩
    · refine ⟨entry, (remaining _).mpr ⟨member, kept⟩, if_neg fun id => ?_⟩
      exact other (sound.same member inside id)

theorem rename_eq_moved (found : fs.findEntry src = some srcEntry)
    (different : src.take maxFileNameLen ≠ dest.take maxFileNameLen)
    (exchange : flags ≠ renameExchange)
    (free : ¬ (flags = renameNoreplace ∧ (fs.findEntry dest).isSome))
    (quiet : ∀ entry ∈ (fs.moved srcEntry dest).entries,
      isParentPath src entry.path false = false) :
    fs.rename src dest flags = some (fs.moved srcEntry dest, .code 0) := by
  have none : (fs.moved srcEntry dest).entries.any
      (fun entry => isParentPath src entry.path false) = false := by
    simpa using quiet
  unfold FileSystem.rename
  rw [if_neg different, if_neg exchange]
  simp only [found, if_neg free]
  change (if (srcEntry.isDir && (fs.moved srcEntry dest).entries.any
    fun entry => isParentPath src entry.path false) = true then _ else _) = _
  rw [none, Bool.and_false, if_neg Bool.false_ne_true]
  rfl

theorem moved_of_leaf (sound : fs.Sound) (found : fs.findEntry src = some srcEntry)
    (different : src ≠ dest) (outside : ¬ Below src dest) (leaf : Leaf fs src dest) :
    Moved fs src dest (fs.moved srcEntry dest) := by
  obtain ⟨inside, path⟩ := findEntry_some found
  -- only the source itself is in its subtree
  have only : ∀ entry ∈ fs.entries, Under src entry.path → entry = srcEntry := by
    intro entry member under
    cases under with
    | inl same =>
        exact sound.same member inside
          (leaf.single entry member srcEntry inside (same.trans path.symm) (.inl same))
    | inr below => exact absurd below (leaf.childless entry member)
  have atDest : ∀ entry ∈ fs.entries,
      fs.findEntry dest ≠ some entry ↔ entry.path ≠ dest := by
    intro entry member
    refine not_congr ⟨fun target => (findEntry_some target).2, fun here => ?_⟩
    cases target : fs.findEntry dest with
    | none => exact absurd here (findEntry_none.mp target entry member)
    | some destEntry =>
        obtain ⟨inside', path'⟩ := findEntry_some target
        rw [sound.same member inside'
          (leaf.single entry member destEntry inside' (here.trans path'.symm) (.inr here))]
  constructor
  case entries =>
    intro entry
    rw [mem_moved sound found different]
    refine or_congr ⟨?_, ?_⟩ ⟨?_, ?_⟩
    · rintro rfl
      exact ⟨srcEntry, inside, .inl path, by simp [path]⟩
    · rintro ⟨old, member, under, rfl⟩
      rw [only old member under]
      simp [path]
    · rintro ⟨member, other, kept⟩
      exact ⟨member, fun under => other (only entry member under), (atDest entry member).mp kept⟩
    · rintro ⟨member, away, elsewhere⟩
      refine ⟨member, ?_, (atDest entry member).mpr elsewhere⟩
      rintro rfl
      exact away (.inl path)
  case left =>
    intro _ entry member under
    rcases (mem_moved sound found different).mp member with rfl | ⟨member, other, _⟩
    · exact under.elim (fun same => different same.symm) outside
    · exact other (only entry member under)

/-- What is below the source, or has its path a second time, is left behind. -/
theorem leaf_of_moved (sound : fs.Sound) (found : fs.findEntry src = some srcEntry)
    (different : src ≠ dest) (outside : ¬ Below src dest)
    (moved : Moved fs src dest (fs.moved srcEntry dest)) : Leaf fs src dest := by
  obtain ⟨inside, path⟩ := findEntry_some found
  have stays : ∀ entry ∈ fs.entries, entry ≠ srcEntry → fs.findEntry dest ≠ some entry →
      entry ∈ (fs.moved srcEntry dest).entries := fun entry member other kept =>
    (mem_moved sound found different).mpr (.inr ⟨member, other, kept⟩)
  have source : ∀ entry ∈ fs.entries, Under src entry.path → entry = srcEntry := by
    intro entry member under
    by_contra other
    refine moved.left different entry (stays entry member other fun target => ?_) under
    rw [(findEntry_some target).2] at under
    exact under.elim (fun same => different same.symm) outside
  have target : ∀ entry ∈ fs.entries, entry.path = dest → fs.findEntry dest = some entry := by
    intro entry member here
    by_contra other
    have kept := stays entry member (fun same => different (by rw [← path, ← same, here])) other
    rcases (moved.entries entry).mp kept with ⟨old, member', under, same⟩ | ⟨_, _, away⟩
    · have id : old.id = entry.id := by rw [same]
      rw [sound.same member' member id, here] at under
      exact under.elim (fun same => different same.symm) outside
    · exact away here
  constructor
  case childless =>
    intro entry member below
    have same := source entry member (.inr below)
    rw [same, path] at below
    exact below.irrefl
  case single =>
    intro entry member other member' same either
    cases either with
    | inl here =>
        rw [source entry member (.inl here), source other member' (.inl (same.symm.trans here))]
    | inr here =>
        have first := target entry member here
        rw [target other member' (same.symm.trans here)] at first
        rw [Option.some.inj first]

theorem moved_refl (src : Path) : Moved fs src src fs where
  entries entry := by
    constructor
    · intro member
      by_cases under : Under src entry.path
      · exact .inl ⟨entry, member, under, by rw [under.drop]⟩
      · exact .inr ⟨member, under, fun same => under (.inl same)⟩
    · rintro (⟨old, member, under, rfl⟩ | ⟨member, _⟩)
      · rwa [under.drop]
      · exact member
  left different := absurd rfl different

end FileSystem

/-- `keibot_rename` ends normally with an error or with the subtree moved exactly
if the source is a leaf, or nothing is to be moved. -/
theorem rename_moves_iff {options : CliOptions} {fs : FileSystem} {src dest : Path} {flags : Nat}
    (reached : Reached options fs) (isPath : IsPath src) (present : (fs.findEntry src).isSome)
    (outside : ¬ Below src dest) (exchange : flags ≠ renameExchange) :
    RenameMoves fs src dest flags ↔ CanMove fs src dest flags := by
  have sound := reached.sound
  obtain ⟨srcEntry, found⟩ := Option.isSome_iff_exists.mp present
  constructor
  · rintro ⟨next, ret, renamed, moves⟩
    obtain ⟨ret', same, renamed⟩ := FileSystem.rename_cases renamed
    cases same
    cases renamed with
    | samePath =>
        left
        have moved := moves.resolve_left (by decide)
        by_contra different
        obtain ⟨inside, path⟩ := FileSystem.findEntry_some found
        exact moved.left different srcEntry inside (.inl path)
    | missing missing => exact nomatch found.symm.trans missing
    | occupied heads flag taken => exact .inr ⟨heads, .inl ⟨flag, taken⟩⟩
    | moved heads _ found free quiet =>
        right
        have moved := moves.resolve_left (by decide)
        have different : src ≠ dest := fun same => heads (congrArg _ same)
        exact ⟨heads, .inr (FileSystem.leaf_of_moved sound found different outside moved)⟩
  · rintro (rfl | ⟨heads, error | leaf⟩)
    · refine ⟨fs, 0, ?_, .inr (FileSystem.moved_refl src)⟩
      unfold FileSystem.rename
      rw [if_pos rfl]
    · refine ⟨fs, -EEXIST, ?_, .inl (by decide)⟩
      unfold FileSystem.rename
      rw [if_neg heads, if_neg exchange]
      simp only [found, if_pos error]
    · have different : src ≠ dest := fun same => heads (congrArg _ same)
      have moved := FileSystem.moved_of_leaf sound found different outside leaf
      by_cases error : flags = renameNoreplace ∧ (fs.findEntry dest).isSome
      · refine ⟨fs, -EEXIST, ?_, .inl (by decide)⟩
        unfold FileSystem.rename
        rw [if_neg heads, if_neg exchange]
        simp only [found, if_pos error]
      · refine ⟨_, 0, FileSystem.rename_eq_moved found heads exchange error ?_, .inr moved⟩
        intro entry member
        by_contra parent
        rw [Bool.not_eq_false] at parent
        exact moved.left different entry member (.inr (below_of_isParentPath isPath parent))

/-- A file is moved within the root directory. -/
theorem rename_moves_file : ∃ fs, Reached ⟨false, [], []⟩ fs ∧
    RenameMoves fs [slash, 102] [slash, 103] 0 := by
  have created : Run FileSystem.step (fun _ _ => True) (.init ⟨false, [], []⟩)
      [.mknod [slash, 102] 0o644 0] _ _ := Run.of_exec rfl
  refine ⟨_, ⟨_, _, created⟩, ?_⟩
  refine (rename_moves_iff ⟨_, _, created⟩ (.inr ⟨by decide, by decide⟩) rfl (by decide)
    (by decide)).mpr (.inr ⟨by decide, .inr ⟨by decide, by decide⟩⟩)

/-- A directory with mode 755 that holds a file: only the directory is moved. -/
theorem rename_leaves_file : ∃ fs, Reached ⟨false, [], []⟩ fs ∧
    ¬ RenameMoves fs [slash, 97] [slash, 98] 0 := by
  have created : Run FileSystem.step (fun _ _ => True) (.init ⟨false, [], []⟩)
      [.mkdir [slash, 97] 0o755, .mknod [slash, 97, slash, 102] 0o644 0] _ _ := Run.of_exec rfl
  refine ⟨_, ⟨_, _, created⟩, ?_⟩
  rintro ⟨next, ret, renamed, moves⟩
  cases renamed
  have moved := moves.resolve_left (by decide)
  exact moved.left (by decide) _ (List.mem_cons_of_mem _ (List.mem_cons_of_mem _ (List.mem_cons_self)))
    (.inr (by decide))

end OsPractices.Keibot
