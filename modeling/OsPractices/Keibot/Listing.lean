import OsPractices.Keibot.Kinds
import OsPractices.Keibot.Orphans

/-!
# Listing a directory

`keibot_readdir` and the emptiness test of `keibot_rmdir` compare path strings.
On normalized paths they find the children of a directory and what is below it.
-/

set_option autoImplicit false

namespace OsPractices.Keibot

/-- "/", or components that each follow a slash. -/
def Normalized (path : Path) : Prop :=
  path = rootPath ∨ ∃ names ≠ [], (∀ name ∈ names, IsName name) ∧
    path = names.flatMap (slash :: ·)

/-- `path2` is beyond the length of `path1` and its slash when this is called. -/
def getRelativeName (path1 path2 : Path) : Path :=
  let first := path2.drop (trimmedLength path1 + 1)
  if first.contains slash then first.takeWhile (· ≠ slash)
  else first.take (trimmedLength path2 - (trimmedLength path1 + 1))

/-- The names "." and "..". -/
def dotEntries (path : Path) : List (Path × Option Stat) :=
  ([46], none) :: if path = rootPath then [] else [([46, 46], none)]

/-- `keibot_readdir`: what it passes to the filler, and what it returns. -/
def FileSystem.readdir (fs : FileSystem) (path : Path) : List (Path × Option Stat) × Reply :=
  match fs.findEntry path with
  | none => (dotEntries path, .code (-ENOENT))
  | some _ =>
      (dotEntries path ++ (fs.entries.filter fun entry => isParentPath path entry.path true).map
        fun entry => (getRelativeName path entry.path, some entry.status), .code 0)

/-- A path is that of a directory, followed by one component. -/
def IsChild (dir path : Path) : Prop := ∃ name, IsName name ∧ path = stem dir ++ name

instance (dir path : Path) : Decidable (IsChild dir path) :=
  decidable_of_iff (IsName (path.drop (stem dir).length) ∧ stem dir <+: path) (by
    constructor
    · rintro ⟨isName, name, rfl⟩
      exact ⟨name, by simpa using isName, rfl⟩
    · rintro ⟨name, isName, rfl⟩
      exact ⟨by simpa using isName, List.prefix_append _ _⟩)

theorem IsChild.below {dir path : Path} (child : IsChild dir path) : Below dir path := by
  obtain ⟨name, isName, same⟩ := child
  exact ⟨name, isName.1, same⟩

/-! ## Normalized paths -/

theorem Normalized.isPath {path : Path} (normalized : Normalized path) : IsPath path := by
  obtain root | ⟨names, some, areNames, rfl⟩ := normalized
  · exact .inl root
  · obtain ⟨front, last, split⟩ := (List.eq_nil_or_concat names).resolve_left some
    rw [List.concat_eq_append] at split
    subst split
    have isName : IsName last := areNames last (by simp)
    have ends : (List.flatMap (slash :: ·) (front ++ [last])).getLast? = last.getLast? := by
      rw [List.flatMap_append, List.flatMap_singleton, ← List.singleton_append, ← List.append_assoc]
      exact List.getLast?_append_of_ne_nil _ isName.1
    refine .inr ⟨by simp, fun slashed => isName.2 ?_⟩
    exact List.mem_of_getLast? (ends.symm.trans slashed)

theorem not_below_root {dir : Path} : ¬ Below dir rootPath := by
  rintro ⟨rel, some, same⟩
  have positive := List.length_pos_iff.mpr some
  have first : 1 ≤ (stem dir).length := by
    unfold stem
    split <;> simp [rootPath]
  have lengths := (congrArg List.length same).trans List.length_append
  have one : rootPath.length = 1 := rfl
  omega

/-- A path below a directory has its whole length counted. -/
theorem trimmedLength_below {dir path : Path} (isPath : IsPath path)
    (short : path.length ≤ maxFileNameLen) (below : Below dir path) :
    trimmedLength path = path.length := by
  cases isPath with
  | inl root => exact absurd (root ▸ below) not_below_root
  | inr name => exact trimmedLength_short short name.2

/-- What the code takes for the length of a directory ends before the slash. -/
theorem length_stem {dir : Path} (isPath : IsPath dir) (short : dir.length ≤ maxFileNameLen) :
    (stem dir).length = trimmedLength dir + 1 := by
  cases isPath with
  | inl root =>
      subst root
      decide
  | inr name =>
      have notRoot : dir ≠ rootPath := by
        rintro rfl
        exact name.2 rfl
      rw [trimmedLength_short short name.2, stem, if_neg notRoot, List.length_append]
      rfl

section

variable {dir path : Path}

/-- On normalized paths that fit, the test says whether a path is below. -/
theorem isParentPath_iff_below (isPath : IsPath dir) (short : dir.length ≤ maxFileNameLen)
    (fits : path.length ≤ maxFileNameLen) :
    isParentPath dir path false = true ↔ Below dir path := by
  refine ⟨below_of_isParentPath isPath, fun below => ?_⟩
  cases isPath with
  | inl root =>
      subst root
      exact isParentPath_of_below (.inl rfl) (by decide) below
  | inr name =>
      have notRoot : dir ≠ rootPath := by
        rintro rfl
        exact name.2 rfl
      apply isParentPath_of_below (.inr name) _ below
      obtain ⟨rel, some, rfl⟩ := below
      have positive := List.length_pos_iff.mpr some
      simp only [stem, if_neg notRoot, List.length_append, List.length_singleton] at fits
      omega

theorem isParentPath_strict : isParentPath dir path true =
    (isParentPath dir path false && !(path.drop (trimmedLength dir + 1)).contains slash) := by
  simp [isParentPath]

/-- The strict test says whether a path is that of a child. -/
theorem isParentPath_iff_child (isPath : IsPath dir) (short : dir.length ≤ maxFileNameLen)
    (fits : path.length ≤ maxFileNameLen) :
    isParentPath dir path true = true ↔ IsChild dir path := by
  have behind : ∀ rel, (stem dir ++ rel).drop (trimmedLength dir + 1) = rel := by
    intro rel
    rw [← length_stem isPath short, List.drop_left]
  rw [isParentPath_strict, Bool.and_eq_true, isParentPath_iff_below isPath short fits]
  constructor
  · rintro ⟨⟨rel, some, rfl⟩, single⟩
    rw [behind] at single
    exact ⟨rel, ⟨some, by simpa using single⟩, rfl⟩
  · rintro ⟨name, isName, rfl⟩
    rw [behind]
    exact ⟨⟨name, isName.1, rfl⟩, by simpa using isName.2⟩

/-- The relative name of a child is its last component. -/
theorem getRelativeName_child (isPath : IsPath dir) (short : dir.length ≤ maxFileNameLen)
    (isPath' : IsPath path) (fits : path.length ≤ maxFileNameLen) (child : IsChild dir path) :
    IsName (getRelativeName dir path) ∧ path = stem dir ++ getRelativeName dir path := by
  have whole := trimmedLength_below isPath' fits child.below
  obtain ⟨name, isName, rfl⟩ := child
  have length := length_stem isPath short
  have same : getRelativeName dir (stem dir ++ name) = name := by
    have behind : (stem dir ++ name).drop (trimmedLength dir + 1) = name := by
      rw [← length, List.drop_left]
    simp only [getRelativeName, behind, whole]
    rw [if_neg (by simpa using isName.2), List.length_append, ← length, Nat.add_sub_cancel_left,
      List.take_length]
  rw [same]
  exact ⟨isName, rfl⟩

end

/-- An entry that is listed has the path of the directory followed by the name. -/
def Lists (dir : Path) (entry : Entry) (emitted : Path × Option Stat) : Prop :=
  IsName emitted.1 ∧ entry.path = stem dir ++ emitted.1 ∧ emitted.2 = some entry.status

/-- `keibot_readdir` lists the children, each once, and `keibot_rmdir` refuses a
directory exactly if something is below it. -/
theorem listing_exact {fs : FileSystem} {dir : Path} {target : Entry}
    (normalized : ∀ entry ∈ fs.entries, Normalized entry.path ∧ entry.path.length ≤ maxFileNameLen)
    (present : fs.findEntry dir = some target) :
    (∃ emitted, fs.readdir dir = (dotEntries dir ++ emitted, .code 0) ∧
      List.Forall₂ (Lists dir) (fs.entries.filter fun entry => IsChild dir entry.path) emitted) ∧
    (target.Directory → ((fs.rmdir dir).2 = .code (-ENOTEMPTY) ↔
      ∃ entry ∈ fs.entries, Below dir entry.path)) := by
  obtain ⟨inside, here⟩ := FileSystem.findEntry_some present
  have isPath : ∀ entry ∈ fs.entries, IsPath entry.path := fun entry inside =>
    (normalized entry inside).1.isPath
  have fits : ∀ entry ∈ fs.entries, entry.path.length ≤ maxFileNameLen := fun entry inside =>
    (normalized entry inside).2
  have dirPath : IsPath dir := here ▸ isPath target inside
  have short : dir.length ≤ maxFileNameLen := here ▸ fits target inside
  constructor
  · have children : (fs.entries.filter fun entry => isParentPath dir entry.path true) =
        fs.entries.filter fun entry => IsChild dir entry.path := by
      apply List.filter_congr
      intro entry member
      exact Bool.eq_iff_iff.mpr ((isParentPath_iff_child dirPath short (fits entry member)).trans
        decide_eq_true_iff.symm)
    refine ⟨_, by rw [FileSystem.readdir, present, children], ?_⟩
    rw [List.forall₂_map_right_iff, List.forall₂_same]
    intro entry member
    obtain ⟨member, child⟩ := List.mem_filter.mp member
    obtain ⟨isName, same⟩ := getRelativeName_child dirPath short (isPath entry member)
      (fits entry member) (of_decide_eq_true child)
    exact ⟨isName, same, rfl⟩
  · intro directory
    have notReg : target.isReg = false := by
      cases isReg : target.isReg with
      | false => rfl
      | true => exact absurd directory (Entry.regular_of_isReg isReg).not_directory
    have counted : (0 < fs.entries.countP fun entry => isParentPath dir entry.path false) ↔
        ∃ entry ∈ fs.entries, Below dir entry.path := by
      rw [List.countP_pos_iff]
      refine exists_congr fun entry => and_congr_right fun member => ?_
      exact isParentPath_iff_below dirPath short (fits entry member)
    rw [← counted, FileSystem.rmdir, present]
    by_cases busy : 0 < fs.entries.countP fun entry => isParentPath dir entry.path false
    · simp [notReg, busy]
    · simp [notReg, busy, ENOTEMPTY]

/-- The directory "/d" with a file in it. -/
theorem listing_exact_of_one : ∃ (fs : FileSystem) (target : Entry),
    fs.findEntry [slash, 100] = some target ∧
    (∃ emitted, fs.readdir [slash, 100] = (dotEntries [slash, 100] ++ emitted, .code 0) ∧
      List.Forall₂ (Lists [slash, 100])
        (fs.entries.filter fun entry => IsChild [slash, 100] entry.path) emitted) ∧
    (target.Directory → ((fs.rmdir [slash, 100]).2 = .code (-ENOTEMPTY) ↔
      ∃ entry ∈ fs.entries, Below [slash, 100] entry.path)) := by
  refine ⟨(withDirectory 0o755).newFile [slash, 100, slash, 102] (some .empty) (modeReg ||| 0o644)
    0 1, _, rfl, listing_exact ?_ rfl⟩
  intro entry inside
  simp only [withDirectory, FileSystem.mem_newFile] at inside
  rcases inside with (inside | rfl) | rfl
  · obtain rfl := List.mem_singleton.mp inside
    exact ⟨.inl rfl, by decide⟩
  · exact ⟨.inr ⟨[[100]], by decide, by decide, rfl⟩, by decide⟩
  · exact ⟨.inr ⟨[[100], [102]], by decide, by decide, rfl⟩, by decide⟩

end OsPractices.Keibot
