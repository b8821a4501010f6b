import Mathlib.Data.List.Basic
import OsPractices.Library.TextStream

/-!
# Paths

The string functions of `keibot.c`. A C string is the list of its bytes without
the terminating NUL. Every block has an address space of its own, with zero
bytes behind it: what is written past its end prolongs the string in it.
-/

set_option autoImplicit false

namespace OsPractices.Keibot

open Library

abbrev Path := List UInt8

def maxFileNameLen : Nat := 1024

def slash : UInt8 := 47

/-- The path "/". -/
def rootPath : Path := [slash]

/-- `strnlen` with a limit of `MAX_FILE_NAME_LEN`. -/
def boundedLength (str : Path) : Nat := min str.length maxFileNameLen

/-- The length of a path without a slash at its end. -/
def trimmedLength (path : Path) : Nat :=
  let len := boundedLength path
  if path[len - 1]? = some slash then len - 1 else len

def isParentPath (path1 path2 : Path) (strict : Bool) : Bool :=
  let len1 := trimmedLength path1
  let len2 := trimmedLength path2
  len1 < len2 && path1.take len1 == path2.take len1 && path2[len1]? == some slash &&
    (!strict || !(path2.drop (len1 + 1)).contains slash)

def concatenate (str1 str2 : Path) : Path :=
  str1.take maxFileNameLen ++ str2.take (maxFileNameLen - boundedLength str1)

/-- `strstr`: the position of the first occurrence. -/
def strstr (str pattern : Path) : Option Nat :=
  (List.range (str.length + 1)).find? fun pos => pattern.isPrefixOf (str.drop pos)

def replaceFirstAfter (parent path oldStr newStr : Path) : Path :=
  let plen := boundedLength parent
  let str := path.take maxFileNameLen
  match strstr (str.drop plen) oldStr with
  | none => str
  | some pos =>
      str.take (plen + pos) ++ newStr.take maxFileNameLen ++
        str.drop (plen + pos + boundedLength oldStr)

/-- `":emoji"`. -/
def emojiPrefix : Path := [58, 101, 109, 111, 106, 105]

/-- `atoi`, as the C library has it: `strtol`, which stops at the limits of a
`long`, converted to `int`. -/
def atoi (str : Path) : Int :=
  let value : List UInt8 → Int := fun digits =>
    InStream.digitsValue (digits.takeWhile InStream.isDigit)
  let long : Int :=
    match str.dropWhile InStream.isSpace with
    | 45 :: digits => max (-value digits) (-2 ^ 63)
    | 43 :: digits => min (value digits) (2 ^ 63 - 1)
    | digits => min (value digits) (2 ^ 63 - 1)
  long.bmod (2 ^ 32)

def getEmojiId (buf : Path) : Int :=
  if buf.take emojiPrefix.length = emojiPrefix then
    atoi ((buf.drop emojiPrefix.length).takeWhile (· ≠ 0))
  else -1

/-! ## Paths below a directory -/

/-- A path that does not end with a slash, or the root. -/
def IsPath (path : Path) : Prop :=
  path = rootPath ∨ path ≠ [] ∧ path.getLast? ≠ some slash

/-- What the paths below a directory begin with. -/
def stem (dir : Path) : Path := if dir = rootPath then rootPath else dir ++ [slash]

def Below (dir path : Path) : Prop := ∃ rel, rel ≠ [] ∧ path = stem dir ++ rel

instance (dir path : Path) : Decidable (Below dir path) :=
  decidable_of_iff (stem dir <+: path ∧ path ≠ stem dir) (by
    constructor
    · rintro ⟨⟨rel, rfl⟩, longer⟩
      exact ⟨rel, by rintro rfl; simp at longer, rfl⟩
    · rintro ⟨rel, some, rfl⟩
      exact ⟨List.prefix_append _ _, by simpa using some⟩)

/-- A slash at the end that `strnlen` sees is not counted. -/
theorem trimmedLength_slash {path : Path}
    (ends : path[boundedLength path - 1]? = some slash) :
    trimmedLength path = boundedLength path - 1 := by
  simp only [trimmedLength, ends, if_true]

theorem trimmedLength_name {path : Path}
    (ends : path[boundedLength path - 1]? ≠ some slash) :
    trimmedLength path = boundedLength path := by
  simp only [trimmedLength, ends, if_false]

theorem trimmedLength_le (path : Path) : trimmedLength path ≤ boundedLength path := by
  by_cases ends : path[boundedLength path - 1]? = some slash
  · exact (trimmedLength_slash ends).trans_le (Nat.sub_le _ _)
  · exact (trimmedLength_name ends).le

theorem boundedLength_le (path : Path) : boundedLength path ≤ maxFileNameLen := min_le_right _ _

theorem trimmedLength_short {path : Path} (short : path.length ≤ maxFileNameLen)
    (ends : path.getLast? ≠ some slash) : trimmedLength path = path.length := by
  have bounded : boundedLength path = path.length := Nat.min_eq_left short
  rw [trimmedLength_name, bounded]
  rwa [bounded, ← List.getLast?_eq_getElem?]

theorem isParentPath_iff {path1 path2 : Path} : isParentPath path1 path2 false = true ↔
    trimmedLength path1 < trimmedLength path2 ∧
      path1.take (trimmedLength path1) = path2.take (trimmedLength path1) ∧
      path2[trimmedLength path1]? = some slash := by
  simp [isParentPath, and_assoc]

theorem split_at_slash {path : Path} {index : Nat} (found : path[index]? = some slash) :
    path = path.take index ++ slash :: path.drop (index + 1) := by
  obtain ⟨inside, same⟩ := List.getElem?_eq_some_iff.mp found
  rw [← same, ← List.drop_eq_getElem_cons inside, List.take_append_drop]

theorem below_of_isParentPath {dir path : Path} (isPath : IsPath dir)
    (parent : isParentPath dir path false = true) : Below dir path := by
  obtain ⟨less, same, sep⟩ := isParentPath_iff.mp parent
  have limit := (trimmedLength_le path).trans (boundedLength_le path)
  -- a slash right behind the prefix and nothing after it would not be counted
  have more : trimmedLength dir < maxFileNameLen → path.drop (trimmedLength dir + 1) ≠ [] := by
    intro short none
    have length : path.length = trimmedLength dir + 1 := by
      have inside := (List.getElem?_eq_some_iff.mp sep).1
      have ends := List.drop_eq_nil_iff.mp none
      omega
    have bounded : boundedLength path = trimmedLength dir + 1 := by
      unfold boundedLength
      omega
    have cut : trimmedLength path = boundedLength path - 1 :=
      trimmedLength_slash (by rwa [bounded])
    omega
  have short : trimmedLength dir < maxFileNameLen := by omega
  cases isPath with
  | inl root =>
      subst root
      have zero : trimmedLength rootPath = 0 := by decide
      rw [zero] at sep more
      refine ⟨path.drop 1, more (by decide), ?_⟩
      simpa [stem, rootPath] using split_at_slash sep
  | inr name =>
      have whole : trimmedLength dir = dir.length := by
        rcases Nat.lt_or_ge maxFileNameLen dir.length with long | fits
        · -- a longer path is cut at the limit, where only a slash is left out
          exfalso
          have bounded : boundedLength dir = maxFileNameLen := Nat.min_eq_right long.le
          by_cases ends : dir[boundedLength dir - 1]? = some slash
          · rw [trimmedLength_slash ends, bounded] at sep less
            have inside := (List.getElem?_eq_some_iff.mp sep).1
            have full : boundedLength path = maxFileNameLen := by
              unfold boundedLength
              omega
            have cut : trimmedLength path = boundedLength path - 1 :=
              trimmedLength_slash (by rwa [full])
            omega
          · rw [trimmedLength_name ends] at short
            omega
        · exact trimmedLength_short fits name.2
      rw [whole, List.take_length] at same
      rw [whole] at sep more short
      refine ⟨path.drop (dir.length + 1), more short, ?_⟩
      have notRoot : dir ≠ rootPath := by
        rintro rfl
        exact name.2 rfl
      rw [stem, if_neg notRoot, List.append_assoc]
      calc
        path = path.take dir.length ++ slash :: path.drop (dir.length + 1) := split_at_slash sep
        _ = dir ++ ([slash] ++ path.drop (dir.length + 1)) := by rw [← same]; rfl

/-- `strnlen` sees what is below a directory whose path leaves room for it. -/
theorem isParentPath_of_below {dir path : Path} (isPath : IsPath dir)
    (room : dir.length + 1 < maxFileNameLen) (below : Below dir path) :
    isParentPath dir path false = true := by
  obtain ⟨rel, some, rfl⟩ := below
  have positive := List.length_pos_iff.mpr some
  rw [isParentPath_iff]
  have further : ∀ length, length + 1 < (stem dir ++ rel).length → length + 1 < maxFileNameLen →
      length < trimmedLength (stem dir ++ rel) := by
    intro length inside small
    have bounded : length + 1 < boundedLength (stem dir ++ rel) := lt_min inside small
    by_cases ends : (stem dir ++ rel)[boundedLength (stem dir ++ rel) - 1]? = Option.some slash
    · rw [trimmedLength_slash ends]
      omega
    · rw [trimmedLength_name ends]
      omega
  cases isPath with
  | inl root =>
      subst root
      have zero : trimmedLength rootPath = 0 := by decide
      rw [zero]
      exact ⟨further 0 (by simp [stem, rootPath]; omega) (by decide), rfl, rfl⟩
  | inr name =>
      have notRoot : dir ≠ rootPath := by
        rintro rfl
        exact name.2 rfl
      rw [trimmedLength_short (by omega) name.2]
      refine ⟨further dir.length (by simp [stem, notRoot]; omega) room, ?_, ?_⟩
      · simp [stem, notRoot]
      · simp [stem, notRoot]

end OsPractices.Keibot
