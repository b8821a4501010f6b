import Mathlib.Data.UInt
import OsPractices.Keibot.Entries

/-!
# Kinds of files

`IS_DIR` and `IS_REG` compare the mode of an entry without its three `x` bits,
and not its kind bits, with the kind. They know an entry with other permission
bits for neither a directory nor a regular file.
-/

set_option autoImplicit false

namespace OsPractices.Keibot

open Library

/-- No bit is set besides those of the kind and the three `x` bits. -/
def OnlyExecute (mode : Mode) : Prop := mode &&& ~~~(modeKind ||| 0o111) = 0

instance (mode : Mode) : Decidable (OnlyExecute mode) := inferInstanceAs (Decidable (_ = _))

/-- The bits that the macros compare are those of the kind and the others. -/
theorem compared_bits (mode : Mode) :
    mode &&& ~~~0o111 = mode &&& modeKind ||| mode &&& ~~~(modeKind ||| 0o111) := by
  rw [← BitVec.and_or_distrib_left]
  congr 1

theorem compared_iff {mode kind : Mode} (isKind : mode &&& modeKind = kind) :
    mode &&& ~~~0o111 = kind ↔ OnlyExecute mode := by
  have apart : kind &&& ~~~(modeKind ||| 0o111) = 0 := by
    rw [← isKind, BitVec.and_assoc,
      show modeKind &&& ~~~(modeKind ||| 0o111) = (0 : Mode) by decide]
    exact BitVec.and_zero
  rw [compared_bits, isKind]
  constructor
  · intro same
    calc
      mode &&& ~~~(modeKind ||| 0o111) =
          (kind ||| mode &&& ~~~(modeKind ||| 0o111)) &&& ~~~(modeKind ||| 0o111) := by
        rw [BitVec.and_or_distrib_right, apart, BitVec.and_assoc, BitVec.and_self]
        exact BitVec.zero_or.symm
      _ = 0 := by rw [same, apart]
  · intro none
    rw [OnlyExecute] at none
    rw [none]
    exact BitVec.or_zero

namespace Entry

variable {entry : Entry}

theorem Directory.isDir_iff (directory : entry.Directory) :
    entry.isDir = true ↔ OnlyExecute entry.status.mode := by
  rw [isDir, beq_iff_eq]
  exact compared_iff directory

theorem Regular.isReg_iff (regular : entry.Regular) :
    entry.isReg = true ↔ OnlyExecute entry.status.mode := by
  rw [isReg, beq_iff_eq]
  exact compared_iff regular

/-- An entry that `IS_REG` accepts is a regular file. -/
theorem regular_of_isReg (isReg : entry.isReg = true) : entry.Regular := by
  have masked : entry.status.mode &&& ~~~0o111 = modeReg := by simpa [Entry.isReg] using isReg
  calc
    entry.status.mode &&& modeKind = entry.status.mode &&& (~~~0o111 &&& modeKind) := by
      rw [show (~~~0o111 &&& modeKind : Mode) = modeKind by decide]
    _ = modeReg &&& modeKind := by rw [← BitVec.and_assoc, masked]
    _ = modeReg := by decide

end Entry

/-- The operations tell by the kind of an entry what they may do to it. -/
structure RespectsKind (fs : FileSystem) (entry : Entry) : Prop where
  unlink : entry.Directory → ∀ path, entry ∈ (fs.unlink path).1.entries ∧
    (fs.findEntry path = some entry → fs.unlink path = (fs, .code (-EISDIR)))
  rmdir : entry.Regular → ∀ path, entry ∈ (fs.rmdir path).1.entries
  writeFile : entry.Directory → ∀ buf offset junk,
    Keibot.writeFile entry buf offset junk = some (entry, -EISDIR)
  read : entry.Directory → ∀ bytes offset,
    fs.read (some entry.id) bytes offset = some (.code (-EISDIR))
  openFile : entry.Directory → ∀ path, fs.findEntry path = some entry →
    ∃ ret < 0, fs.openFile path = (fs, .code ret)
  opendir : entry.Regular → ∀ path, fs.findEntry path = some entry →
    ∃ ret < 0, fs.opendir path = (fs, .code ret)

/-- A directory, or a regular file that its path leads to, has no permission bits
besides the `x` bits. -/
def KindSeen (fs : FileSystem) (entry : Entry) : Prop :=
  (entry.Directory → OnlyExecute entry.status.mode) ∧
    (entry.Regular → fs.findEntry entry.path = some entry → OnlyExecute entry.status.mode)

namespace FileSystem

variable {fs : FileSystem} {entry : Entry}

/-- Only the entry that a path leads to is deleted. -/
theorem Sound.mem_delFile_of_ne (sound : fs.Sound) {other : Entry} (inside : entry ∈ fs.entries)
    (inside' : other ∈ fs.entries) (different : entry ≠ other) :
    entry ∈ (fs.delFile other).entries :=
  mem_delFile.mpr ⟨inside, fun id => different (sound.same inside inside' id)⟩

theorem Sound.mem_unlink (sound : fs.Sound) (inside : entry ∈ fs.entries)
    (isDir : entry.isDir = true) (path : Path) : entry ∈ (fs.unlink path).1.entries := by
  rcases fs.unlink_cases path with same | ⟨other, found, isFile, same⟩
  · rwa [same]
  · rw [same]
    apply sound.mem_delFile_of_ne inside (findEntry_some found).1
    rintro rfl
    exact Bool.noConfusion (isFile.symm.trans isDir)

theorem Sound.mem_rmdir (sound : fs.Sound) (inside : entry ∈ fs.entries) {path : Path}
    (isReg : fs.findEntry path = some entry → entry.isReg = true) :
    entry ∈ (fs.rmdir path).1.entries := by
  rcases fs.rmdir_cases path with same | ⟨other, found, notReg, _, same⟩
  · rwa [same]
  · rw [same]
    apply sound.mem_delFile_of_ne inside (findEntry_some found).1
    rintro rfl
    exact Bool.noConfusion (notReg.symm.trans (isReg found))

end FileSystem

/-- A write of nothing shows whether `IS_DIR` holds. -/
theorem isDir_of_writeFile {entry : Entry}
    (wrote : writeFile entry [] 0 0 = some (entry, -EISDIR)) : entry.isDir = true := by
  rcases (writeFile_cases wrote).outcome with ⟨isDir, _⟩ | ⟨_, _, other⟩ | other
  · exact isDir
  · exact absurd other (by decide)
  · exact absurd other (by decide)

/-- The operations respect the kind of an entry exactly if the macros see it. -/
theorem respects_kind_iff {options : CliOptions} {fs : FileSystem} {entry : Entry}
    (reached : Reached options fs) (inside : entry ∈ fs.entries) :
    RespectsKind fs entry ↔ KindSeen fs entry := by
  have sound := reached.sound
  constructor
  · intro respects
    constructor
    · intro directory
      rw [← directory.isDir_iff]
      exact isDir_of_writeFile (respects.writeFile directory [] 0 0)
    · intro regular found
      rw [← regular.isReg_iff]
      by_contra notReg
      obtain ⟨ret, _, opened⟩ := respects.opendir regular entry.path found
      simp [FileSystem.opendir, found, notReg] at opened
  · rintro ⟨directories, files⟩
    have isDir : entry.Directory → entry.isDir = true := fun directory =>
      directory.isDir_iff.mpr (directories directory)
    have isReg : entry.Regular → ∀ path, fs.findEntry path = some entry → entry.isReg = true := by
      intro regular path found
      rw [regular.isReg_iff]
      exact files regular ((FileSystem.findEntry_some found).2.symm ▸ found)
    constructor
    case unlink =>
      intro directory path
      refine ⟨sound.mem_unlink inside (isDir directory) path, fun found => ?_⟩
      simp [FileSystem.unlink, found, isDir directory]
    case rmdir =>
      intro regular path
      exact sound.mem_rmdir inside (isReg regular path)
    case writeFile =>
      intro directory buf offset junk
      simp [Keibot.writeFile, isDir directory]
    case read =>
      intro directory bytes offset
      simp [FileSystem.read, sound.deref inside, isDir directory]
    case openFile =>
      intro directory path found
      exact ⟨-EISDIR, by decide, by simp [FileSystem.openFile, found, isDir directory]⟩
    case opendir =>
      intro regular path found
      exact ⟨-EISNAM, by decide, by simp [FileSystem.opendir, found, isReg regular path found]⟩

/-- The file system in which only a directory "/d" was made, and its entry. -/
def withDirectory (mode : Mode) : FileSystem :=
  (FileSystem.init ⟨false, [], []⟩).newFile [slash, 100] (some .empty) (modeDir ||| mode) 0 2

def directoryEntry (mode : Mode) : Entry :=
  ⟨1, [slash, 100], some .empty, ⟨modeDir ||| mode, 0, 2, 0, 0⟩⟩

theorem withDirectory_reached (mode : Mode) : Reached ⟨false, [], []⟩ (withDirectory mode) :=
  ⟨[.mkdir [slash, 100] mode], _, Run.of_exec rfl⟩

theorem mem_withDirectory (mode : Mode) : directoryEntry mode ∈ (withDirectory mode).entries :=
  FileSystem.mem_newFile.mpr (.inr rfl)

/-- A directory made with mode 100 is one for every operation. -/
theorem respects_kind_of_execute : RespectsKind (withDirectory 0o100) (directoryEntry 0o100) :=
  (respects_kind_iff (withDirectory_reached 0o100) (mem_withDirectory 0o100)).mpr
    ⟨fun _ => by decide, fun regular => absurd regular (by decide)⟩

/-- `keibot_unlink` deletes a directory that was made with mode 755. -/
theorem unlink_deletes_directory : ∃ fs entry, Reached ⟨false, [], []⟩ fs ∧ entry ∈ fs.entries ∧
    entry.Directory ∧ entry ∉ (fs.unlink entry.path).1.entries ∧ ¬ RespectsKind fs entry := by
  have gone : directoryEntry 0o755 ∉ ((withDirectory 0o755).unlink [slash, 100]).1.entries :=
    fun member => absurd rfl (FileSystem.mem_delFile.mp member).2
  have directory : (directoryEntry 0o755).Directory := by decide
  exact ⟨_, _, withDirectory_reached 0o755, mem_withDirectory 0o755, directory, gone,
    fun respects => gone (respects.unlink directory _).1⟩

end OsPractices.Keibot
