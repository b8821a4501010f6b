import OsPractices.Keibot.Rename

/-!
# One entry for each path

No operation gives a path to a second entry. Only `keibot_init` may do so, with
bot names that differ behind the bytes that `concatenate` keeps.
-/

set_option autoImplicit false

namespace OsPractices.Keibot

open Library

/-- `keibot_utimens`, which changes times only. -/
def FileSystem.utimens (fs : FileSystem) (path : Path) : Reply :=
  match fs.findEntry path with
  | none => .code (-ENOENT)
  | some _ => .code 0

/-- A request, `keibot_utimens` among them. -/
inductive Operation where
  | request (call : Call)
  | utimens (path : Path)

def FileSystem.operate (fs : FileSystem) : Operation → Option (FileSystem × List Reply)
  | .request call => fs.step call
  | .utimens path => some (fs, [fs.utimens path])

/-- The file system after some operations. -/
def Operated (options : CliOptions) (fs : FileSystem) : Prop :=
  ∃ operations replies,
    Run FileSystem.operate (fun _ _ => True) (.init options) operations replies fs

/-- An entry is the only one with its path. -/
def UniquePaths (fs : FileSystem) : Prop :=
  ∀ entry ∈ fs.entries, ∀ other ∈ fs.entries, entry.path = other.path → entry = other

theorem UniquePaths.nodup {fs : FileSystem} (unique : UniquePaths fs) (sound : fs.Sound) :
    (fs.entries.map Entry.path).Nodup :=
  List.Nodup.map_on (fun entry inside other inside' => unique entry inside other inside')
    (List.Nodup.of_map Entry.id sound.distinct)

theorem UniquePaths.of_nodup {fs : FileSystem} (nodup : (fs.entries.map Entry.path).Nodup) :
    UniquePaths fs := fun _ inside _ inside' => List.inj_on_of_nodup_map nodup inside inside'

namespace UniquePaths

variable {fs next : FileSystem}

theorem newFile (unique : UniquePaths fs) {path : Path} (missing : fs.findEntry path = none)
    (content : Option Content) (mode : Mode) (rdev nlink : Nat) :
    UniquePaths (fs.newFile path content mode rdev nlink) := by
  have absent := FileSystem.findEntry_none.mp missing
  intro entry inside other inside' same
  rcases FileSystem.mem_newFile.mp inside with old | rfl <;>
  rcases FileSystem.mem_newFile.mp inside' with old' | rfl
  · exact unique entry old other old' same
  · exact absurd same (absent entry old)
  · exact absurd same.symm (absent other old')
  · rfl

theorem delFile (unique : UniquePaths fs) (entry : Entry) : UniquePaths (fs.delFile entry) :=
  fun one inside other inside' =>
    unique one (FileSystem.mem_delFile.mp inside).1 other (FileSystem.mem_delFile.mp inside').1

/-- A change of an entry that leaves its path. -/
theorem update (unique : UniquePaths fs) {id : Nat} {change : Entry → Entry}
    (path : ∀ entry ∈ fs.entries, entry.id = id → (change entry).path = entry.path) :
    UniquePaths (fs.update id change) := by
  have kept : ∀ old ∈ fs.entries, (if old.id = id then change old else old).path = old.path := by
    intro old inside
    split
    case isTrue here => exact path old inside here
    case isFalse => rfl
  intro entry inside other inside' same
  obtain ⟨old, member, rfl⟩ := FileSystem.mem_update.mp inside
  obtain ⟨old', member', rfl⟩ := FileSystem.mem_update.mp inside'
  rw [kept old member, kept old' member'] at same
  rw [unique old member old' member' same]

theorem moved (unique : UniquePaths fs) (sound : fs.Sound) {src dest : Path} {srcEntry : Entry}
    (found : fs.findEntry src = some srcEntry) (different : src ≠ dest) :
    UniquePaths (fs.moved srcEntry dest) := by
  -- the entry that was at the destination is gone
  have vacated : ∀ entry ∈ fs.entries, fs.findEntry dest ≠ some entry → entry.path ≠ dest := by
    intro entry inside other here
    cases target : fs.findEntry dest with
    | none => exact FileSystem.findEntry_none.mp target entry inside here
    | some destEntry =>
        obtain ⟨inside', path⟩ := FileSystem.findEntry_some target
        rw [unique entry inside destEntry inside' (here.trans path.symm)] at other
        exact other target
  intro entry inside other inside' same
  rcases (FileSystem.mem_moved sound found different).mp inside with rfl | ⟨old, _, kept⟩ <;>
  rcases (FileSystem.mem_moved sound found different).mp inside' with rfl | ⟨old', _, kept'⟩
  · rfl
  · exact absurd same.symm (vacated other old' kept')
  · exact absurd same (vacated entry old kept)
  · exact unique entry old other old' same

/-- Every request keeps the paths apart. -/
theorem preserved : FileSystem.Preserved fun fs => fs.Sound ∧ UniquePaths fs where
  newFile := fun ⟨sound, unique⟩ missing sized =>
    ⟨sound.newFile sized, unique.newFile missing _ _ _ _⟩
  delFile := fun ⟨sound, unique⟩ _ => ⟨sound.delFile _, unique.delFile _⟩
  renamed := by
    rintro fs next src dest flags ret ⟨sound, unique⟩ renamed
    refine ⟨sound.renamed renamed, ?_⟩
    cases renamed with
    | samePath => exact unique
    | missing => exact unique
    | occupied => exact unique
    | moved heads _ found _ _ =>
        exact unique.moved sound found fun same => heads (congrArg _ same)
  written := by
    rintro fs entry written text start junk ret ⟨sound, unique⟩ inside stored
    refine ⟨sound.written inside stored, unique.update fun old member here => ?_⟩
    rw [sound.same member inside here]
    exact stored.keeps.2.1

end UniquePaths

theorem paths_init {options : CliOptions} (chatbot : options.chatbotMode = true) :
    (FileSystem.init options).entries.map Entry.path =
      [rootPath, slash :: options.bot1.take 1023, slash :: options.bot2.take 1023] := by
  simp only [FileSystem.init, chatbot, if_true]
  rfl

/-- The bot directories get paths of their own exactly if the names differ in the
bytes that `concatenate` keeps. -/
theorem paths_init_nodup {options : CliOptions} (chatbot : options.chatbotMode = true)
    (bot1 : options.bot1 ≠ []) (bot2 : options.bot2 ≠ []) :
    ((FileSystem.init options).entries.map Entry.path).Nodup ↔
      options.bot1.take 1023 ≠ options.bot2.take 1023 := by
  have deeper : ∀ {name : Path}, name ≠ [] → rootPath ≠ slash :: name.take 1023 := by
    intro name nonempty same
    have none := (List.cons.inj same).2.symm
    rw [List.take_eq_nil_iff] at none
    exact none.elim (fun zero => absurd zero (by decide)) nonempty
  rw [paths_init chatbot]
  simp only [List.nodup_cons, List.mem_cons, List.not_mem_nil, or_false, deeper bot1,
    deeper bot2, not_false_eq_true, List.nodup_nil, and_true, true_and, List.cons.injEq, ne_eq]

/-- In every state reached the paths are unique exactly if the bot names differ in
their first 1023 bytes. -/
theorem unique_paths_iff {options : CliOptions} (bot1 : options.bot1 ≠ [])
    (bot2 : options.bot2 ≠ []) :
    (∀ fs, Operated options fs → (fs.entries.map Entry.path).Nodup ∧
      ∀ path entry, fs.findEntry path = some entry →
        ∀ other ∈ fs.entries, other.path = path → other = entry) ↔
      (options.chatbotMode = true → options.bot1.take 1023 ≠ options.bot2.take 1023) := by
  constructor
  · intro unique chatbot
    exact (paths_init_nodup chatbot bot1 bot2).mp (unique (.init options) ⟨[], [], .nil⟩).1
  · rintro differ fs ⟨operations, replies, run⟩
    have start : UniquePaths (.init options) := by
      apply UniquePaths.of_nodup
      by_cases chatbot : options.chatbotMode = true
      · exact (paths_init_nodup chatbot bot1 bot2).mpr (differ chatbot)
      · simp [FileSystem.init, chatbot, FileSystem.newFile]
    obtain ⟨sound, unique⟩ : fs.Sound ∧ UniquePaths fs := by
      refine @Run.invariant _ _ _ _ _ _ _ _ _ run (fun fs _ => fs.Sound ∧ UniquePaths fs)
        ⟨FileSystem.Sound.init options, start⟩ ?_
      intro fs next _ _ operation kept _ stepped
      cases operation with
      | request call => exact UniquePaths.preserved.step kept stepped
      | utimens path =>
          cases stepped
          exact kept
    refine ⟨unique.nodup sound, fun path entry found other inside same => ?_⟩
    obtain ⟨inside', here⟩ := FileSystem.findEntry_some found
    exact unique other inside entry inside' (same.trans here.symm)

/-- With the bots "a" and "k". -/
theorem unique_paths_of_short_names : [97] ≠ ([] : Path) ∧ [107] ≠ ([] : Path) ∧
    ∀ fs, Operated ⟨true, [97], [107]⟩ fs → (fs.entries.map Entry.path).Nodup ∧
      ∀ path entry, fs.findEntry path = some entry →
        ∀ other ∈ fs.entries, other.path = path → other = entry :=
  ⟨by decide, by decide, (unique_paths_iff (by decide) (by decide)).mpr fun _ => by decide⟩

/-- Two names of 1024 bytes that differ in the last one: both bot directories get
the same path. -/
theorem long_names_share_path : ∃ (options : CliOptions) (fs : FileSystem),
    options.bot1 ≠ [] ∧ options.bot2 ≠ [] ∧ options.bot1 ≠ options.bot2 ∧ Operated options fs ∧
      ¬ (fs.entries.map Entry.path).Nodup := by
  have differ : List.replicate 1023 (97 : UInt8) ++ [98] ≠ List.replicate 1023 97 ++ [99] := by
    intro same
    exact absurd (List.append_cancel_left same) (by decide)
  have nonempty : ∀ byte : UInt8, List.replicate 1023 (97 : UInt8) ++ [byte] ≠ [] :=
    fun _ => List.append_ne_nil_of_right_ne_nil _ (List.cons_ne_nil _ _)
  have kept : ∀ byte : UInt8, (List.replicate 1023 (97 : UInt8) ++ [byte]).take 1023 =
      List.replicate 1023 97 := fun _ => List.take_left' List.length_replicate
  refine ⟨⟨true, List.replicate 1023 97 ++ [98], List.replicate 1023 97 ++ [99]⟩, _, nonempty 98,
    nonempty 99, differ, ⟨[], [], .nil⟩, ?_⟩
  rw [paths_init_nodup rfl (nonempty 98) (nonempty 99), not_not]
  exact (kept 98).trans (kept 99).symm

end OsPractices.Keibot
