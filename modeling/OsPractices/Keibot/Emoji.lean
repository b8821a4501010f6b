import OsPractices.Keibot.Entries

/-!
# Emoji

`keibot_write` takes the number behind ":emoji" for an index. It tests that the
number is not negative, and not that there are so many emoji.
-/

set_option autoImplicit false

namespace OsPractices.Keibot

open Library

namespace FileSystem

/-- The index at which a write reads `emoji`, if it takes that branch. -/
def emojiIndex (fs : FileSystem) (buf behind : List UInt8) : Option Int :=
  let id := getEmojiId (buf ++ behind)
  if fs.options.chatbotMode && 0 ≤ id then some id else none

/-- An index is within the table, and stands for its text; what gives no index is
written as it is. -/
structure LooksUp (fs : FileSystem) (buf behind : List UInt8) (offset : Nat) : Prop where
  inRange : ∀ index ∈ fs.emojiIndex buf behind, 0 ≤ index ∧ index < fs.emoji.length ∧
    fs.emojiOr buf behind offset = fs.emoji[index.toNat]?.map fun text => (text, 0)
  plain : fs.emojiIndex buf behind = none → fs.emojiOr buf behind offset = some (buf, offset)

variable {fs next : FileSystem} {buf behind : List UInt8}

theorem looksUp_iff (chatbot : fs.options.chatbotMode = true) (offset : Nat) :
    fs.LooksUp buf behind offset ↔ getEmojiId (buf ++ behind) < fs.emoji.length := by
  by_cases taken : 0 ≤ getEmojiId (buf ++ behind)
  · have index : fs.emojiIndex buf behind = some (getEmojiId (buf ++ behind)) := by
      simp [emojiIndex, chatbot, taken]
    constructor
    · intro looks
      exact (looks.inRange _ index).2.1
    · intro below
      constructor
      · intro other same
        cases index.symm.trans same
        exact ⟨taken, below, by simp [emojiOr, chatbot, taken]⟩
      · intro none
        cases index.symm.trans none
  · have index : fs.emojiIndex buf behind = none := by simp [emojiIndex, taken]
    refine iff_of_true ⟨?_, fun _ => by simp [emojiOr, taken]⟩ (by omega)
    intro other same
    cases index.symm.trans same

/-- The table and the options stay as they are. -/
theorem table_preserved (options : CliOptions) (emoji : List (List UInt8)) :
    Preserved fun fs => fs.options = options ∧ fs.emoji = emoji where
  newFile holds _ _ := holds
  delFile holds _ := holds
  renamed holds renamed := by
    cases renamed with
    | samePath => exact holds
    | missing => exact holds
    | occupied => exact holds
    | moved =>
        unfold moved
        cases findEntry _ _ with
        | none => exact holds
        | some entry => exact holds
  written holds _ _ := holds

end FileSystem

theorem Reached.table {options : CliOptions} {fs : FileSystem} (reached : Reached options fs) :
    fs.options = options ∧ (options.chatbotMode = true → fs.emoji.length = 5) := by
  have kept := (FileSystem.table_preserved (FileSystem.init options).options
    (FileSystem.init options).emoji).reached ⟨rfl, rfl⟩ reached
  have same : (FileSystem.init options).options = options := by
    unfold FileSystem.init
    dsimp only
    split <;> rfl
  refine ⟨kept.1.trans same, fun chatbot => ?_⟩
  rw [kept.2]
  simp [FileSystem.init, chatbot]

/-- Each of the two writes of a `keibot_write` looks its emoji up within the
table, or writes the bytes that it got. -/
structure EmojiSafe (fs : FileSystem) (entry : Entry) (buf behind : List UInt8) (offset : Nat)
    (junk : Nat → Memory) : Prop where
  primary : fs.LooksUp buf behind offset
  mirrored : ∀ middle ret, fs.writeEntry entry buf behind offset (junk 0) = some (middle, ret) →
    middle.LooksUp buf behind offset

/-- The emoji are looked up within the table exactly if the number is one of
theirs. -/
theorem emoji_safe_iff {options : CliOptions} {fs : FileSystem} (reached : Reached options fs)
    (chatbot : fs.options.chatbotMode = true) (entry : Entry) (buf behind : List UInt8)
    (offset : Nat) (junk : Nat → Memory) :
    EmojiSafe fs entry buf behind offset junk ↔ getEmojiId (buf ++ behind) < 5 := by
  have count : fs.emoji.length = 5 := reached.table.2 (reached.table.1 ▸ chatbot)
  constructor
  · intro safe
    have below := (FileSystem.looksUp_iff chatbot offset).mp safe.primary
    rwa [count] at below
  · intro below
    refine ⟨(FileSystem.looksUp_iff chatbot offset).mpr (by rwa [count]), ?_⟩
    intro middle ret wrote
    obtain ⟨text, start, written, _, _, rfl⟩ := FileSystem.writeEntry_cases wrote
    exact (@FileSystem.looksUp_iff (fs.update entry.id fun _ => written) _ _ chatbot offset).mpr
      (by rwa [show (fs.update entry.id fun _ => written).emoji = fs.emoji from rfl, count])

/-- The file system of the bots "a" and "k" in which a file "/f" was made, and its
entry. -/
def withChatFile : FileSystem :=
  (FileSystem.init ⟨true, [97], [107]⟩).newFile [slash, 102] (some .empty) (modeReg ||| 0o644) 0 1

def chatFileEntry : Entry := ⟨3, [slash, 102], some .empty, ⟨modeReg ||| 0o644, 0, 1, 0, 0⟩⟩

theorem withChatFile_reached : Reached ⟨true, [97], [107]⟩ withChatFile :=
  ⟨[.mknod [slash, 102] 0o644 0], _, Run.of_exec rfl⟩

/-- The text ":emoji3". -/
theorem emoji_safe_of_three : EmojiSafe withChatFile chatFileEntry
    [58, 101, 109, 111, 106, 105, 51] [10] 0 fun _ _ => 0 :=
  (emoji_safe_iff withChatFile_reached rfl _ _ _ _ _).mpr (by decide)

/-- The text ":emoji7" is written to a regular file: there are five emoji. -/
theorem emoji_beyond_table : ∃ (fs : FileSystem) (entry : Entry),
    Reached ⟨true, [97], [107]⟩ fs ∧ fs.deref 3 = some entry ∧ entry.Regular ∧
      fs.write entry.path (some 3) [58, 101, 109, 111, 106, 105, 55] [10] 0 (fun _ _ => 0) = none ∧
      ¬ EmojiSafe fs entry [58, 101, 109, 111, 106, 105, 55] [10] 0 fun _ _ => 0 := by
  refine ⟨withChatFile, chatFileEntry, withChatFile_reached, rfl, by decide, rfl, fun safe => ?_⟩
  have below := (FileSystem.looksUp_iff rfl 0).mp safe.primary
  exact absurd below (by decide)

end OsPractices.Keibot
