import OsPractices.Keibot.Mirror
import OsPractices.Library.CString

/-!
# Mirrored names

`replace_first_after` in the block that it allocates. A path of
`MAX_FILE_NAME_LEN` bytes leaves no place for a NUL, and a longer name of the
other bot moves the rest of the path behind the block.
-/

set_option autoImplicit false

namespace OsPractices.Keibot

open Library Library.CString

/-- `replace_first_after` over the bytes of its block; `none` where it reads or
writes outside of them. -/
def replaceFirstAfterIn (parent path oldStr newStr : Path) : Option (List UInt8) :=
  let plen := boundedLength parent
  (strncpy (List.replicate maxFileNameLen 0) path maxFileNameLen).bind fun str =>
    (strAt str plen).bind fun found =>
      match strstr found oldStr with
      | none => some str
      | some pos =>
          let oldLen := boundedLength oldStr
          let newLen := boundedLength newStr
          (strAt str (plen + pos + oldLen)).bind fun rest =>
            (memmove str (plen + pos + newLen) (plen + pos + oldLen) (rest.length + 1)).bind
              fun str => memcpy str (plen + pos) (newStr.take maxFileNameLen)

/-- `swtich_bot`, where the bot directories have the paths that `keibot_init` gave
them. -/
def swtichBotIn (options : CliOptions) (path : Path) : Option (Option (List UInt8)) :=
  if isParentPath options.bot1Path path false then
    (replaceFirstAfterIn rootPath path options.bot1 options.bot2).map some
  else if isParentPath options.bot2Path path false then
    (replaceFirstAfterIn rootPath path options.bot2 options.bot1).map some
  else some none

variable {parent path oldStr newStr : Path} {pos : Nat}

theorem strstr_some (found : strstr path oldStr = some pos) :
    ∃ rest, path.drop pos = oldStr ++ rest ∧ pos + oldStr.length ≤ path.length := by
  have here := List.find?_some found
  obtain ⟨rest, same⟩ := List.isPrefixOf_iff_prefix.mp here
  have within := List.mem_range.mp (List.mem_of_find?_eq_some found)
  have size := congrArg List.length same
  rw [List.length_append, List.length_drop] at size
  exact ⟨rest, same.symm, by omega⟩

/-- A path of `MAX_FILE_NAME_LEN` bytes is not terminated in the block. -/
theorem replaceFirstAfterIn_long (plain : 0 ∉ path) (long : maxFileNameLen ≤ path.length) :
    replaceFirstAfterIn parent path oldStr newStr = none := by
  have unterminated :
      0 ∉ path.take maxFileNameLen ++ List.replicate (maxFileNameLen - path.length) 0 := by
    rw [Nat.sub_eq_zero_of_le long, List.replicate_zero, List.append_nil]
    exact fun inside => plain (List.mem_of_mem_take inside)
  unfold replaceFirstAfterIn
  simp only [strncpy_zeros, Option.bind_some, strAt_unterminated unterminated, Option.bind_none]

/-- The block of a shorter path. -/
theorem strncpy_short (short : path.length < maxFileNameLen) : ∃ zeros,
    (path ++ 0 :: zeros).length = maxFileNameLen ∧
      strncpy (List.replicate maxFileNameLen 0) path maxFileNameLen = some (path ++ 0 :: zeros) := by
  have more : maxFileNameLen - path.length = maxFileNameLen - path.length - 1 + 1 := by omega
  refine ⟨List.replicate (maxFileNameLen - path.length - 1) 0, ?_, ?_⟩
  · simp only [List.length_append, List.length_cons, List.length_replicate]
    omega
  · rw [strncpy_zeros, List.take_of_length_le short.le, more, List.replicate_succ]
    rfl

/-- The end of the path is moved within the block, or behind it. -/
theorem replaceFirstAfterIn_found (plain : 0 ∉ path) (short : path.length < maxFileNameLen)
    (inside : boundedLength parent ≤ path.length)
    (found : strstr (path.drop (boundedLength parent)) oldStr = some pos) :
    (path.length + boundedLength newStr < maxFileNameLen + oldStr.length ∧ ∃ zeros,
      replaceFirstAfterIn parent path oldStr newStr =
        some (replaceFirstAfter parent path oldStr newStr ++ 0 :: zeros)) ∨
    (maxFileNameLen + oldStr.length ≤ path.length + boundedLength newStr ∧
      replaceFirstAfterIn parent path oldStr newStr = none) := by
  obtain ⟨zeros, size, block⟩ := strncpy_short short
  obtain ⟨_, _, within⟩ := strstr_some found
  rw [List.length_drop] at within
  have oldLen : boundedLength oldStr = oldStr.length := Nat.min_eq_left (by omega)
  have newLen : (newStr.take maxFileNameLen).length = boundedLength newStr := by
    rw [List.length_take, boundedLength, Nat.min_comm]
  have tail : ∀ {offset : Nat}, offset ≤ path.length →
      strAt (path ++ 0 :: zeros) offset = some (path.drop offset) := by
    intro offset inside
    exact strAt_of_drop (fun zero => plain (List.mem_of_mem_drop zero))
      (List.drop_append_of_le_length inside)
  have moved : replaceFirstAfterIn parent path oldStr newStr =
      (memmove (path ++ 0 :: zeros)
        (boundedLength parent + pos + (newStr.take maxFileNameLen).length)
        (boundedLength parent + pos + oldStr.length)
        ((path.drop (boundedLength parent + pos + oldStr.length)).length + 1)).bind
          (memcpy · (boundedLength parent + pos) (newStr.take maxFileNameLen)) := by
    unfold replaceFirstAfterIn
    simp only [block, Option.bind_some, tail inside, found, oldLen, newLen,
      tail (show boundedLength parent + pos + oldStr.length ≤ path.length by omega)]
  rw [moved]
  rcases Nat.lt_or_ge (path.length + boundedLength newStr) (maxFileNameLen + oldStr.length) with
    fits | beyond
  · obtain ⟨behind, written⟩ := @exchange path zeros (boundedLength parent + pos)
      (boundedLength parent + pos + oldStr.length) (newStr.take maxFileNameLen)
      (Nat.le_add_right _ _) (by omega) (by omega)
    refine .inl ⟨fits, behind, written.trans ?_⟩
    simp only [replaceFirstAfter, List.take_of_length_le short.le, found, oldLen]
  · exact .inr ⟨beyond, exchange_beyond (by omega) (by omega)⟩

/-- The block holds the string that `replace_first_after` stands for. -/
theorem replaceFirstAfterIn_refines {block : List UInt8} (plain : 0 ∉ path) (plain' : 0 ∉ newStr)
    (inside : boundedLength parent ≤ path.length)
    (served : replaceFirstAfterIn parent path oldStr newStr = some block) :
    strAt block 0 = some (replaceFirstAfter parent path oldStr newStr) := by
  rcases Nat.lt_or_ge path.length maxFileNameLen with short | long
  · cases found : strstr (path.drop (boundedLength parent)) oldStr with
    | none =>
        obtain ⟨zeros, _, block⟩ := strncpy_short short
        have rest : strAt (path ++ 0 :: zeros) (boundedLength parent) =
            some (path.drop (boundedLength parent)) :=
          strAt_of_drop (fun zero => plain (List.mem_of_mem_drop zero))
            (List.drop_append_of_le_length inside)
        unfold replaceFirstAfterIn at served
        simp only [block, Option.bind_some, rest, found, Option.some.injEq] at served
        rw [← served, strAt_of_drop plain rfl]
        simp only [replaceFirstAfter, List.take_of_length_le short.le, found]
    | some pos =>
        have outcome := @replaceFirstAfterIn_found _ _ _ newStr _ plain short inside found
        cases outcome with
        | inl within =>
            obtain ⟨_, zeros, stored⟩ := within
            cases stored.symm.trans served
            refine strAt_of_drop (fun zero => ?_) rfl
            simp only [replaceFirstAfter, List.take_of_length_le short.le, found,
              List.mem_append] at zero
            cases zero with
            | inl zero =>
                cases zero with
                | inl zero => exact plain (List.mem_of_mem_take zero)
                | inr zero => exact plain' (List.mem_of_mem_take zero)
            | inr zero => exact plain (List.mem_of_mem_drop zero)
        | inr beyond => cases beyond.2.symm.trans served
  · cases (replaceFirstAfterIn_long plain long).symm.trans served

/-- A path below a directory begins with what `swtich_bot` knows of it. -/
theorem prefix_of_isParentPath {dir : Path} (short : dir.length ≤ maxFileNameLen)
    (parent : isParentPath dir path false = true) : dir <+: path := by
  obtain ⟨_, same, sep⟩ := isParentPath_iff.mp parent
  have bounded : boundedLength dir = dir.length := Nat.min_eq_left short
  by_cases ends : dir[boundedLength dir - 1]? = some slash
  · -- the slash at its end is the one that was found in the path
    rw [trimmedLength_slash ends] at same sep
    have joined := split_at_slash ends
    have inside := (List.getElem?_eq_some_iff.mp ends).1
    rw [List.drop_eq_nil_of_le (by omega), same] at joined
    refine ⟨path.drop (boundedLength dir - 1 + 1), ?_⟩
    calc
      dir ++ path.drop (boundedLength dir - 1 + 1)
        = (path.take (boundedLength dir - 1) ++ [slash]) ++
            path.drop (boundedLength dir - 1 + 1) := by rw [← joined]
      _ = path := by rw [List.append_assoc, List.singleton_append, ← split_at_slash sep]
  · rw [trimmedLength_name ends, bounded, List.take_length] at same
    exact same ▸ List.take_prefix _ _

/-- A path below the directory of a bot, the name of that bot and that of the other
one. The first bot is tested first. -/
inductive UnderBot (options : CliOptions) (path : Path) : Path → Path → Prop where
  | bot1 : isParentPath options.bot1Path path false = true →
      UnderBot options path options.bot1 options.bot2
  | bot2 : isParentPath options.bot1Path path false = false →
      isParentPath options.bot2Path path false = true →
      UnderBot options path options.bot2 options.bot1

/-- What the block holds is the counterpart of the path. -/
theorem HasBots.swtichBot_of_in {options : CliOptions} {fs : FileSystem} {block : List UInt8}
    (bots : HasBots options fs) (plain : 0 ∉ path) (plain1 : 0 ∉ options.bot1)
    (plain2 : 0 ∉ options.bot2) (served : swtichBotIn options path = some (some block)) :
    ∃ npath, strAt block 0 = some npath ∧ fs.swtichBot path = some (some npath) := by
  have inside : ∀ {dir : Path}, isParentPath dir path false = true →
      boundedLength rootPath ≤ path.length := by
    intro dir parent
    exact Nat.zero_lt_of_lt (List.getElem?_eq_some_iff.mp (isParentPath_iff.mp parent).2.2).1
  unfold swtichBotIn at served
  unfold FileSystem.swtichBot
  rw [bots.bot1, bots.bot2, bots.same, Option.bind_some, Option.map_some]
  split at served
  case isTrue parent =>
    obtain ⟨_, stored, same⟩ := Option.map_eq_some_iff.mp served
    cases same
    exact ⟨_, replaceFirstAfterIn_refines plain plain2 (inside parent) stored, if_pos parent⟩
  case isFalse no =>
    rw [if_neg no]
    split at served
    case isTrue parent =>
      obtain ⟨_, stored, same⟩ := Option.map_eq_some_iff.mp served
      cases same
      exact ⟨_, replaceFirstAfterIn_refines plain plain1 (inside parent) stored,
        congrArg some (if_pos parent)⟩
    case isFalse => cases served

/-- `swtich_bot` stays inside of its block, which then holds the path with one name
exchanged for the other, and a NUL. -/
def Exchanges (options : CliOptions) (path name other : Path) : Prop :=
  ∃ (block : List UInt8) (rest : Path), swtichBotIn options path = some (some block) ∧
    path = slash :: (name ++ rest) ∧ strAt block 0 = some (slash :: (other ++ rest))

theorem UnderBot.begins {options : CliOptions} {name other : Path}
    (under : UnderBot options path name other) (short : path.length < maxFileNameLen) :
    ∃ rest, path = slash :: (name ++ rest) := by
  have whole : ∀ {name : Path}, isParentPath (concatenate rootPath name) path false = true →
      ∃ rest, path = slash :: (name ++ rest) := by
    intro name parent
    have size : (concatenate rootPath name).length ≤ maxFileNameLen := by
      change (slash :: name.take 1023).length ≤ _
      simp only [List.length_cons, List.length_take, maxFileNameLen]
      omega
    obtain ⟨rest, rfl⟩ := prefix_of_isParentPath size parent
    have cut : concatenate rootPath name = slash :: name.take 1023 := rfl
    rw [cut] at short ⊢
    have fits : name.length ≤ 1023 := by
      simp only [List.cons_append, List.length_cons, List.length_append, List.length_take,
        maxFileNameLen] at short
      omega
    exact ⟨rest, by rw [List.take_of_length_le fits, List.cons_append]⟩
  cases under with
  | bot1 parent => exact whole parent
  | bot2 _ parent => exact whole parent

theorem UnderBot.swtichBotIn {options : CliOptions} {name other : Path}
    (under : UnderBot options path name other) :
    swtichBotIn options path = (replaceFirstAfterIn rootPath path name other).map some := by
  unfold Keibot.swtichBotIn
  cases under with
  | bot1 parent => rw [if_pos parent]
  | bot2 no parent => rw [no, if_neg Bool.false_ne_true, if_pos parent]

/-- `swtich_bot` stays inside of its block and gives the counterpart exactly if the
path and the counterpart are shorter than the block. -/
theorem exchanges_iff {options : CliOptions} {name other : Path}
    (under : UnderBot options path name other) (plain : 0 ∉ path) (plain1 : 0 ∉ options.bot1)
    (plain2 : 0 ∉ options.bot2) :
    Exchanges options path name other ↔ path.length < maxFileNameLen ∧
      path.length + other.length < maxFileNameLen + name.length := by
  have plain' : 0 ∉ other := by
    cases under with
    | bot1 => exact plain2
    | bot2 => exact plain1
  rcases Nat.lt_or_ge path.length maxFileNameLen with short | long
  · obtain ⟨rest, rfl⟩ := under.begins short
    have found : strstr ((slash :: (name ++ rest)).drop (boundedLength rootPath)) name = some 0 :=
      strstr_prefix name rest
    have size : (slash :: (name ++ rest)).length = name.length + rest.length + 1 := by simp
    have nonempty : boundedLength rootPath ≤ (slash :: (name ++ rest)).length :=
      size ▸ Nat.le_add_left 1 _
    cases @replaceFirstAfterIn_found _ _ _ other _ plain short nonempty found with
    | inl within =>
        obtain ⟨fits, zeros, block⟩ := within
        have less : other.length < maxFileNameLen := by
          unfold boundedLength at fits
          omega
        have whole : boundedLength other = other.length := Nat.min_eq_left less.le
        rw [whole] at fits
        have held := replaceFirstAfterIn_refines plain plain' nonempty block
        have exchanged : replaceFirstAfter rootPath (slash :: (name ++ rest)) name other =
            slash :: (other ++ rest) := replaceFirstAfter_bot short less.le
        have served : swtichBotIn options (slash :: (name ++ rest)) =
            some (some (replaceFirstAfter rootPath (slash :: (name ++ rest)) name other ++
              0 :: zeros)) := by
          rw [under.swtichBotIn, block, Option.map_some]
        exact iff_of_true ⟨_, rest, served, rfl, exchanged ▸ held⟩ ⟨short, fits⟩
    | inr beyond =>
        obtain ⟨reaches, none⟩ := beyond
        refine iff_of_false ?_ fun less => ?_
        · intro exchanges
          obtain ⟨block, _, served, _⟩ := exchanges
          rw [under.swtichBotIn, none] at served
          cases served
        · have bounded : boundedLength other ≤ other.length := min_le_left _ _
          omega
  · refine iff_of_false ?_ fun less => absurd less.1 (Nat.not_lt.mpr long)
    intro exchanges
    obtain ⟨block, rest, served, _⟩ := exchanges
    rw [under.swtichBotIn, replaceFirstAfterIn_long plain long] at served
    cases served

/-- The bots "a" and "k". -/
def shortBots : CliOptions := ⟨true, [97], [107]⟩

/-- A path "/a/f". -/
theorem exchanges_short_name : Exchanges shortBots [slash, 97, slash, 102] [97] [107] :=
  (exchanges_iff (.bot1 (by decide)) (by decide) (by decide) (by decide)).mpr (by decide)

/-- A path of 1024 bytes below "/a" is accepted, and not terminated in the block. -/
theorem full_path_unterminated : ∃ path : Path, path.length ≤ maxFileNameLen ∧ 0 ∉ path ∧
    UnderBot shortBots path [97] [107] ∧ swtichBotIn shortBots path = none ∧
      ¬ Exchanges shortBots path [97] [107] := by
  have size : (stem shortBots.bot1Path ++ List.replicate 1021 120).length = maxFileNameLen := by
    rw [List.length_append, List.length_replicate]
    rfl
  have plain : 0 ∉ stem shortBots.bot1Path ++ List.replicate 1021 120 := by
    intro zero
    cases List.mem_append.mp zero with
    | inl zero => exact absurd zero (by decide)
    | inr zero => exact absurd (List.eq_of_mem_replicate zero) (by decide)
  have under : UnderBot shortBots (stem shortBots.bot1Path ++ List.replicate 1021 120) [97] [107] := by
    refine .bot1 (isParentPath_of_below (.inr (by decide)) (by decide) ⟨_, ?_, rfl⟩)
    exact fun none => absurd (congrArg List.length none) (by rw [List.length_replicate]; decide)
  have outside : swtichBotIn shortBots (stem shortBots.bot1Path ++ List.replicate 1021 120) = none := by
    rw [under.swtichBotIn, replaceFirstAfterIn_long plain size.ge, Option.map_none]
  refine ⟨_, size.le, plain, under, outside, fun exchanges => ?_⟩
  obtain ⟨block, _, served, _⟩ := exchanges
  cases outside.symm.trans served

end OsPractices.Keibot
