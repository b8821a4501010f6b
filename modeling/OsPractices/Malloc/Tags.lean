import OsPractices.Malloc.Lists

/-!
# The tags in memory

Writing the header and the footer of a block turns memory that represents one
layout into memory that represents another: a block changes its status, is cut
in two, or grows over the block behind it.
-/

set_option autoImplicit false

namespace OsPractices.Malloc

open Library

variable {state state' : State} {blocks blocks' : List Block} {top : Nat}
  {broken broken' : Option Nat} {layout : Layout} {target : Block}

/-! ## Reading tags -/

namespace Framed

variable {block : Block}

theorem size (framed : Framed state blocks top broken) (member : block ∈ blocks)
    (sound : broken ≠ some block.off) : state.size (state.heap + block.off) = .ok block.size := by
  have bounds := framed.laid.bounds member
  rw [size_at framed.ready.toMapped (by omega) (by omega) (by omega),
    framed.sizeAt_eq member sound]

theorem stat (framed : Framed state blocks top broken) (member : block ∈ blocks)
    (sound : broken ≠ some block.off) :
    state.stat (state.heap + block.off) = .ok block.status := by
  have bounds := framed.laid.bounds member
  rw [stat_at framed.ready.toMapped (by omega) (by omega) (by omega),
    framed.statAt_eq member sound]

theorem assertStat (framed : Framed state blocks top broken) (member : block ∈ blocks)
    (sound : broken ≠ some block.off) :
    Malloc.assertStat state (state.heap + block.off) block.status = .ok () := by
  unfold Malloc.assertStat
  rw [framed.stat member sound, ok_bind, if_pos rfl]
  rfl

theorem heapNext (framed : Framed state blocks top broken) (member : block ∈ blocks)
    (sound : broken ≠ some block.off) :
    state.heapNext (state.heap + block.off) = .ok (state.heap + (block.off + block.size)) := by
  have bounds := framed.laid.bounds member
  have size := framed.sizeAt_eq member sound
  rw [heapNext_at framed.ready.toMapped (by omega) (by omega) (by omega), size]

/-- The status behind a block: that of the next one, or of the epilogue. -/
theorem stat_after {front back : List Block}
    (framed : Framed state (front ++ block :: back) top none) :
    state.stat (state.heap + (block.off + block.size)) =
      .ok ((back.head?.map Block.status).getD border) := by
  have behind := framed.laid.tiled.split.2
  cases back with
  | nil =>
      have ends : block.off + block.size = top := behind
      have bounds := framed.laid.bounds (List.mem_append_right front (List.mem_singleton_self block))
      rw [ends, stat_at framed.ready.toMapped (by omega) (by omega) (by omega)]
      unfold statAt
      rw [framed.epilogue]
      rfl
  | cons next rest =>
      have starts : next.off = block.off + block.size := behind.1
      rw [← starts, framed.stat (by simp) (by simp)]
      rfl

/-- The block before a block, found through its footer, or the prologue. -/
theorem heapPrev {front back : List Block}
    (framed : Framed state (front ++ block :: back) top none) :
    state.heapPrev (state.heap + block.off) =
        .ok (state.heap + (front.getLast?.map Block.off).getD 24) := by
  have bounds := framed.laid.bounds (List.mem_append_right front List.mem_cons_self)
  cases List.eq_nil_or_concat front with
  | inl empty =>
      subst empty
      have starts : block.off = 32 := framed.laid.tiled.1
      have footer : unzipSize (words state (block.off - 16)) = 8 := by
        rw [starts, framed.prologue]
        rfl
      rw [heapPrev_at framed.ready.toMapped (by omega) (by omega) (by omega) (by omega), footer,
        starts]
      rfl
  | inr ends =>
      obtain ⟨front, prev, ends⟩ := ends
      rw [List.concat_eq_append] at ends
      subst ends
      have prevIn : prev ∈ front ++ [prev] ++ block :: back := by simp
      have prevBounds := framed.laid.bounds prevIn
      have touches : prev.off + prev.size = block.off := framed.laid.tiled.split.1.getLast_end
      have footer : unzipSize (words state (block.off - 16)) = prev.size := by
        rw [← touches, (framed.tags prev prevIn (by simp)).2, tag_size (by omega)]
      rw [heapPrev_at framed.ready.toMapped (by omega) (by omega) (by omega) (by omega), footer,
        ← touches, Nat.add_sub_cancel]
      simp

/-- The status of the block before a block, or of the prologue. -/
theorem stat_before {front back : List Block}
    (framed : Framed state (front ++ block :: back) top none) :
    state.stat (state.heap + (front.getLast?.map Block.off).getD 24) =
      .ok ((front.getLast?.map Block.status).getD border) := by
  cases last : front.getLast? with
  | none =>
      have limit := maxHeap_eq
      simp only [Option.map_none, Option.getD_none]
      rw [stat_at framed.ready.toMapped (by decide) (by decide) (by omega)]
      unfold statAt
      rw [framed.prologue]
      rfl
  | some prev =>
      have prevIn : prev ∈ front ++ block :: back :=
        List.mem_append_left _ (List.mem_of_getLast? last)
      exact framed.stat prevIn (by simp)

end Framed

/-! ## Writing tags -/

/-- The words of the two tags of a block are written. -/
def State.putTags (state : State) (block : Block) : State :=
  (state.put (block.off - 8) block.tag).put (block.off + block.size - 16) block.tag

theorem words_putTags (laid : Laid 16 blocks top) (member : target ∈ blocks) :
    words (state.putTags target) =
      Function.update (Function.update (words state) (target.off - 8) target.tag)
        (target.off + target.size - 16) target.tag := by
  have limit := maxHeap_eq
  have bounds := laid.bounds member
  have small : target.tag % 2 ^ 32 = target.tag := Nat.mod_eq_of_lt (zip_lt (by omega))
  unfold State.putTags
  rw [words_put (by omega), words_put (by omega), small]

/-- The footer is found through the new header; `found` is the size that this
header has once it is written. -/
theorem setTags_stores {offset size status found : Nat} (mapped : Mapped state)
    (aligned : offset % 8 = 0) (low : 16 ≤ offset)
    (stored : unzipSize (zip size status % 2 ^ 32) = found) (inside : offset + found ≤ maxHeap) :
    setTags state (state.heap + offset) size status =
      .ok ((state.put (offset - 8) (zip size status)).put (offset + found - 16)
        (zip size status)) := by
  have read : sizeAt (words (state.put (offset - 8) (zip size status))) offset = found := by
    unfold sizeAt
    rw [words_put (by omega), Function.update_self, stored]
  have mapped' : Mapped (state.put (offset - 8) (zip size status)) :=
    mapped.of_same rfl rfl
  have footer : (state.put (offset - 8) (zip size status)).ftrPtr (state.heap + offset) =
      .ok (state.heap + (offset + found - 16)) := by
    have whole := ftrPtr_at mapped' (by omega : offset % 4 = 0) (by omega) (by omega) (by omega)
    rwa [read] at whole
  unfold setTags
  rw [hdrPtr_at mapped (by omega) (by omega), set_at (by omega), ok_bind]
  rw [footer, ok_bind]
  exact set_at (by omega) _

/-- The code writes the tags of a block. -/
theorem setTags_eq (mapped : Mapped state) (laid : Laid 16 blocks top) (member : target ∈ blocks) :
    setTags state (state.heap + target.off) target.size target.status =
      .ok (state.putTags target) := by
  have limit := maxHeap_eq
  have bounds := laid.bounds member
  have small : target.tag % 2 ^ 32 = target.tag := Nat.mod_eq_of_lt (zip_lt (by omega))
  refine setTags_stores mapped (by omega) (by omega) ?_ (by omega)
  change unzipSize (target.tag % 2 ^ 32) = target.size
  rw [small, tag_size (by omega)]

/-- The other words of the metadata of the blocks are not written. -/
theorem putTags_apart (laid : Laid 16 blocks top) (member : target ∈ blocks) :
    (words (state.putTags target) 16 = words state 16 ∧
      words (state.putTags target) (top - 8) = words state (top - 8) ∧
      ∀ rank < 3, words (state.putTags target) (4 * rank) = words state (4 * rank)) ∧
    ∀ block ∈ blocks,
      words (state.putTags target) (block.off - 4) = words state (block.off - 4) ∧
      words (state.putTags target) (block.off + block.size - 12) =
        words state (block.off + block.size - 12) ∧
      (block ≠ target →
        words (state.putTags target) (block.off - 8) = words state (block.off - 8) ∧
        words (state.putTags target) (block.off + block.size - 16) =
          words state (block.off + block.size - 16)) := by
  have bounds := laid.bounds member
  have same : ∀ offset, offset ≠ target.off - 8 → offset ≠ target.off + target.size - 16 →
      words (state.putTags target) offset = words state offset := by
    intro offset header footer
    rw [words_putTags laid member, Function.update_of_ne footer, Function.update_of_ne header]
  refine ⟨⟨same _ (by omega) (by omega), same _ (by omega) (by omega), ?_⟩, ?_⟩
  · intro rank small
    exact same _ (by omega) (by omega)
  · intro block inside
    have range := laid.bounds inside
    rcases laid.before_or_behind member inside with here | before | behind
    · subst here
      exact ⟨same _ (by omega) (by omega), same _ (by omega) (by omega), fun other =>
        absurd rfl other⟩
    · exact ⟨same _ (by omega) (by omega), same _ (by omega) (by omega), fun _ =>
        ⟨same _ (by omega) (by omega), same _ (by omega) (by omega)⟩⟩
    · exact ⟨same _ (by omega) (by omega), same _ (by omega) (by omega), fun _ =>
        ⟨same _ (by omega) (by omega), same _ (by omega) (by omega)⟩⟩

theorem putTags_keeps (laid : Laid 16 blocks top) (member : target ∈ blocks) :
    Keeps blocks state (state.putTags target) := by
  have bounds := laid.bounds member
  intro block inside byte owns
  have range := laid.bounds inside
  obtain ⟨low, high⟩ := owns
  have apart : (byte < target.off - 8 ∨ target.off - 8 + 4 ≤ byte) ∧
      (byte < target.off + target.size - 16 ∨ target.off + target.size - 16 + 4 ≤ byte) := by
    rcases laid.before_or_behind member inside with here | before | behind
    · subst here
      omega
    · omega
    · omega
  exact (put_mem_of_outside apart.2).trans (put_mem_of_outside apart.1)

/-- What the blocks of a layout become: `target` gets new tags, and the others
that are to be right were right before. -/
structure Retags (blocks : List Block) (broken : Option Nat) (blocks' : List Block)
    (broken' : Option Nat) (target : Block) (top : Nat) : Prop where
  laid : Laid 16 blocks' top
  member : target ∈ blocks'
  kept : ∀ block ∈ blocks', block ≠ target → broken' ≠ some block.off →
    block ∈ blocks ∧ broken ≠ some block.off

namespace Retags

theorem framed (retags : Retags blocks broken blocks' broken' target top)
    (framed : Framed state blocks top broken) :
    Framed (state.putTags target) blocks' top broken' := by
  have apart := @putTags_apart state _ _ _ retags.laid retags.member
  have bounds := retags.laid.bounds retags.member
  refine ⟨(framed.ready.put _).put _, framed.brk, retags.laid, ?_, ?_, ?_⟩
  · rw [apart.1.1, framed.prologue]
  · rw [apart.1.2.1, framed.epilogue]
  · intro block inside sound
    cases decEq block target with
    | isTrue same =>
        subst same
        rw [words_putTags retags.laid retags.member]
        refine ⟨?_, Function.update_self _ _ _⟩
        rw [Function.update_of_ne (by omega), Function.update_self]
    | isFalse other =>
        obtain ⟨_, _, tags⟩ := apart.2 block inside
        obtain ⟨inOld, soundOld⟩ := retags.kept block inside other sound
        rw [(tags other).1, (tags other).2]
        exact framed.tags block inOld soundOld

end Retags

/-- The blocks of the free lists are where they were, with right tags. -/
def ListsStay (bins : Bins) (blocks blocks' : List Block) (broken' : Option Nat) : Prop :=
  ∀ rank < 3, ∀ block ∈ blocks, block.off ∈ bins rank → broken' ≠ some block.off ∧
    ∃ other ∈ blocks', other.off = block.off ∧ other.size = block.size

theorem Represents.setTags (represents : Represents state layout broken)
    (retags : Retags layout.blocks broken blocks' broken' target layout.top)
    (stay : ListsStay layout.bins layout.blocks blocks' broken') :
    Returns (Malloc.setTags state (state.heap + target.off) target.size target.status)
      (Yields blocks' state { layout with blocks := blocks' } broken') := by
  have framed := retags.framed represents.framed
  have apart := @putTags_apart state _ _ _ retags.laid retags.member
  refine ⟨_, setTags_eq represents.framed.ready.toMapped retags.laid retags.member,
    ⟨⟨framed, ?_, ?_, represents.apart⟩, rfl, putTags_keeps retags.laid retags.member⟩⟩
  · intro rank small
    refine (represents.listed rank small).congr ?_ ?_ ?_
    · simp only [links, apart.1.2.2 rank small]
    · intro off inList
      obtain ⟨block, member, rfl, _⟩ := represents.node rank small off inList
      obtain ⟨_, other, member', place, _⟩ := stay rank small block member inList
      have link := (apart.2 other member').1
      rw [place] at link
      simp only [links, link]
    · intro off inList
      obtain ⟨block, member, rfl, sound⟩ := represents.node rank small off inList
      obtain ⟨sound', other, member', place, size⟩ := stay rank small block member inList
      have link := (apart.2 other member').2.1
      have before := represents.framed.preAt_eq member sound
      have after := framed.preAt_eq member' (place ▸ sound')
      rw [place, size] at link after
      simp only [links, before, after, link]
  · intro rank small off inList
    obtain ⟨block, member, rfl, _⟩ := represents.node rank small off inList
    obtain ⟨sound', other, member', place, _⟩ := stay rank small block member inList
    exact ⟨other, member', place, sound'⟩

/-- Writing the tags of a block anew, with another status. -/
theorem Represents.mark {front back : List Block} {bins : Bins} {block : Block}
    (represents : Represents state ⟨front ++ block :: back, bins, top⟩ broken) (used : Bool)
    (only : ∀ off ∈ broken, off = block.off) :
    Returns (Malloc.setTags state (state.heap + block.off) block.size
        (Block.status ⟨block.off, block.size, used⟩))
      (Yields (front ++ ⟨block.off, block.size, used⟩ :: back) state
        ⟨front ++ ⟨block.off, block.size, used⟩ :: back, bins, top⟩ none) := by
  have laid := represents.framed.laid
  have different := laid.off_ne (by decide) rfl
  have retags : Retags (front ++ block :: back) broken
      (front ++ ⟨block.off, block.size, used⟩ :: back) none ⟨block.off, block.size, used⟩ top := by
    refine ⟨laid.mark used, by simp, fun other member apart _ => ?_⟩
    have inRest := beside_of_ne member apart
    exact ⟨mem_beside _ inRest, fun same => different other inRest (only _ same)⟩
  refine represents.setTags retags fun rank _ other member _ => ⟨by simp, ?_⟩
  cases decEq other block with
  | isTrue same => exact ⟨⟨block.off, block.size, used⟩, by simp, by rw [same], by rw [same]⟩
  | isFalse apart =>
      exact ⟨other, mem_beside _ (beside_of_ne member apart), rfl, rfl⟩

end OsPractices.Malloc
