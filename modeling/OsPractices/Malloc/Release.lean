import OsPractices.Malloc.Cleared

/-!
# Releasing blocks

`coalesce` and `free` on memory that represents a valid layout compute the
operations of the layout.
-/

set_option autoImplicit false

namespace OsPractices.Malloc

open Library

variable {state state' : State} {front back : List Block} {pred succ block : Block} {bins : Bins}
  {top least : Nat} {layout : Layout}

/-- A block is in no free list. -/
def Unlisted (bins : Bins) (off : Nat) : Prop := ∀ rank < 3, off ∉ bins rank

theorem Represents.unlisted_remove (represents : Represents state layout none)
    (inList : block.off ∈ layout.bins (getRank block.size)) :
    Unlisted (layout.bins.remove block) block.off := by
  intro rank small member
  have small' := getRank_lt block.size
  cases decEq rank (getRank block.size) with
  | isTrue same =>
      subst same
      simp only [Bins.remove, Function.update_self] at member
      exact (represents.listed _ small').nodup.not_mem_erase member
  | isFalse different =>
      exact represents.apart rank small _ small' different block.off
        (layout.bins.mem_of_mem_remove member) inList

/-- The joined block has the payload of its first part. -/
theorem Covers.join : Covers (front ++ pred.join succ :: back) (front ++ pred :: back) := by
  intro block member byte owns
  cases decEq block pred with
  | isTrue same =>
      subst same
      refine ⟨block.join succ, by simp, owns.1, ?_⟩
      have := owns.2
      simp only [Block.join]
      omega
  | isFalse other =>
      exact ⟨block, mem_beside _ (beside_of_ne member other), owns⟩

theorem Retags.join (laid : Laid 16 (front ++ pred :: succ :: back) top) :
    Retags (front ++ pred :: succ :: back) none (front ++ pred.join succ :: back) none
      (pred.join succ) top where
  laid := laid.join
  member := by simp
  kept _ member other _ := ⟨mem_beside _ (mem_beside _ (beside_of_ne member other)), by simp⟩

/-- Two blocks in no list become one free block. -/
theorem Represents.coalesce_unlisted
    (represents : Represents state ⟨front ++ pred :: succ :: back, bins, top⟩ none)
    (predOut : Unlisted bins pred.off) (succOut : Unlisted bins succ.off) :
    Returns (coalesce state (state.heap + pred.off) (state.heap + succ.off) false)
      (Yields (front ++ pred.join succ :: back) state
        ⟨front ++ pred.join succ :: back, bins.push (pred.join succ), top⟩ none) := by
  have limit := maxHeap_eq
  have laid := represents.framed.laid
  have predIn : pred ∈ front ++ pred :: succ :: back := by simp
  have succIn : succ ∈ front ++ pred :: succ :: back := by simp
  have predBounds := laid.bounds predIn
  have joined : pred.join succ ∈ front ++ pred.join succ :: back := by simp
  have joinedBounds := laid.join.bounds joined
  have size : u32 (pred.size + succ.size) = pred.size + succ.size := by
    have sum : ((pred.size : Int) + succ.size) = (pred.size + succ.size : Nat) := by omega
    rw [sum, u32_of_lt]
    simp only [Block.join] at joinedBounds
    omega
  unfold coalesce
  rw [represents.framed.size succIn (by simp), ok_bind, represents.framed.size predIn (by simp),
    ok_bind]
  simp only [Bool.false_eq_true, if_false, pure_eq_ok, ok_bind]
  rw [size]
  have tagged := represents.setTags (Retags.join laid) (by
    intro rank small block member listed
    refine ⟨by simp, block, ?_, rfl, rfl⟩
    have notPred : block ≠ pred := fun same => predOut rank small (same ▸ listed)
    have notSucc : block ≠ succ := fun same => succOut rank small (same ▸ listed)
    exact mem_beside _ (beside_of_ne (beside_of_ne member notPred) notSucc))
  change Returns (Malloc.setTags state (state.heap + pred.off) (pred.size + succ.size) unused >>= _) _
  refine Returns.bind tagged fun state₁ yields₁ => ?_
  rw [← yields₁.heap]
  have fresh : ∀ rank < 3, (pred.join succ).off ∉ bins rank := predOut
  have pushed := yields₁.represents.listPush joined (by simp) fresh
  change Returns (Malloc.listPush state₁ (state₁.heap + pred.off)
    (getRank (pred.size + succ.size)) >>= _) _
  refine Returns.bind pushed fun state₂ yields₂ => ?_
  have checked := yields₂.represents.framed.assertStat joined (by simp)
  rw [yields₂.heap] at checked
  exact .of_eq (bind_eq_ok_iff.mpr ⟨(), checked, rfl⟩) (yields₁.trans yields₂)

theorem Bins.mem_remove_of_ne {rank off : Nat} (member : off ∈ bins rank)
    (different : off ≠ block.off) : off ∈ bins.remove block rank := by
  simp only [Bins.remove, Function.update_apply]
  split
  case isTrue same => exact (List.mem_erase_of_ne different).mpr (same ▸ member)
  case isFalse => exact member

/-- The joined block lies over both of its parts. -/
theorem wider_join (laid : Laid 16 (front ++ pred :: succ :: back) top) :
    ∀ vacant ∈ vacantOf (front ++ pred :: succ :: back),
      ∃ wide ∈ vacantOf (front ++ pred.join succ :: back),
        wide.off ≤ vacant.off ∧ vacant.off + vacant.size ≤ wide.off + wide.size := by
  have touches : succ.off = pred.off + pred.size := laid.tiled.split.2.1
  have joined : pred.join succ ∈ vacantOf (front ++ pred.join succ :: back) := ⟨by simp, rfl⟩
  intro vacant inVacant
  obtain ⟨member, free⟩ := inVacant
  simp only [List.mem_append, List.mem_cons] at member
  rcases member with inFront | isPred | isSucc | inBack
  · exact ⟨vacant, ⟨by simp [inFront], free⟩, Nat.le_refl _, Nat.le_refl _⟩
  · refine ⟨_, joined, ?_⟩
    simp only [Block.join, isPred]
    omega
  · refine ⟨_, joined, ?_⟩
    simp only [Block.join, isSucc]
    omega
  · exact ⟨vacant, ⟨by simp [inBack], free⟩, Nat.le_refl _, Nat.le_refl _⟩

theorem wider_free (used : block.used = true) :
    ∀ vacant ∈ vacantOf (front ++ block :: back),
      ∃ wide ∈ vacantOf (front ++ { block with used := false } :: back),
        wide.off ≤ vacant.off ∧ vacant.off + vacant.size ≤ wide.off + wide.size := by
  intro vacant inVacant
  obtain ⟨member, free⟩ := inVacant
  refine ⟨vacant, ⟨?_, free⟩, Nat.le_refl _, Nat.le_refl _⟩
  simp only [List.mem_append, List.mem_cons] at member ⊢
  rcases member with inFront | isBlock | inBack
  · exact .inl inFront
  · rw [isBlock, used] at free
    cases free
  · exact .inr (.inr inBack)

/-- Two free blocks become one. -/
theorem Represents.coalesce
    (represents : Represents state ⟨front ++ pred :: succ :: back, bins, top⟩ none)
    (predIn : pred.off ∈ bins (getRank pred.size)) (succIn : succ.off ∈ bins (getRank succ.size)) :
    Returns (Malloc.coalesce state (state.heap + pred.off) (state.heap + succ.off) true)
      fun state' => Yields (front ++ pred :: back) state
        ⟨front ++ pred.join succ :: back, bins.coalesce pred succ, top⟩ none state' ∧
        Clears (front ++ pred :: succ :: back) state (front ++ pred.join succ :: back) state' := by
  have laid := represents.framed.laid
  have predMember : pred ∈ front ++ pred :: succ :: back := by simp
  have succMember : succ ∈ front ++ pred :: succ :: back := by simp
  have apart : pred.off ≠ succ.off := by
    have touches : succ.off = pred.off + pred.size := laid.tiled.split.2.1
    have := laid.bounds predMember
    omega
  have fewer : Covers (front ++ pred :: succ :: back) (front ++ pred :: back) := by
    apply Covers.of_subset
    intro other member
    exact mem_behind succ member
  obtain ⟨state₁, run₁, yields₁⟩ := represents.listRemove succIn
  have predIn₁ : pred.off ∈ bins.remove succ (getRank pred.size) :=
    Bins.mem_remove_of_ne predIn apart
  obtain ⟨state₂, run₂, yields₂⟩ := yields₁.represents.listRemove predIn₁
  have succOut : Unlisted ((bins.remove succ).remove pred) succ.off := fun rank small member =>
    represents.unlisted_remove succIn rank small ((bins.remove succ).mem_of_mem_remove member)
  have merged := yields₂.represents.coalesce_unlisted
    (yields₁.represents.unlisted_remove predIn₁) succOut
  rw [yields₂.heap, yields₁.heap] at merged
  rw [yields₁.heap] at run₂
  have sizes := represents.framed.size predMember (by simp)
  have sizes' := represents.framed.size succMember (by simp)
  have later := yields₂.represents.framed.size predMember (by simp)
  have later' := yields₂.represents.framed.size succMember (by simp)
  rw [yields₂.heap, yields₁.heap] at later later'
  have same : Malloc.coalesce state (state.heap + pred.off) (state.heap + succ.off) true =
      Malloc.coalesce state₂ (state.heap + pred.off) (state.heap + succ.off) false := by
    unfold Malloc.coalesce
    rw [sizes, sizes', later, later']
    simp only [ok_bind, if_true, Bool.false_eq_true, if_false, pure_eq_ok, run₁, run₂]
  rw [same]
  refine merged.mono fun state₃ yields₃ => ⟨?_, fun off cleared => ?_⟩
  · exact ((yields₁.trans yields₂).cover fewer).trans (yields₃.cover .join)
  · exact (yields₂.clears off (yields₁.clears off cleared)).step yields₃ (wider_join laid)

/-- The first merge of `free`. -/
theorem Represents.mergeNext
    (represents : Represents state ⟨front ++ block :: back, bins, top⟩ none)
    (lists : bins.Lists (vacantOf (front ++ block :: back))) (free : block.used = false)
    {merged : Block} {rest : List Block} {bins' : Bins}
    (result : Layout.absorbNext block bins back = (merged, rest, bins')) :
    Returns (if (back.head?.map Block.status).getD border = unused then
        Malloc.coalesce state (state.heap + block.off)
          (state.heap + (block.off + block.size)) true
      else pure state)
      (fun state' => Yields (front ++ block :: rest) state ⟨front ++ merged :: rest, bins', top⟩ none
        state' ∧ Clears (front ++ block :: back) state (front ++ merged :: rest) state') ∧
      merged.off = block.off := by
  cases back with
  | nil =>
      obtain ⟨rfl, rfl, rfl⟩ : block = merged ∧ [] = rest ∧ bins = bins' := by
        simpa [Layout.absorbNext] using result
      exact ⟨⟨state, by simp [border, unused], .refl represents, fun _ => id⟩, rfl⟩
  | cons next rest' =>
      cases used : next.used with
      | true =>
          obtain ⟨rfl, rfl, rfl⟩ : block = merged ∧ next :: rest' = rest ∧ bins = bins' := by
            simpa [Layout.absorbNext, used] using result
          have busy : next.status ≠ unused := by simp [status_eq_unused, used]
          exact ⟨⟨state, if_neg busy, .refl represents, fun _ => id⟩, rfl⟩
      | false =>
          obtain ⟨rfl, rfl, rfl⟩ :
              block.join next = merged ∧ rest' = rest ∧ bins.coalesce block next = bins' := by
            simpa [Layout.absorbNext, used] using result
          have vacant : block ∈ vacantOf (front ++ block :: next :: rest') := ⟨by simp, free⟩
          have vacant' : next ∈ vacantOf (front ++ block :: next :: rest') := ⟨by simp, used⟩
          have touches : next.off = block.off + block.size :=
            represents.framed.laid.tiled.split.2.1
          have merge := represents.coalesce (lists.mem vacant) (lists.mem vacant')
          rw [touches] at merge
          refine ⟨?_, rfl⟩
          rw [List.head?_cons, Option.map_some, Option.getD_some, if_pos (status_eq_unused.mpr used)]
          exact merge

/-- The second merge of `free`. -/
theorem Represents.mergePrev
    (represents : Represents state ⟨front ++ block :: back, bins, top⟩ none)
    (lists : bins.Lists (vacantOf (front ++ block :: back))) (free : block.used = false)
    {blocks : List Block} {bins' : Bins}
    (result : Layout.absorbPrev front block bins = (blocks, bins')) :
    Returns (if (front.getLast?.map Block.status).getD border = unused then
        Malloc.coalesce state (state.heap + (front.getLast?.map Block.off).getD 24)
          (state.heap + block.off) true
      else pure state)
      fun state' => Yields (front ++ back) state ⟨blocks ++ back, bins', top⟩ none state' ∧
        Clears (front ++ block :: back) state (blocks ++ back) state' := by
  have regroup : front ++ [block] ++ back = front ++ block :: back := by simp
  cases List.eq_nil_or_concat front with
  | inl empty =>
      subst empty
      obtain ⟨rfl, rfl⟩ : [block] = blocks ∧ bins = bins' := by
        simpa [Layout.absorbPrev] using result
      exact ⟨state, by simp [border, unused], .refl represents, fun _ => id⟩
  | inr ends =>
      obtain ⟨front, prev, ends⟩ := ends
      rw [List.concat_eq_append] at ends
      subst ends
      rw [List.getLast?_append_of_ne_nil _ (by simp), List.getLast?_singleton, Option.map_some,
        Option.map_some, Option.getD_some, Option.getD_some]
      cases used : prev.used with
      | true =>
          obtain ⟨rfl, rfl⟩ : front ++ [prev] ++ [block] = blocks ∧ bins = bins' := by
            simpa [Layout.absorbPrev, used] using result
          have busy : prev.status ≠ unused := by simp [status_eq_unused, used]
          rw [regroup]
          exact ⟨state, if_neg busy, .refl represents, fun _ => id⟩
      | false =>
          obtain ⟨rfl, rfl⟩ : front ++ [prev.join block] = blocks ∧
              bins.coalesce prev block = bins' := by
            simpa [Layout.absorbPrev, used] using result
          have inner : front ++ [prev] ++ block :: back = front ++ prev :: block :: back := by simp
          have outer : front ++ [prev] ++ back = front ++ prev :: back := by simp
          have joined : front ++ [prev.join block] ++ back = front ++ prev.join block :: back := by
            simp
          rw [inner] at represents lists
          have vacant : prev ∈ vacantOf (front ++ prev :: block :: back) := ⟨by simp, used⟩
          have vacant' : block ∈ vacantOf (front ++ prev :: block :: back) := ⟨by simp, free⟩
          rw [if_pos (status_eq_unused.mpr used), joined, outer, inner]
          exact represents.coalesce (lists.mem vacant) (lists.mem vacant')

/-- The client's blocks, and those but the one at an offset. -/
def held (blocks : List Block) : List Block := blocks.filter (·.used)

def heldBut (off : Nat) (blocks : List Block) : List Block :=
  (held blocks).filter (·.off ≠ off)

theorem mem_held {blocks : List Block} : block ∈ held blocks ↔ block ∈ liveOf blocks := by
  simp [held, liveOf]

theorem mem_heldBut {off : Nat} {blocks : List Block} :
    block ∈ heldBut off blocks ↔ block ∈ liveOf blocks ∧ block.off ≠ off := by
  simp [heldBut, mem_held]

theorem Layout.absorbNext_keeps {merged : Block} {rest : List Block} {bins' : Bins}
    (result : Layout.absorbNext block bins back = (merged, rest, bins')) :
    ∀ other ∈ back, other.used = true → other ∈ rest := by
  intro other member used
  cases back with
  | nil => cases member
  | cons next later =>
      simp only [Layout.absorbNext] at result
      split at result
      case isTrue =>
        cases result
        exact member
      case isFalse free =>
        cases result
        cases member with
        | head => exact absurd used free
        | tail _ inLater => exact inLater

/-- `free` of a block that the client holds, whose pointer is then cleared. -/
theorem Represents.free_clears (represents : Represents state layout none) (valid : layout.Valid least)
    (positive : 0 < least) (live : block ∈ liveOf layout.blocks) :
    Returns (Malloc.free state (state.heap + block.off))
      fun state' => Yields (heldBut block.off layout.blocks) state (layout.release block.off) none
        state' ∧ Clears layout.blocks state (layout.release block.off).blocks state' ∧
        Cleared (layout.release block.off).blocks state' block.off := by
  obtain ⟨member, holds⟩ := live
  obtain ⟨front, back, whole, located⟩ := valid.splitAt positive member
  obtain ⟨blocks, bins, top⟩ := layout
  simp only at whole
  subst whole
  have freed := valid.freed positive rfl holds
  obtain ⟨merged, rest, bins', next⟩ : ∃ merged rest bins', Layout.absorbNext
      { block with used := false } (bins.push block) back = (merged, rest, bins') := ⟨_, _, _, rfl⟩
  obtain ⟨freed', _, _⟩ := freed.absorbNext positive next
  obtain ⟨blocks, bins'', prev⟩ : ∃ blocks bins'', Layout.absorbPrev front merged bins' =
      (blocks, bins'') := ⟨_, _, rfl⟩
  have released : Layout.release ⟨front ++ block :: back, bins, top⟩ block.off =
      ⟨blocks ++ rest, bins'', top⟩ := by
    simp only [Layout.release, located, Layout.releaseBetween, next, prev]
  have fresh : Unlisted bins block.off := by
    intro rank small inList
    obtain ⟨other, ⟨inside, vacant⟩, same, _⟩ := (valid.lists.mem_iff rank _).mp inList
    have isBlock := valid.laid.eq_of_off_eq positive inside member same
    rw [isBlock, holds] at vacant
    cases vacant
  -- the block goes to its free list, and then gets the tags of a free block
  have notNull : state.heap + block.off ≠ null := represents.framed.ready.toMapped.ne_null
  have status : block.status = Malloc.used := if_pos holds
  have readStat := represents.framed.stat member (by simp)
  have readSize := represents.framed.size member (by simp)
  obtain ⟨state₁, run₁, yields₁⟩ := represents.listPush member (by simp) fresh
  have marked := yields₁.represents.mark false (by simp)
  rw [yields₁.heap] at marked
  obtain ⟨state₂, run₂, yields₂⟩ := marked
  have heap₂ : state₂.heap = state.heap := yields₂.heap.trans yields₁.heap
  have member₂ : { block with used := false } ∈ front ++ { block with used := false } :: back :=
    List.mem_append_right front List.mem_cons_self
  have checked := yields₂.represents.framed.assertStat member₂ (by simp)
  have readPrev := yields₂.represents.framed.heapPrev
  have readNext := yields₂.represents.framed.heapNext member₂ (by simp)
  have behind := yields₂.represents.framed.stat_after
  obtain ⟨merge, place⟩ := yields₂.represents.mergeNext freed.lists rfl next
  rw [heap₂] at checked readPrev readNext behind merge
  obtain ⟨state₃, run₃, yields₃, clears₃⟩ := merge
  have heap₃ : state₃.heap = state.heap := yields₃.heap.trans heap₂
  have before := yields₃.represents.framed.stat_before
  have merge' := yields₃.represents.mergePrev freed'.lists freed'.unused prev
  rw [heap₃] at before merge'
  obtain ⟨state₄, run₄, yields₄, clears₄⟩ := merge'
  have freeStatus : Block.status ⟨block.off, block.size, false⟩ = unused := rfl
  rw [freeStatus] at run₂ checked
  dsimp only at checked readPrev readNext behind run₃
  rw [place] at run₄
  rw [released]
  have clears₂ : Clears (front ++ block :: back) state₁
      (front ++ { block with used := false } :: back) state₂ :=
    fun _ cleared => cleared.step yields₂ (wider_free holds)
  have vacant₂ : { block with used := false } ∈
      vacantOf (front ++ { block with used := false } :: back) := ⟨member₂, rfl⟩
  have released₂ := yields₂.represents.cleared vacant₂
  refine ⟨state₄, ?_, ?_, ?_, clears₄ _ (clears₃ _ released₂)⟩
  · unfold Malloc.free
    rw [if_neg notNull]
    simp only [readStat, ok_bind, status, ne_eq, not_true_eq_false, if_false, readSize, run₁]
    rw [run₂, ok_bind, checked, ok_bind, readPrev, ok_bind, readNext, ok_bind, behind, ok_bind,
      run₃, ok_bind, before, ok_bind, run₄]
  · have kept : ∀ other ∈ heldBut block.off (front ++ block :: back),
        other ∈ front ∨ other ∈ back ∧ other ∈ rest := by
      intro other inside
      obtain ⟨⟨inside, used⟩, apart⟩ := mem_heldBut.mp inside
      cases List.mem_append.mp inside with
      | inl inFront => exact .inl inFront
      | inr inRest =>
          cases inRest with
          | head => exact absurd rfl apart
          | tail _ inBack => exact .inr ⟨inBack, Layout.absorbNext_keeps next other inBack used⟩
    have inOld : heldBut block.off (front ++ block :: back) ⊆ front ++ block :: back :=
      fun other inside => (mem_heldBut.mp inside).1.1
    have first := yields₁.cover (.of_subset inOld)
    have second := yields₂.cover (.of_subset fun other inside => by
      simp only [List.mem_append, List.mem_cons]
      have := kept other inside
      tauto)
    have third := yields₃.cover (.of_subset fun other inside => by
      simp only [List.mem_append, List.mem_cons]
      have := kept other inside
      tauto)
    have fourth := yields₄.cover (.of_subset fun other inside => by
      simp only [List.mem_append]
      have := kept other inside
      tauto)
    exact ((first.trans second).trans third).trans fourth
  · intro off cleared
    exact clears₄ off (clears₃ off (clears₂ off (yields₁.clears off cleared)))

theorem Represents.free (represents : Represents state layout none) (valid : layout.Valid least)
    (positive : 0 < least) (live : block ∈ liveOf layout.blocks) :
    Returns (Malloc.free state (state.heap + block.off))
      (Yields (heldBut block.off layout.blocks) state (layout.release block.off) none) :=
  (represents.free_clears valid positive live).mono fun _ freed => freed.1

end OsPractices.Malloc
