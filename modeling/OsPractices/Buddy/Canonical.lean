import Mathlib.Data.Finset.Card
import OsPractices.Buddy.Pool

/-!
# Complete merging

In a canonical pool the free blocks are determined by the live ones: they are
the maximal blocks without a live page. Allocation and release keep a pool
canonical, so the lists depend on the history only through the live blocks.
-/

set_option autoImplicit false

namespace OsPractices.Buddy

open Library

namespace Pool

theorem Canonical.initial (height : Nat) : (Pool.initial height).Canonical := by
  intro block free below
  by_cases whole : block.height = height
  · simp only [Pool.initial] at below
    omega
  · simp [Pool.initial, whole] at free

/-! ## Allocation -/

/-- The splitting loop's view: only the block at the head of the list of
`height`, which starts at `cell`, may have a buddy without a live page. -/
def CanonicalDownTo (pool : Pool) (height cell : Nat) : Prop :=
  ∃ pos rest, pool.free height = pos :: rest ∧ (⟨height, pos⟩ : DyadicBlock).start = cell ∧
    ∀ block : DyadicBlock, block.pos ∈ pool.free block.height → block ≠ ⟨height, pos⟩ →
      block.height < pool.height →
        (∃ busy ∈ pool.live, busy.Overlaps block.buddy) ∨ block.buddy.Covers cell

theorem CanonicalDownTo.splitHead {pool : Pool} (valid : pool.Valid) {height cell : Nat}
    (canonical : pool.CanonicalDownTo (height + 1) cell) :
    (pool.splitHead height).CanonicalDownTo height cell := by
  obtain ⟨pos, rest, head, start, others⟩ := canonical
  have sameStart : (⟨height, 2 * pos⟩ : DyadicBlock).start = cell := by
    rw [← start]
    simp only [DyadicBlock.start, pow_succ]
    ring
  refine ⟨2 * pos, _, (free_splitHead head).1, sameStart, ?_⟩
  intro block free different below
  rw [height_splitHead] at below
  rw [live_splitHead]
  rcases (mem_free_splitHead head (valid.freeNodup _) block).mp free with
    left | right | ⟨old, notCut⟩
  · exact absurd left different
  · right
    subst right
    have isLeft : DyadicBlock.buddy ⟨height, 2 * pos + 1⟩ = ⟨height, 2 * pos⟩ := by
      simp [DyadicBlock.buddy, Nat.add_mod]
    rw [isLeft, ← sameStart]
    exact DyadicBlock.covers_start _
  · exact others block old notCut below

theorem CanonicalDownTo.splitDown {pool : Pool} (valid : pool.Valid) {height cell : Nat}
    (gap : Nat) (canonical : pool.CanonicalDownTo (height + gap) cell) :
    (pool.splitDown height gap).Valid ∧
      (pool.splitDown height gap).CanonicalDownTo height cell := by
  induction gap generalizing pool with
  | zero => exact ⟨valid, canonical⟩
  | succ gap ih =>
      obtain ⟨pos, rest, head, -⟩ := id canonical
      exact ih (valid.splitHead head) (canonical.splitHead valid)

@[simp] theorem height_splitDown (pool : Pool) (height gap : Nat) :
    (pool.splitDown height gap).height = pool.height := by
  induction gap generalizing pool with
  | zero => rfl
  | succ gap ih => simp [Pool.splitDown, ih]

@[simp] theorem live_splitDown (pool : Pool) (height gap : Nat) :
    (pool.splitDown height gap).live = pool.live := by
  induction gap generalizing pool with
  | zero => rfl
  | succ gap ih => simp [Pool.splitDown, ih]

theorem CanonicalDownTo.takeHead {pool next : Pool} {height cell : Nat} {block : DyadicBlock}
    (valid : pool.Valid) (canonical : pool.CanonicalDownTo height cell)
    (result : pool.takeHead height = some (block, next)) : next.Canonical := by
  obtain ⟨pos, rest, head, start, others⟩ := canonical
  obtain ⟨pos', rest', head', rfl, rfl⟩ := takeHead_eq_some_iff.mp result
  obtain ⟨rfl, rfl⟩ : pos = pos' ∧ rest = rest' := by simpa [head] using head'
  intro other free below
  have freeIff := @mem_update_erase pool.free ⟨height, pos⟩ (valid.freeNodup height) other
  simp only [head, List.erase_cons_head] at freeIff
  obtain ⟨old, different⟩ := freeIff.mp free
  rcases others other old different below with ⟨busy, live, overlaps⟩ | covers
  · exact ⟨busy, List.mem_append_left _ live, overlaps⟩
  · refine ⟨⟨height, pos⟩, List.mem_append_right _ (List.mem_singleton_self _), cell, ?_, covers⟩
    rw [← start]
    exact DyadicBlock.covers_start _

theorem firstFree_eq_some {pool : Pool} {height first : Nat}
    (result : pool.firstFree height = some first) :
    height ≤ first ∧ first ≤ pool.height ∧ pool.free first ≠ [] ∧
      ∀ lower, height ≤ lower → lower < first → pool.free lower = [] := by
  obtain ⟨found, index, bound, at_, before⟩ := List.find?_eq_some_iff_getElem.mp result
  simp only [List.getElem_range', List.length_range', Nat.one_mul] at at_ bound before
  subst at_
  refine ⟨by omega, by omega, by simpa using found, ?_⟩
  intro lower low high
  have skipped := before (lower - height) (by omega)
  rw [show height + (lower - height) = lower by omega] at skipped
  simpa using skipped

theorem firstFree_eq_none {pool : Pool} {height : Nat}
    (result : pool.firstFree height = none) (other : Nat) (low : height ≤ other)
    (high : other ≤ pool.height) : pool.free other = [] := by
  have skipped := List.find?_eq_none.mp result other
    (List.mem_range'_1.mpr ⟨low, by omega⟩)
  simpa using skipped

/-- What a successful allocation does to the pool. -/
theorem alloc_eq_some {pool next : Pool} {height : Nat} {block : DyadicBlock}
    (valid : pool.Valid) (canonical : pool.Canonical)
    (result : pool.alloc height = some (block, next)) :
    next.Valid ∧ next.Canonical ∧ block.height = height ∧ next.height = pool.height ∧
      next.live = pool.live ++ [block] := by
  obtain ⟨first, least, taken⟩ := Option.bind_eq_some_iff.mp result
  obtain ⟨low, -, nonempty, -⟩ := firstFree_eq_some least
  obtain ⟨pos, rest, head⟩ := List.exists_cons_of_ne_nil nonempty
  have start : pool.CanonicalDownTo (height + (first - height))
      (⟨first, pos⟩ : DyadicBlock).start := by
    rw [Nat.add_sub_cancel' low]
    exact ⟨pos, rest, head, rfl, fun other free _ below => .inl (canonical other free below)⟩
  obtain ⟨splitValid, splitCanonical⟩ := start.splitDown valid
  refine ⟨splitValid.takeHead taken, splitCanonical.takeHead splitValid taken, ?_⟩
  obtain ⟨pos', rest', -, rfl, rfl⟩ := takeHead_eq_some_iff.mp taken
  exact ⟨rfl, height_splitDown pool height _, by simp⟩

/-! ## Release -/

theorem Canonical.mergeBuddy {pool : Pool} (valid : pool.Valid) (canonical : pool.Canonical)
    {block : DyadicBlock} : (pool.mergeBuddy block).Canonical := by
  intro other free below
  obtain ⟨old, -⟩ := (@mem_update_erase pool.free block.buddy (valid.freeNodup _) other).mp free
  obtain ⟨busy, live, overlaps⟩ := canonical other old below
  by_cases same : busy = block
  · subst same
    obtain ⟨cell, inBusy, inBuddy⟩ := overlaps
    exact ⟨busy.parent, List.mem_cons_self, cell,
      DyadicBlock.covers_parent_iff.mpr (.inl inBusy), inBuddy⟩
  · exact ⟨busy, .tail _ ((List.mem_erase_of_ne same).mpr live), overlaps⟩

/-- Next to a block where merging stops lies a page of some other live block. -/
private theorem busy_beside_hand {pool : Pool} (valid : pool.Valid) (canonical : pool.Canonical)
    {hand : DyadicBlock} (live : hand ∈ pool.live) (below : hand.height < pool.height)
    (stopped : hand.buddy.pos ∉ pool.free hand.height) :
    ∃ busy ∈ pool.live, busy ≠ hand ∧ busy.Overlaps hand.buddy := by
  have inside := (valid.inside (.inr live)).buddy below
  obtain ⟨tile, member, covers⟩ := valid.tiles.cover _ inside.start_lt
  have notHand : tile ≠ hand := by
    intro same
    exact DyadicBlock.not_covers_buddy (same ▸ covers) (DyadicBlock.covers_start _)
  rcases member with free | tileLive
  · rcases lt_trichotomy tile.height hand.height with lower | same | higher
    · obtain ⟨busy, busyLive, cell, inBusy, inBuddy⟩ :=
        canonical tile free (lower.trans below)
      have inHandBuddy : hand.buddy.Covers cell :=
        DyadicBlock.covers_of_le tile.parent hand.buddy lower
          (DyadicBlock.covers_parent_iff.mpr (.inl covers)) (DyadicBlock.covers_start _)
          (DyadicBlock.covers_parent_iff.mpr (.inr inBuddy))
      refine ⟨busy, busyLive, ?_, cell, inBusy, inHandBuddy⟩
      intro equal
      exact DyadicBlock.not_covers_buddy (equal ▸ inBusy) inHandBuddy
    · have equal : tile = hand.buddy :=
        DyadicBlock.ext_of_covers same covers (DyadicBlock.covers_start _)
      subst equal
      exact absurd free stopped
    · -- a tile taller than the hand and next to it would contain the hand
      have inTile : tile.Covers hand.start :=
        DyadicBlock.covers_of_le hand.parent tile higher
          (DyadicBlock.covers_parent_iff.mpr (.inr (DyadicBlock.covers_start _))) covers
          (DyadicBlock.covers_parent_iff.mpr (.inl hand.covers_start))
      exact absurd (valid.tiles.apart tile (.inl free) hand (.inr live)
        ⟨_, inTile, hand.covers_start⟩) notHand
  · exact ⟨tile, tileLive, notHand, _, covers, DyadicBlock.covers_start _⟩

theorem Canonical.putFree {pool : Pool} (valid : pool.Valid) (canonical : pool.Canonical)
    {hand : DyadicBlock} (live : hand ∈ pool.live)
    (stopped : hand.height < pool.height → hand.buddy.pos ∉ pool.free hand.height) :
    (pool.putFree hand).Canonical := by
  have beside := fun below => busy_beside_hand valid canonical live below (stopped below)
  intro block free below
  have member : block = hand ∨ block.pos ∈ pool.free block.height := by
    by_cases same : block.height = hand.height
    · simp only [Pool.putFree, same, Function.update_self, List.mem_cons] at free
      rcases free with equal | old
      · left
        cases block
        cases hand
        cases same
        cases equal
        rfl
      · exact .inr (same ▸ old)
    · exact .inr (by simpa [Pool.putFree, same] using free)
  rcases member with rfl | old
  · obtain ⟨busy, busyLive, different, overlaps⟩ := beside below
    exact ⟨busy, (List.mem_erase_of_ne different).mpr busyLive, overlaps⟩
  · obtain ⟨busy, busyLive, cell, inBusy, inBuddy⟩ := canonical block old below
    by_cases isHand : busy = hand
    · subst isHand
      rcases lt_trichotomy busy.height block.height with lower | same | higher
      · -- the hand's buddy lies in this buddy as well, and it has a live page
        obtain ⟨other, otherLive, different, shared, inOther, inHandBuddy⟩ :=
          beside (lower.trans below)
        refine ⟨other, (List.mem_erase_of_ne different).mpr otherLive, shared, inOther, ?_⟩
        exact DyadicBlock.covers_of_le busy.parent block.buddy lower
          (DyadicBlock.covers_parent_iff.mpr (.inl inBusy)) inBuddy
          (DyadicBlock.covers_parent_iff.mpr (.inr inHandBuddy))
      · have equal : busy = block.buddy := DyadicBlock.ext_of_covers same inBusy inBuddy
        subst equal
        exact absurd (by simpa using old) (stopped below)
      · -- a hand taller than the block would contain the block too
        have inHand : busy.Covers block.start :=
          DyadicBlock.covers_of_le block.parent busy higher
            (DyadicBlock.covers_parent_iff.mpr (.inr inBuddy)) inBusy
            (DyadicBlock.covers_parent_iff.mpr (.inl block.covers_start))
        have equal := valid.tiles.apart busy (.inr live) block (.inl old)
          ⟨_, inHand, block.covers_start⟩
        subst equal
        exact absurd old (valid.apart busy live)
    · exact ⟨busy, (List.mem_erase_of_ne isHand).mpr busyLive, cell, inBusy, inBuddy⟩

theorem Canonical.release {pool : Pool} (valid : pool.Valid) (canonical : pool.Canonical)
    {block : DyadicBlock} (live : block ∈ pool.live) : (pool.release block).Canonical := by
  have kept := mergeUp_induct
    (fun reached hand => reached.Valid ∧ hand ∈ reached.live ∧ reached.Canonical)
    (fun _ _ kept below free => ⟨kept.1.mergeBuddy kept.2.1 below free, List.mem_cons_self,
      kept.2.2.mergeBuddy kept.1⟩)
    (pool.height - block.height) pool block ⟨valid, live, canonical⟩
  exact kept.2.2.putFree kept.1 kept.2.1 (mergeUp_stops pool block _ le_rfl)

/-! ## What the live blocks determine -/

/-- A block without a live page that is the whole region or sits next to one. -/
def Maximal (pool : Pool) (block : DyadicBlock) : Prop :=
  (∀ busy ∈ pool.live, ¬ busy.Overlaps block) ∧
    (block.height = pool.height ∨ ∃ busy ∈ pool.live, busy.Overlaps block.buddy)

theorem mem_free_iff_maximal {pool : Pool} (valid : pool.Valid) (canonical : pool.Canonical)
    {block : DyadicBlock} (inside : block.Inside pool.height) :
    block.pos ∈ pool.free block.height ↔ pool.Maximal block := by
  have merged : ∀ tile ∈ pool.blocks, tile ∉ pool.live → tile.height < pool.height →
      ∃ busy ∈ pool.blocks, busy ∈ pool.live ∧ busy.Overlaps tile.buddy := by
    intro tile member notLive below
    obtain ⟨busy, live, overlaps⟩ :=
      canonical tile (valid.mem_free_iff.mpr ⟨member, notLive⟩) below
    exact ⟨busy, .inr live, live, overlaps⟩
  rw [valid.mem_free_iff, valid.tiles.free_iff_maximal merged inside]
  constructor
  · rintro ⟨clear, maximal⟩
    refine ⟨fun busy live => clear busy (.inr live) live, maximal.imp_right ?_⟩
    rintro ⟨busy, -, live, overlaps⟩
    exact ⟨busy, live, overlaps⟩
  · rintro ⟨clear, maximal⟩
    refine ⟨fun busy _ live => clear busy live, maximal.imp_right ?_⟩
    intro ⟨busy, live, overlaps⟩
    exact ⟨busy, .inr live, live, overlaps⟩

end Pool

end OsPractices.Buddy
