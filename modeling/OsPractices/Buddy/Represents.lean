import OsPractices.Buddy.Canonical
import OsPractices.Buddy.FreeLists

/-!
# Memory represents a pool

`Represents` is the representation invariant of `buddy.c`. The record at the
first page of a block carries the block's status, rank and tree index; the
record at any other page is `UNDEF`, and its other fields are never used. While
`return_pages` merges, the block it holds in hand has no meaningful record.
-/

set_option autoImplicit false

namespace OsPractices.Buddy

open Library

structure Represents (state : State) (pool : Pool) (hand : Option DyadicBlock) : Prop where
  small : pool.height < maxRankNum
  rankNum : state.rankNum = pool.height + 1
  lists : FreeLists state pool.height pool.free
  counts : ∀ h ≤ pool.height, state.count (h + 1) = (pool.free h).length
  unused : ∀ block : DyadicBlock, block.pos ∈ pool.free block.height →
    state.label block.start = (.unused, block.height + 1, treeIndex pool.height block)
  used : ∀ block ∈ pool.live, some block ≠ hand →
    state.label block.start = (.used, block.height + 1, treeIndex pool.height block)
  undef : ∀ page < 2 ^ pool.height, (∀ block ∈ pool.blocks, block.start ≠ page) →
    (state.label page).1 = .undef

theorem Pool.Valid.length_free_le {pool : Pool} (valid : pool.Valid) (h : Nat) :
    (pool.free h).length ≤ 2 ^ pool.height := by
  have bounded : pool.free h ⊆ List.range (2 ^ pool.height) := by
    intro pos member
    obtain ⟨_, within⟩ := valid.inside (.inl member : (⟨h, pos⟩ : DyadicBlock) ∈ pool.blocks)
    refine List.mem_range.mpr (within.trans_le ?_)
    exact Nat.pow_le_pow_right (by decide) (Nat.sub_le _ _)
  simpa using ((valid.freeNodup h).subperm bounded).length_le

/-- Two tiles that start at one page are the same. -/
theorem Pool.Valid.start_ne {pool : Pool} (valid : pool.Valid) {left right : DyadicBlock}
    (inLeft : left ∈ pool.blocks) (inRight : right ∈ pool.blocks) (different : left ≠ right) :
    left.start ≠ right.start :=
  fun same => different (valid.tiles.eq_of_start inLeft inRight same)

theorem Represents.count_lt {state : State} {pool : Pool} {hand : Option DyadicBlock}
    (represents : Represents state pool hand) (valid : pool.Valid) (h : Nat) :
    (pool.free h).length < 2 ^ 20 :=
  (valid.length_free_le h).trans_lt
    ((two_pow_le represents.small).trans_lt (by decide))

theorem label_update (state : State) (id other : Nat) (node : ListT) :
    { state with metaArray := Function.update state.metaArray id node }.label other =
      if other = id then (node.status, node.rank, node.index) else state.label other := by
  by_cases same : other = id
  · simp [State.label, same]
  · simp [State.label, same]

/-! ## Splitting -/

/-- The state between the label updates and the pushes of one splitting turn. -/
def State.halved (state : State) (height pos index : Nat) : State :=
  { state with
    count := Function.update state.count (height + 2) (u32 (state.count (height + 2) - 1))
    metaArray := Function.update (Function.update
      (Function.update state.metaArray (⟨height + 1, pos⟩ : DyadicBlock).start
        { state.metaArray (⟨height + 1, pos⟩ : DyadicBlock).start with status := .undef })
      (⟨height, 2 * pos + 1⟩ : DyadicBlock).start ⟨.unused, height + 1, index + 1, none, none⟩)
      (⟨height, 2 * pos⟩ : DyadicBlock).start ⟨.unused, height + 1, index, none, none⟩ }

theorem treeIndex_succ (height h pos : Nat) :
    treeIndex height ⟨h, pos + 1⟩ = treeIndex height ⟨h, pos⟩ + 1 := by
  simp only [treeIndex]
  omega

theorem splitBlock_eq {state : State} {height h pos : Nat}
    (small : height < maxRankNum) (rankNum : state.rankNum = height + 1)
    (inside : (⟨h + 1, pos⟩ : DyadicBlock).Inside height)
    (index : (state.metaArray (⟨h + 1, pos⟩ : DyadicBlock).start).index =
      treeIndex height ⟨h + 1, pos⟩) :
    splitBlock state (⟨h + 1, pos⟩ : DyadicBlock).start (h + 2) = (do
      let state ← listPush (state.halved h pos (treeIndex height ⟨h, 2 * pos⟩)) (h + 1)
        (⟨h, 2 * pos + 1⟩ : DyadicBlock).start
      let state ← listPush state (h + 1) (⟨h, 2 * pos⟩ : DyadicBlock).start
      let count ← state.getCount (h + 1)
      state.setCount (h + 1) (u32 (count + 2))) := by
  have low : h + 1 ≤ height := inside.1
  have bound : h + 2 ≤ maxRankNum := by omega
  have rank : u8 ((h + 2 : Nat) - 1) = h + 1 := by
    unfold maxRankNum at bound
    exact u8_eq _ (by omega) (by omega)
  have leftInside := inside_left inside
  have rightInside := inside_right inside
  have leftChild := child_left small inside
  have rightChild := child_right small inside
  have wholeBound := start_lt_maxPageNum small inside
  have leftBound := start_lt_maxPageNum small leftInside
  have rightBound := start_lt_maxPageNum small rightInside
  have page : ∀ next : State, next.rankNum = state.rankNum → ∀ block : DyadicBlock,
      block.Inside height →
        blockToPage next (treeIndex height block) (block.height + 1) = .ok block.start :=
    fun next same block within => blockToPage_eq (same.trans rankNum) small within
  simp only [splitBlock, State.modifyMeta_eq _ wholeBound, ok_bind, State.getCount_eq _ bound,
    State.setCount_eq _ bound, State.getMeta_eq _ wholeBound, Function.update_self, index, rank,
    leftChild, rightChild]
  rw [page _ ?_ ⟨h, 2 * pos + 1⟩ rightInside, ok_bind,
    page _ ?_ ⟨h, 2 * pos⟩ leftInside, ok_bind, State.setMeta_eq _ rightBound,
    ok_bind, State.setMeta_eq _ leftBound, ok_bind, treeIndex_succ]
  · simp only [State.halved, index]
  · rfl
  · rfl

theorem label_halved (state : State) (h pos index page : Nat) :
    (state.halved h pos index).label page =
      if page = (⟨h, 2 * pos⟩ : DyadicBlock).start then (.unused, h + 1, index)
      else if page = (⟨h, 2 * pos + 1⟩ : DyadicBlock).start then (.unused, h + 1, index + 1)
      else state.label page := by
  have sameStart : (⟨h + 1, pos⟩ : DyadicBlock).start = (⟨h, 2 * pos⟩ : DyadicBlock).start := by
    simp only [DyadicBlock.start, pow_succ]
    ring
  by_cases isLeft : page = (⟨h, 2 * pos⟩ : DyadicBlock).start
  · simp [State.label, State.halved, isLeft]
  · by_cases isRight : page = (⟨h, 2 * pos + 1⟩ : DyadicBlock).start
    · subst isRight
      simp [State.label, State.halved, isLeft]
    · simp [State.label, State.halved, sameStart, isLeft, isRight]

/-- The labels, counts and lists of a state after a split. -/
private theorem represents_splitHead {state next : State} {pool : Pool} {h pos : Nat}
    {rest : List Nat} (valid : pool.Valid) (represents : Represents state pool none)
    (head : pool.free (h + 1) = pos :: rest) (rankNum : next.rankNum = state.rankNum)
    (lists : FreeLists next pool.height (pool.splitHead h).free)
    (count : next.count = Function.update
      (Function.update state.count (h + 2) (u32 (state.count (h + 2) - 1)))
      (h + 1) (u32 (state.count (h + 1) + 2)))
    (label : ∀ page, next.label page =
      if page = (⟨h, 2 * pos⟩ : DyadicBlock).start then
        (.unused, h + 1, treeIndex pool.height ⟨h, 2 * pos⟩)
      else if page = (⟨h, 2 * pos + 1⟩ : DyadicBlock).start then
        (.unused, h + 1, treeIndex pool.height ⟨h, 2 * pos⟩ + 1)
      else state.label page) :
    Represents next (pool.splitHead h) none := by
  have whole : (⟨h + 1, pos⟩ : DyadicBlock) ∈ pool.blocks := .inl (by simp [head])
  have low : h + 1 ≤ pool.height := (valid.inside whole).1
  have halves := valid.splitHead head
  obtain ⟨leftFresh, rightFresh⟩ := valid.halves_notMem head
  obtain ⟨freeLow, freeHigh, freeOther⟩ := Pool.free_splitHead head
  have freeIff := Pool.mem_free_splitHead head (valid.freeNodup _)
  have left : (⟨h, 2 * pos⟩ : DyadicBlock) ∈ (pool.splitHead h).blocks := .inl (by simp [freeLow])
  have right : (⟨h, 2 * pos + 1⟩ : DyadicBlock) ∈ (pool.splitHead h).blocks :=
    .inl (by simp [freeLow])
  have apart : (⟨h, 2 * pos + 1⟩ : DyadicBlock).start ≠ (⟨h, 2 * pos⟩ : DyadicBlock).start :=
    halves.start_ne right left (by simp)
  have sameStart : (⟨h + 1, pos⟩ : DyadicBlock).start = (⟨h, 2 * pos⟩ : DyadicBlock).start := by
    simp only [DyadicBlock.start, pow_succ]
    ring
  -- a block of the old pool that was not cut keeps its record
  have kept : ∀ other ∈ (pool.splitHead h).blocks, other ∈ pool.blocks →
      next.label other.start = state.label other.start := by
    intro other member old
    have notLeft := halves.start_ne member left fun same => leftFresh (same ▸ old)
    have notRight := halves.start_ne member right fun same => rightFresh (same ▸ old)
    rw [label, if_neg notLeft, if_neg notRight]
  constructor
  case small =>
    rw [Pool.height_splitHead]
    exact represents.small
  case rankNum =>
    rw [Pool.height_splitHead]
    exact rankNum.trans represents.rankNum
  case lists =>
    rw [Pool.height_splitHead]
    exact lists
  case counts =>
    intro other bound
    rw [Pool.height_splitHead] at bound
    have lowCount := represents.counts h (by omega)
    have highCount := represents.counts (h + 1) low
    have lowSmall := represents.count_lt valid h
    have highSmall := represents.count_lt valid (h + 1)
    rw [head, List.length_cons] at highCount highSmall
    by_cases isLow : other = h
    · subst isLow
      rw [count, Function.update_self, freeLow, lowCount]
      exact u32_eq _ rfl (by simp only [List.length_cons]; omega)
    · by_cases isHigh : other = h + 1
      · subst isHigh
        rw [count, Function.update_of_ne (by omega), Function.update_self, freeHigh, highCount]
        exact u32_eq _ (by omega) (by omega)
      · rw [count, Function.update_of_ne (by omega), Function.update_of_ne (by omega),
          freeOther other isLow isHigh]
        exact represents.counts other bound
  case unused =>
    intro block member
    rw [Pool.height_splitHead]
    rcases (freeIff block).mp member with isLeft | isRight | ⟨old, _⟩
    · subst isLeft
      rw [label, if_pos rfl]
    · subst isRight
      rw [label, if_neg apart, if_pos rfl, treeIndex_succ]
    · rw [kept block (.inl member) (.inl old)]
      exact represents.unused block old
  case used =>
    intro block member notHand
    rw [Pool.height_splitHead]
    have old : block ∈ pool.live := by simpa using member
    rw [kept block (.inr member) (.inr old)]
    exact represents.used block old notHand
  case undef =>
    intro page bound outside
    rw [Pool.height_splitHead] at bound
    have notLeft : page ≠ (⟨h, 2 * pos⟩ : DyadicBlock).start := (outside _ left).symm
    rw [label, if_neg notLeft, if_neg (outside _ right).symm]
    apply represents.undef page bound
    intro block member start
    by_cases isWhole : block = ⟨h + 1, pos⟩
    · subst isWhole
      exact notLeft (start.symm.trans sameStart)
    · apply outside block _ start
      rcases member with free | live
      · exact .inl ((freeIff block).mpr (.inr (.inr ⟨free, isWhole⟩)))
      · exact .inr (by simpa using live)

/-- One turn of the splitting loop cuts the first free block of its rank. -/
theorem splitTurn_represents {state : State} {pool : Pool} {h pos : Nat} {rest : List Nat}
    (valid : pool.Valid) (represents : Represents state pool none)
    (head : pool.free (h + 1) = pos :: rest) :
    ∃ popped next, listPop state (h + 2) = .ok (some (⟨h + 1, pos⟩ : DyadicBlock).start, popped) ∧
      splitBlock popped (⟨h + 1, pos⟩ : DyadicBlock).start (h + 2) = .ok next ∧
      Represents next (pool.splitHead h) none ∧ Within pool.height state next := by
  have small := represents.small
  have whole : (⟨h + 1, pos⟩ : DyadicBlock) ∈ pool.blocks := .inl (by simp [head])
  have inside := valid.inside whole
  have low : h + 1 ≤ pool.height := inside.1
  have bound : h + 1 ≤ maxRankNum := by omega
  have halves := valid.splitHead head
  obtain ⟨freeLow, freeHigh, freeOther⟩ := Pool.free_splitHead head
  have freeIff := Pool.mem_free_splitHead head (valid.freeNodup _)
  have left : (⟨h, 2 * pos⟩ : DyadicBlock) ∈ (pool.splitHead h).blocks := .inl (by simp [freeLow])
  have right : (⟨h, 2 * pos + 1⟩ : DyadicBlock) ∈ (pool.splitHead h).blocks :=
    .inl (by simp [freeLow])
  have leftInside := halves.inside left
  have rightInside := halves.inside right
  rw [Pool.height_splitHead] at leftInside rightInside
  have sameStart : (⟨h + 1, pos⟩ : DyadicBlock).start = (⟨h, 2 * pos⟩ : DyadicBlock).start := by
    simp only [DyadicBlock.start, pow_succ]
    ring
  obtain ⟨popped, pop, relinked, lists⟩ :=
    represents.lists.pop small (valid.freeNodup (h + 1)) head
  have index : (popped.metaArray (⟨h + 1, pos⟩ : DyadicBlock).start).index =
      treeIndex pool.height ⟨h + 1, pos⟩ := by
    have label := represents.unused ⟨h + 1, pos⟩ (by simp [head])
    rw [← relinked.label] at label
    exact congrArg (fun label => label.2.2) label
  have split := splitBlock_eq small (relinked.rankNum.trans represents.rankNum) inside index
  obtain ⟨leftFresh, rightFresh⟩ := valid.halves_notMem head
  have remaining : ∀ other : DyadicBlock,
      other.pos ∈ Function.update pool.free (h + 1) rest other.height →
        other.pos ∈ pool.free other.height ∧ other ≠ ⟨h + 1, pos⟩ := by
    intro other member
    have erased := @Pool.mem_update_erase pool.free ⟨h + 1, pos⟩ (valid.freeNodup _) other
    simp only [head, List.erase_cons_head] at erased
    exact erased.mp member
  have notLeft : ∀ other : DyadicBlock,
      other.pos ∈ Function.update pool.free (h + 1) rest other.height →
        other.start ≠ (⟨h, 2 * pos⟩ : DyadicBlock).start := by
    intro other member
    obtain ⟨old, different⟩ := remaining other member
    rw [← sameStart]
    exact valid.start_ne (.inl old) whole different
  have notRight : ∀ other : DyadicBlock,
      other.pos ∈ Function.update pool.free (h + 1) rest other.height →
        other.start ≠ (⟨h, 2 * pos + 1⟩ : DyadicBlock).start := by
    intro other member
    obtain ⟨old, different⟩ := remaining other member
    apply halves.start_ne (.inl ((freeIff other).mpr (.inr (.inr ⟨old, different⟩)))) right
    intro same
    exact rightFresh (same ▸ .inl old)
  have same : SamePointers (Function.update pool.free (h + 1) rest) popped
      (popped.halved h pos (treeIndex pool.height ⟨h, 2 * pos⟩)) := by
    constructor
    · rfl
    · intro other member
      have notWhole := notLeft other member
      simp [State.halved, sameStart, notWhole, notRight other member]
  obtain ⟨once, pushRight, relinkedRight, listsRight⟩ :=
    (lists.congr same).push small rightInside notRight
  obtain ⟨twice, pushLeft, relinkedLeft, listsLeft⟩ :=
    listsRight.push small leftInside (by
      intro other member
      rcases (Pool.mem_update_cons _ ⟨h, 2 * pos + 1⟩ other).mp member with new | old
      · rw [new]
        apply halves.start_ne right left
        simp
      · exact notLeft other old)
  have counts : twice.count = (popped.halved h pos (treeIndex pool.height ⟨h, 2 * pos⟩)).count :=
    relinkedLeft.count.trans relinkedRight.count
  have labels : ∀ page, twice.label page =
      (popped.halved h pos (treeIndex pool.height ⟨h, 2 * pos⟩)).label page := by
    intro page
    rw [relinkedLeft.label, relinkedRight.label]
  refine ⟨popped, { twice with
    count := Function.update twice.count (h + 1) (u32 (twice.count (h + 1) + 2)) }, pop, ?_, ?_, ?_⟩
  · rw [split, pushRight, ok_bind, pushLeft, ok_bind, State.getCount_eq _ bound, ok_bind,
      State.setCount_eq _ bound]
  · refine represents_splitHead valid represents head ?_ ?_ ?_ ?_
    · exact (relinkedLeft.rankNum.trans relinkedRight.rankNum).trans relinked.rankNum
    · have same : (pool.splitHead h).free = Function.update
          (Function.update (Function.update pool.free (h + 1) rest) h
            ((2 * pos + 1) :: pool.free h)) h
          (2 * pos :: (2 * pos + 1) :: pool.free h) := by
        rw [Pool.splitHead_of_cons head, Function.update_idem]
      rw [same]
      simp only [Function.update_self, ne_eq, Nat.left_eq_add, one_ne_zero, not_false_eq_true,
        Function.update_of_ne] at listsLeft
      exact listsLeft.congr ⟨rfl, fun _ _ => ⟨rfl, rfl⟩⟩
    · simp [counts, State.halved, relinked.count]
    · intro page
      exact (labels page).trans (by rw [label_halved, relinked.label])
  · have halved : Within pool.height popped
        (popped.halved h pos (treeIndex pool.height ⟨h, 2 * pos⟩)) :=
      ((Within.refl pool.height popped).setCount low _).setMeta _ fun page past => by
        have leftBound := leftInside.start_lt
        have rightBound := rightInside.start_lt
        refine (label_halved popped h pos _ page).trans ?_
        rw [if_neg (by omega), if_neg (by omega)]
        rfl
    have pushed := ((relinked.within low).trans halved).trans
      ((relinkedRight.within rightInside.1).trans (relinkedLeft.within leftInside.1))
    exact pushed.setCount (by omega) _

end OsPractices.Buddy
