import Mathlib.Data.List.Nodup
import OsPractices.Library.Dyadic

/-!
# What a buddy allocator is for

A pool cuts the first `2 ^ height` pages into dyadic blocks, each free or live.
A free block is named by its position in the list of its height, so the lists
hold blocks of the right size by construction. The order of the lists is part
of the pool: it fixes which block the next allocation takes.
-/

set_option autoImplicit false

namespace OsPractices.Buddy

open Library

structure Pool where
  height : Nat
  free : Nat → List Nat
  live : List DyadicBlock

namespace Pool

def blocks (pool : Pool) : Set DyadicBlock :=
  {block | block.pos ∈ pool.free block.height ∨ block ∈ pool.live}

structure Valid (pool : Pool) : Prop where
  tiles : Tiles pool.height pool.blocks
  freeNodup : ∀ height, (pool.free height).Nodup
  liveNodup : pool.live.Nodup
  apart : ∀ block ∈ pool.live, block.pos ∉ pool.free block.height

/-- Merging is complete: what is next to a free block is not free as a whole. -/
def Canonical (pool : Pool) : Prop :=
  ∀ block : DyadicBlock, block.pos ∈ pool.free block.height → block.height < pool.height →
    ∃ busy ∈ pool.live, busy.Overlaps block.buddy

def initial (height : Nat) : Pool where
  height := height
  free := fun h => if h = height then [0] else []
  live := []

/-- Cut the first free block of height `height + 1` into its halves. -/
def splitHead (pool : Pool) (height : Nat) : Pool :=
  match pool.free (height + 1) with
  | [] => pool
  | pos :: rest =>
      { pool with
        free := Function.update (Function.update pool.free (height + 1) rest) height
          (2 * pos :: (2 * pos + 1) :: pool.free height) }

def splitDown (pool : Pool) (height : Nat) : Nat → Pool
  | 0 => pool
  | gap + 1 => (pool.splitHead (height + gap)).splitDown height gap

def takeHead (pool : Pool) (height : Nat) : Option (DyadicBlock × Pool) :=
  match pool.free height with
  | [] => none
  | pos :: rest =>
      some (⟨height, pos⟩,
        { pool with
          free := Function.update pool.free height rest
          live := pool.live ++ [⟨height, pos⟩] })

/-- The least height from `height` on with a free block. -/
def firstFree (pool : Pool) (height : Nat) : Option Nat :=
  (List.range' height (pool.height + 1 - height)).find? fun h => pool.free h ≠ []

def alloc (pool : Pool) (height : Nat) : Option (DyadicBlock × Pool) :=
  (pool.firstFree height).bind fun first =>
    (pool.splitDown height (first - height)).takeHead height

/-- Join a block in hand, which counts as live, with its free buddy. -/
def mergeBuddy (pool : Pool) (block : DyadicBlock) : Pool :=
  { pool with
    free := Function.update pool.free block.height
      ((pool.free block.height).erase block.buddy.pos)
    live := block.parent :: pool.live.erase block }

def mergeUp : Nat → Pool → DyadicBlock → Pool × DyadicBlock
  | 0, pool, block => (pool, block)
  | fuel + 1, pool, block =>
      if block.height < pool.height ∧ block.buddy.pos ∈ pool.free block.height then
        mergeUp fuel (pool.mergeBuddy block) block.parent
      else
        (pool, block)

/-- The block in hand becomes the first free block of its height. -/
def putFree (pool : Pool) (block : DyadicBlock) : Pool :=
  { pool with
    free := Function.update pool.free block.height (block.pos :: pool.free block.height)
    live := pool.live.erase block }

def release (pool : Pool) (block : DyadicBlock) : Pool :=
  let (merged, hand) := mergeUp (pool.height - block.height) pool block
  merged.putFree hand

/-! ## Blocks -/

theorem mem_blocks {pool : Pool} {block : DyadicBlock} :
    block ∈ pool.blocks ↔ block.pos ∈ pool.free block.height ∨ block ∈ pool.live :=
  Iff.rfl

theorem Valid.mem_free_iff {pool : Pool} (valid : pool.Valid) {block : DyadicBlock} :
    block.pos ∈ pool.free block.height ↔ block ∈ pool.blocks ∧ block ∉ pool.live := by
  constructor
  · intro free
    exact ⟨.inl free, fun live => valid.apart block live free⟩
  · intro member
    exact member.1.resolve_right member.2

theorem Valid.inside {pool : Pool} (valid : pool.Valid) {block : DyadicBlock}
    (member : block ∈ pool.blocks) : block.Inside pool.height :=
  valid.tiles.inside block member

/-- A block and one of its halves are never both present. -/
theorem Valid.half_notMem {pool : Pool} (valid : pool.Valid) {block : DyadicBlock}
    (parent : block.parent ∈ pool.blocks) : block ∉ pool.blocks := by
  intro member
  have overlaps : block.Overlaps block.parent :=
    ⟨block.start, block.covers_start,
      DyadicBlock.covers_parent_iff.mpr (.inl block.covers_start)⟩
  have same := congrArg DyadicBlock.height
    (valid.tiles.apart block member block.parent parent overlaps)
  simp at same

theorem Valid.parent_notMem {pool : Pool} (valid : pool.Valid) {block : DyadicBlock}
    (member : block ∈ pool.blocks) : block.parent ∉ pool.blocks :=
  fun parent => valid.half_notMem parent member

theorem Valid.initial (height : Nat) : (Pool.initial height).Valid where
  tiles := by
    have same : (Pool.initial height).blocks = {⟨height, 0⟩} := by
      ext ⟨h, k⟩
      by_cases whole : h = height <;> simp [Pool.blocks, Pool.initial, whole]
    rw [same]
    exact Tiles.whole height
  freeNodup := by
    intro h
    by_cases whole : h = height <;> simp [Pool.initial, whole]
  liveNodup := List.nodup_nil
  apart := by
    intro block member
    simp [Pool.initial] at member

/-! ## Allocation keeps the pool valid -/

theorem splitHead_of_cons {pool : Pool} {height pos : Nat} {rest : List Nat}
    (head : pool.free (height + 1) = pos :: rest) :
    pool.splitHead height =
      { pool with
        free := Function.update (Function.update pool.free (height + 1) rest) height
          (2 * pos :: (2 * pos + 1) :: pool.free height) } := by
  simp [splitHead, head]

@[simp] theorem height_splitHead (pool : Pool) (height : Nat) :
    (pool.splitHead height).height = pool.height := by
  unfold splitHead
  split <;> rfl

@[simp] theorem live_splitHead (pool : Pool) (height : Nat) :
    (pool.splitHead height).live = pool.live := by
  unfold splitHead
  split <;> rfl

theorem free_splitHead {pool : Pool} {height pos : Nat} {rest : List Nat}
    (head : pool.free (height + 1) = pos :: rest) :
    (pool.splitHead height).free height = 2 * pos :: (2 * pos + 1) :: pool.free height ∧
      (pool.splitHead height).free (height + 1) = rest ∧
      ∀ other, other ≠ height → other ≠ height + 1 →
        (pool.splitHead height).free other = pool.free other := by
  rw [splitHead_of_cons head]
  refine ⟨by simp, by simp, ?_⟩
  intro other notLow notHigh
  simp [notLow, notHigh]

theorem left_parent (height pos : Nat) :
    DyadicBlock.parent ⟨height, 2 * pos⟩ = ⟨height + 1, pos⟩ := by
  simp [DyadicBlock.parent]

theorem left_buddy (height pos : Nat) :
    DyadicBlock.buddy ⟨height, 2 * pos⟩ = ⟨height, 2 * pos + 1⟩ := by
  simp [DyadicBlock.buddy]

theorem mem_free_splitHead {pool : Pool} {height pos : Nat} {rest : List Nat}
    (head : pool.free (height + 1) = pos :: rest) (nodup : (pool.free (height + 1)).Nodup)
    (block : DyadicBlock) :
    block.pos ∈ (pool.splitHead height).free block.height ↔
      block = ⟨height, 2 * pos⟩ ∨ block = ⟨height, 2 * pos + 1⟩ ∨
        (block.pos ∈ pool.free block.height ∧ block ≠ ⟨height + 1, pos⟩) := by
  obtain ⟨low, high, others⟩ := free_splitHead head
  obtain ⟨h, k⟩ := block
  rw [head] at nodup
  have fresh := (List.nodup_cons.mp nodup).1
  by_cases isLow : h = height
  · subst isLow
    simp [low]
  · by_cases isHigh : h = height + 1
    · subst isHigh
      simp only [high, head, List.mem_cons, ne_eq, DyadicBlock.mk.injEq, true_and]
      constructor
      · intro member
        exact .inr (.inr ⟨.inr member, fun same => fresh (same ▸ member)⟩)
      · intro cases
        rcases cases with left | right | ⟨member, different⟩
        · omega
        · omega
        · exact member.resolve_left different
    · simp [others h isLow isHigh, isLow, isHigh]

theorem Valid.halves_notMem {pool : Pool} (valid : pool.Valid) {height pos : Nat}
    {rest : List Nat} (head : pool.free (height + 1) = pos :: rest) :
    (⟨height, 2 * pos⟩ : DyadicBlock) ∉ pool.blocks ∧
      (⟨height, 2 * pos + 1⟩ : DyadicBlock) ∉ pool.blocks := by
  have member : (⟨height + 1, pos⟩ : DyadicBlock) ∈ pool.blocks := .inl (by simp [head])
  constructor
  · apply valid.half_notMem
    rw [left_parent]
    exact member
  · apply valid.half_notMem
    rw [← left_buddy, DyadicBlock.parent_buddy, left_parent]
    exact member

theorem Valid.splitHead {pool : Pool} (valid : pool.Valid) {height pos : Nat}
    {rest : List Nat} (head : pool.free (height + 1) = pos :: rest) :
    (pool.splitHead height).Valid := by
  have member : (⟨height + 1, pos⟩ : DyadicBlock) ∈ pool.blocks := .inl (by simp [head])
  have notLive : (⟨height + 1, pos⟩ : DyadicBlock) ∉ pool.live :=
    (valid.mem_free_iff.mp (by simp [head] : _ ∈ pool.free _)).2
  have freeIff := mem_free_splitHead head (valid.freeNodup _)
  obtain ⟨leftFresh, rightFresh⟩ := valid.halves_notMem head
  constructor
  · have same : (pool.splitHead height).blocks =
        insert ⟨height, 2 * pos⟩ (insert (DyadicBlock.buddy ⟨height, 2 * pos⟩)
          (pool.blocks \ {DyadicBlock.parent ⟨height, 2 * pos⟩})) := by
      ext block
      rw [mem_blocks, freeIff, left_buddy, left_parent, live_splitHead]
      simp only [Set.mem_insert_iff, Set.mem_sdiff, Set.mem_singleton_iff, mem_blocks]
      by_cases cut : block = ⟨height + 1, pos⟩
      · subst cut
        simp [notLive]
      · simp [cut, or_assoc]
    rw [same, height_splitHead]
    exact valid.tiles.split (by rw [left_parent]; exact member)
  · intro h
    obtain ⟨low, high, others⟩ := free_splitHead head
    by_cases isLow : h = height
    · subst isLow
      rw [low]
      refine List.nodup_cons.mpr ⟨?_, List.nodup_cons.mpr ⟨?_, valid.freeNodup _⟩⟩
      · intro twice
        rcases List.mem_cons.mp twice with same | inFree
        · omega
        · exact leftFresh (.inl inFree)
      · intro inFree
        exact rightFresh (.inl inFree)
    · by_cases isHigh : h = height + 1
      · subst isHigh
        have nodup := valid.freeNodup (height + 1)
        rw [head] at nodup
        rw [high]
        exact (List.nodup_cons.mp nodup).2
      · rw [others h isLow isHigh]
        exact valid.freeNodup h
  · rw [live_splitHead]
    exact valid.liveNodup
  · intro block live free
    rw [live_splitHead] at live
    rcases (freeIff block).mp free with left | right | ⟨old, -⟩
    · exact leftFresh (left ▸ .inr live)
    · exact rightFresh (right ▸ .inr live)
    · exact valid.apart block live old

/-- Taking one block off its list leaves every other free block. -/
theorem mem_update_erase {free : Nat → List Nat} {taken : DyadicBlock}
    (nodup : (free taken.height).Nodup) (block : DyadicBlock) :
    block.pos ∈ Function.update free taken.height
        ((free taken.height).erase taken.pos) block.height ↔
      block.pos ∈ free block.height ∧ block ≠ taken := by
  obtain ⟨h, k⟩ := block
  obtain ⟨height, pos⟩ := taken
  by_cases same : h = height
  · subst same
    simp only [Function.update_self, nodup.mem_erase_iff, ne_eq, DyadicBlock.mk.injEq, true_and]
    exact and_comm
  · simp [same]

/-- Putting one block on its list keeps every other free block. -/
theorem mem_update_cons (free : Nat → List Nat) (added block : DyadicBlock) :
    block.pos ∈ Function.update free added.height
        (added.pos :: free added.height) block.height ↔
      block = added ∨ block.pos ∈ free block.height := by
  obtain ⟨h, k⟩ := block
  obtain ⟨height, pos⟩ := added
  by_cases same : h = height
  · subst same
    simp
  · simp [same]

theorem takeHead_eq_some_iff {pool next : Pool} {height : Nat} {block : DyadicBlock} :
    pool.takeHead height = some (block, next) ↔
      ∃ pos rest, pool.free height = pos :: rest ∧ block = ⟨height, pos⟩ ∧
        next = { pool with
          free := Function.update pool.free height rest
          live := pool.live ++ [⟨height, pos⟩] } := by
  unfold takeHead
  cases pool.free height with
  | nil => simp
  | cons pos rest =>
      constructor
      · intro result
        cases result
        exact ⟨pos, rest, rfl, rfl, rfl⟩
      · intro shape
        obtain ⟨pos', rest', same, rfl, rfl⟩ := shape
        cases same
        rfl

theorem Valid.takeHead {pool next : Pool} (valid : pool.Valid) {height : Nat}
    {block : DyadicBlock} (result : pool.takeHead height = some (block, next)) :
    next.Valid := by
  obtain ⟨pos, rest, head, rfl, rfl⟩ := takeHead_eq_some_iff.mp result
  have nodup := valid.freeNodup height
  rw [head] at nodup
  obtain ⟨fresh, restNodup⟩ := List.nodup_cons.mp nodup
  have notLive : (⟨height, pos⟩ : DyadicBlock) ∉ pool.live :=
    (valid.mem_free_iff.mp (by simp [head] : _ ∈ pool.free _)).2
  have freeIff := @mem_update_erase pool.free ⟨height, pos⟩ (valid.freeNodup height)
  simp only [head, List.erase_cons_head] at freeIff
  constructor
  · have same : ({ pool with
        free := Function.update pool.free height rest
        live := pool.live ++ [⟨height, pos⟩] } : Pool).blocks = pool.blocks := by
      ext block
      simp only [mem_blocks, freeIff, List.mem_append, List.mem_singleton]
      by_cases taken : block = ⟨height, pos⟩
      · subst taken
        simp [head]
      · simp [taken]
    rw [same]
    exact valid.tiles
  · intro h
    by_cases same : h = height
    · subst same
      simpa using restNodup
    · simpa [same] using valid.freeNodup h
  · exact List.nodup_append.mpr ⟨valid.liveNodup, by simp, by
      intro left inLive right inTaken equal
      rw [List.mem_singleton] at inTaken
      exact notLive (inTaken ▸ equal ▸ inLive)⟩
  · intro block live free
    obtain ⟨old, different⟩ := (freeIff block).mp free
    rcases List.mem_append.mp live with inLive | taken
    · exact valid.apart block inLive old
    · exact different (by simpa using taken)

/-! ## Release keeps the pool valid -/

theorem Valid.mergeBuddy {pool : Pool} (valid : pool.Valid) {block : DyadicBlock}
    (live : block ∈ pool.live) (below : block.height < pool.height)
    (buddyFree : block.buddy.pos ∈ pool.free block.height) :
    (pool.mergeBuddy block).Valid := by
  have member : block ∈ pool.blocks := .inr live
  have buddyMember : block.buddy ∈ pool.blocks := .inl buddyFree
  have parentFresh := valid.parent_notMem member
  have buddyNotLive : block.buddy ∉ pool.live := (valid.mem_free_iff.mp buddyFree).2
  have freeIff := @mem_update_erase pool.free block.buddy (valid.freeNodup _)
  constructor
  · have same : (pool.mergeBuddy block).blocks =
        insert block.parent (pool.blocks \ {block, block.buddy}) := by
      ext other
      simp only [mem_blocks, Pool.mergeBuddy, List.mem_cons, valid.liveNodup.mem_erase_iff,
        Set.mem_insert_iff, Set.mem_sdiff, Set.mem_singleton_iff, not_or]
      have freeOther := freeIff other
      simp only [DyadicBlock.height_buddy] at freeOther
      rw [freeOther]
      have notFree : other = block → other.pos ∉ pool.free other.height := by
        intro equal
        rw [equal]
        exact valid.apart block live
      have notBuddy : other ∈ pool.live → other ≠ block.buddy := by
        intro inLive equal
        exact buddyNotLive (equal ▸ inLive)
      constructor
      · intro inside
        rcases inside with ⟨inFree, notSame⟩ | isParent | ⟨different, inLive⟩
        · exact .inr ⟨.inl inFree, fun equal => notFree equal inFree, notSame⟩
        · exact .inl isParent
        · exact .inr ⟨.inr inLive, different, notBuddy inLive⟩
      · intro inside
        rcases inside with isParent | ⟨inFree | inLive, different, notSame⟩
        · exact .inr (.inl isParent)
        · exact .inl ⟨inFree, notSame⟩
        · exact .inr (.inr ⟨different, inLive⟩)
    rw [same]
    exact valid.tiles.merge member buddyMember below
  · intro h
    by_cases same : h = block.height
    · subst same
      simpa [Pool.mergeBuddy] using (valid.freeNodup _).erase _
    · simpa [Pool.mergeBuddy, same] using valid.freeNodup h
  · refine List.nodup_cons.mpr ⟨?_, valid.liveNodup.erase _⟩
    intro inLive
    exact parentFresh (.inr (List.mem_of_mem_erase inLive))
  · intro other inLive free
    have old := ((freeIff other).mp free).1
    rcases List.mem_cons.mp inLive with same | inOld
    · exact parentFresh (.inl (same ▸ old))
    · exact valid.apart other (List.mem_of_mem_erase inOld) old

theorem Valid.putFree {pool : Pool} (valid : pool.Valid) {block : DyadicBlock}
    (live : block ∈ pool.live) : (pool.putFree block).Valid := by
  have fresh := valid.apart block live
  have freeIff : ∀ other : DyadicBlock,
      other.pos ∈ (pool.putFree block).free other.height ↔
        other = block ∨ other.pos ∈ pool.free other.height :=
    mem_update_cons pool.free block
  constructor
  · have same : (pool.putFree block).blocks = pool.blocks := by
      ext other
      rw [mem_blocks, freeIff, mem_blocks]
      simp only [Pool.putFree, valid.liveNodup.mem_erase_iff]
      by_cases equal : other = block
      · simp [equal, live]
      · simp [equal]
    rw [same]
    exact valid.tiles
  · intro h
    by_cases same : h = block.height
    · subst same
      simpa [Pool.putFree] using ⟨fresh, valid.freeNodup _⟩
    · simpa [Pool.putFree, same] using valid.freeNodup h
  · exact valid.liveNodup.erase _
  · intro other inLive free
    obtain ⟨different, inOld⟩ := valid.liveNodup.mem_erase_iff.mp inLive
    rcases (freeIff other).mp free with same | old
    · exact different same
    · exact valid.apart other inOld old

@[simp] theorem height_mergeBuddy (pool : Pool) (block : DyadicBlock) :
    (pool.mergeBuddy block).height = pool.height := rfl

/-- What every turn of merging keeps, the whole of merging keeps. -/
theorem mergeUp_induct (Keeps : Pool → DyadicBlock → Prop)
    (step : ∀ pool block, Keeps pool block → block.height < pool.height →
      block.buddy.pos ∈ pool.free block.height →
      Keeps (pool.mergeBuddy block) block.parent)
    (fuel : Nat) (pool : Pool) (block : DyadicBlock) (start : Keeps pool block) :
    Keeps (mergeUp fuel pool block).1 (mergeUp fuel pool block).2 := by
  induction fuel generalizing pool block with
  | zero => exact start
  | succ fuel ih =>
      unfold mergeUp
      split
      case isTrue open_ => exact ih _ _ (step pool block start open_.1 open_.2)
      case isFalse => exact start

/-- Merging stops at a block that is the whole region or whose buddy is not
free as one block. -/
theorem mergeUp_stops (pool : Pool) (block : DyadicBlock) (fuel : Nat)
    (enough : pool.height - block.height ≤ fuel) :
    (mergeUp fuel pool block).2.height < (mergeUp fuel pool block).1.height →
      (mergeUp fuel pool block).2.buddy.pos ∉
        (mergeUp fuel pool block).1.free (mergeUp fuel pool block).2.height := by
  induction fuel generalizing pool block with
  | zero =>
      intro below
      simp only [mergeUp] at below
      omega
  | succ fuel ih =>
      unfold mergeUp
      split
      case isTrue =>
        refine ih _ _ ?_
        simp only [height_mergeBuddy, DyadicBlock.height_parent]
        omega
      case isFalse closed =>
        intro below free
        exact closed ⟨below, free⟩

theorem height_mergeUp (fuel : Nat) (pool : Pool) (block : DyadicBlock) :
    (mergeUp fuel pool block).1.height = pool.height :=
  mergeUp_induct (fun reached _ => reached.height = pool.height)
    (fun _ _ same _ _ => same) fuel pool block rfl

theorem live_mergeUp (fuel : Nat) (pool : Pool) (block : DyadicBlock) :
    (mergeUp fuel pool block).1.live.erase (mergeUp fuel pool block).2 =
      pool.live.erase block :=
  mergeUp_induct
    (fun reached hand => reached.live.erase hand = pool.live.erase block)
    (fun reached hand same _ _ => by simpa [Pool.mergeBuddy] using same) fuel pool block rfl

theorem Valid.mergeUp {pool : Pool} (valid : pool.Valid) {block : DyadicBlock}
    (live : block ∈ pool.live) (fuel : Nat) :
    (mergeUp fuel pool block).1.Valid ∧
      (Pool.mergeUp fuel pool block).2 ∈ (Pool.mergeUp fuel pool block).1.live :=
  mergeUp_induct (fun reached hand => reached.Valid ∧ hand ∈ reached.live)
    (fun _ _ kept below free => ⟨kept.1.mergeBuddy kept.2 below free, List.mem_cons_self⟩)
    fuel pool block ⟨valid, live⟩

theorem Valid.release {pool : Pool} (valid : pool.Valid) {block : DyadicBlock}
    (live : block ∈ pool.live) : (pool.release block).Valid := by
  obtain ⟨mergedValid, hand⟩ := valid.mergeUp live (pool.height - block.height)
  exact mergedValid.putFree hand

@[simp] theorem height_release (pool : Pool) (block : DyadicBlock) :
    (pool.release block).height = pool.height :=
  height_mergeUp _ _ _

@[simp] theorem live_release (pool : Pool) (block : DyadicBlock) :
    (pool.release block).live = pool.live.erase block :=
  live_mergeUp _ _ _

end Pool

end OsPractices.Buddy
