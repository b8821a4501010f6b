import Mathlib.Data.Set.Insert
import Mathlib.Data.Set.Basic
import Mathlib.Tactic.Positivity
import Mathlib.Tactic.Ring

/-!
# Dyadic blocks and tilings

A dyadic block of height `h` at position `k` covers the cells `x` with
`x / 2 ^ h = k`, so size and alignment are the same power of two and two blocks
nest or are disjoint. A tiling cuts the first `2 ^ n` cells into such blocks.
-/

set_option autoImplicit false

namespace OsPractices.Library

structure DyadicBlock where
  height : Nat
  pos : Nat
  deriving DecidableEq, Repr

namespace DyadicBlock

def Covers (block : DyadicBlock) (cell : Nat) : Prop :=
  cell / 2 ^ block.height = block.pos

instance (block : DyadicBlock) (cell : Nat) : Decidable (block.Covers cell) :=
  inferInstanceAs (Decidable (_ = _))

/-- The first cell. -/
def start (block : DyadicBlock) : Nat := block.pos * 2 ^ block.height

/-- Within the first `2 ^ n` cells. -/
def Inside (block : DyadicBlock) (n : Nat) : Prop :=
  block.height ≤ n ∧ block.pos < 2 ^ (n - block.height)

def parent (block : DyadicBlock) : DyadicBlock := ⟨block.height + 1, block.pos / 2⟩

def buddy (block : DyadicBlock) : DyadicBlock :=
  ⟨block.height, if block.pos % 2 = 0 then block.pos + 1 else block.pos - 1⟩

def Overlaps (left right : DyadicBlock) : Prop :=
  ∃ cell, left.Covers cell ∧ right.Covers cell

@[simp] theorem height_parent (block : DyadicBlock) : block.parent.height = block.height + 1 := rfl

@[simp] theorem height_buddy (block : DyadicBlock) : block.buddy.height = block.height := rfl

theorem pos_parent (block : DyadicBlock) : block.parent.pos = block.pos / 2 := rfl

theorem pos_buddy (block : DyadicBlock) :
    block.buddy.pos = if block.pos % 2 = 0 then block.pos + 1 else block.pos - 1 := rfl

theorem covers_start (block : DyadicBlock) : block.Covers block.start :=
  Nat.mul_div_cancel _ (by positivity)

theorem covers_iff {block : DyadicBlock} {cell : Nat} :
    block.Covers cell ↔ block.start ≤ cell ∧ cell < block.start + 2 ^ block.height := by
  unfold Covers start
  rw [Nat.div_eq_iff (by positivity)]
  have positive : 0 < 2 ^ block.height := by positivity
  omega

theorem ext_of_start {left right : DyadicBlock} (height : left.height = right.height)
    (start : left.start = right.start) : left = right := by
  obtain ⟨h, k⟩ := left
  obtain ⟨h', k'⟩ := right
  obtain rfl : h = h' := height
  have positive : 0 < 2 ^ h := by positivity
  obtain rfl : k = k' := Nat.eq_of_mul_eq_mul_right positive start
  rfl

theorem ext_of_covers {left right : DyadicBlock} {cell : Nat} (height : left.height = right.height)
    (inLeft : left.Covers cell) (inRight : right.Covers cell) : left = right := by
  obtain ⟨h, k⟩ := left
  obtain ⟨h', k'⟩ := right
  obtain rfl : h = h' := height
  obtain rfl : k = k' := Eq.trans (Eq.symm inLeft) inRight
  rfl

@[simp] theorem buddy_buddy (block : DyadicBlock) : block.buddy.buddy = block := by
  obtain ⟨h, k⟩ := block
  simp only [buddy, mk.injEq, true_and]
  split <;> split <;> omega

theorem buddy_ne (block : DyadicBlock) : block.buddy ≠ block := by
  intro same
  have := congrArg DyadicBlock.pos same
  rw [pos_buddy] at this
  split at this <;> omega

@[simp] theorem parent_buddy (block : DyadicBlock) : block.buddy.parent = block.parent := by
  obtain ⟨h, k⟩ := block
  simp only [buddy, parent, mk.injEq, true_and]
  split <;> omega

theorem covers_parent_iff {block : DyadicBlock} {cell : Nat} :
    block.parent.Covers cell ↔ block.Covers cell ∨ block.buddy.Covers cell := by
  simp only [Covers, height_parent, pos_parent, height_buddy, pos_buddy, pow_succ,
    ← Nat.div_div_eq_div_mul]
  split <;> omega

theorem not_covers_buddy {block : DyadicBlock} {cell : Nat} (covers : block.Covers cell) :
    ¬ block.buddy.Covers cell :=
  fun other => block.buddy_ne (ext_of_covers rfl other covers)

/-- Of two blocks that share a cell the taller one contains the other. -/
theorem covers_of_le (low high : DyadicBlock) {shared cell : Nat} (le : low.height ≤ high.height)
    (inLow : low.Covers shared) (inHigh : high.Covers shared) (covers : low.Covers cell) :
    high.Covers cell := by
  obtain ⟨gap, gapEq⟩ := Nat.exists_eq_add_of_le le
  unfold Covers at *
  rw [gapEq, pow_add, ← Nat.div_div_eq_div_mul] at inHigh ⊢
  rw [covers, ← inLow]
  exact inHigh

theorem Overlaps.symm {left right : DyadicBlock} (overlaps : left.Overlaps right) :
    right.Overlaps left := by
  obtain ⟨cell, inLeft, inRight⟩ := overlaps
  exact ⟨cell, inRight, inLeft⟩

theorem Inside.end_le {block : DyadicBlock} {n : Nat} (inside : block.Inside n) :
    block.start + 2 ^ block.height ≤ 2 ^ n := by
  obtain ⟨low, bound⟩ := inside
  calc block.start + 2 ^ block.height
      = (block.pos + 1) * 2 ^ block.height := by unfold start; ring
    _ ≤ 2 ^ (n - block.height) * 2 ^ block.height := Nat.mul_le_mul_right _ bound
    _ = 2 ^ n := by rw [← pow_add, Nat.sub_add_cancel low]

theorem Inside.lt_of_covers {block : DyadicBlock} {n cell : Nat} (inside : block.Inside n)
    (covers : block.Covers cell) : cell < 2 ^ n := by
  have := inside.end_le
  have := (covers_iff.mp covers).2
  omega

theorem Inside.start_lt {block : DyadicBlock} {n : Nat} (inside : block.Inside n) :
    block.start < 2 ^ n :=
  inside.lt_of_covers block.covers_start

private theorem two_pow_gap {height n : Nat} (below : height < n) :
    2 ^ (n - height) = 2 * 2 ^ (n - (height + 1)) := by
  rw [← pow_succ', show n - (height + 1) + 1 = n - height by omega]

theorem Inside.parent {block : DyadicBlock} {n : Nat} (inside : block.Inside n)
    (below : block.height < n) : block.parent.Inside n := by
  have bound := inside.2
  rw [two_pow_gap below] at bound
  exact ⟨below, by simp only [pos_parent, height_parent]; omega⟩

theorem Inside.buddy {block : DyadicBlock} {n : Nat} (inside : block.Inside n)
    (below : block.height < n) : block.buddy.Inside n := by
  have bound := inside.2
  rw [two_pow_gap below] at bound
  refine ⟨inside.1, ?_⟩
  rw [height_buddy, two_pow_gap below, pos_buddy]
  split <;> omega

theorem Inside.of_parent {block : DyadicBlock} {n : Nat} (inside : block.parent.Inside n) :
    block.Inside n := by
  obtain ⟨below, bound⟩ := inside
  simp only [height_parent, pos_parent] at below bound
  have gap := two_pow_gap (show block.height < n by omega)
  exact ⟨by omega, by omega⟩

/-- The only block as tall as the region is the region. -/
theorem Inside.eq_whole {block : DyadicBlock} {n : Nat} (inside : block.Inside n)
    (whole : block.height = n) : block = ⟨n, 0⟩ := by
  obtain ⟨h, k⟩ := block
  obtain rfl : h = n := whole
  have bound := inside.2
  simp only [Nat.sub_self, pow_zero] at bound
  obtain rfl : k = 0 := by omega
  rfl

end DyadicBlock

open DyadicBlock

/-- `blocks` cut the first `2 ^ n` cells into pairwise disjoint pieces. -/
structure Tiles (n : Nat) (blocks : Set DyadicBlock) : Prop where
  inside : ∀ block ∈ blocks, block.Inside n
  cover : ∀ cell < 2 ^ n, ∃ block ∈ blocks, block.Covers cell
  apart : ∀ left ∈ blocks, ∀ right ∈ blocks, left.Overlaps right → left = right

namespace Tiles

variable {n : Nat} {blocks : Set DyadicBlock}

theorem whole (n : Nat) : Tiles n {⟨n, 0⟩} where
  inside block member := by
    obtain rfl : block = ⟨n, 0⟩ := member
    exact ⟨Nat.le_refl n, by positivity⟩
  cover cell bound := ⟨⟨n, 0⟩, rfl, Nat.div_eq_of_lt bound⟩
  apart left inLeft right inRight _ := by
    obtain rfl : left = ⟨n, 0⟩ := inLeft
    obtain rfl : right = ⟨n, 0⟩ := inRight
    rfl

theorem eq_of_start (tiles : Tiles n blocks) {left right : DyadicBlock} (inLeft : left ∈ blocks)
    (inRight : right ∈ blocks) (start : left.start = right.start) : left = right :=
  tiles.apart left inLeft right inRight
    ⟨left.start, left.covers_start, start ▸ right.covers_start⟩

/-- Two tiles of one tiling that are buddies may be replaced by their parent. -/
theorem merge (tiles : Tiles n blocks) {block : DyadicBlock} (member : block ∈ blocks)
    (buddyMember : block.buddy ∈ blocks) (below : block.height < n) :
    Tiles n (insert block.parent (blocks \ {block, block.buddy})) where
  inside other := by
    rintro (rfl | ⟨inBlocks, -⟩)
    · exact (tiles.inside _ member).parent below
    · exact tiles.inside _ inBlocks
  cover cell bound := by
    obtain ⟨other, inBlocks, covers⟩ := tiles.cover cell bound
    by_cases merged : other = block ∨ other = block.buddy
    · refine ⟨block.parent, .inl rfl, covers_parent_iff.mpr ?_⟩
      rcases merged with rfl | rfl
      · exact .inl covers
      · exact .inr covers
    · exact ⟨other, .inr ⟨inBlocks, by simpa using merged⟩, covers⟩
  apart := by
    have outside : ∀ other ∈ blocks \ {block, block.buddy}, ¬ other.Overlaps block.parent := by
      rintro other ⟨inBlocks, notMerged⟩ ⟨cell, inOther, inParent⟩
      refine notMerged ?_
      rcases covers_parent_iff.mp inParent with covers | covers
      · exact .inl (tiles.apart _ inBlocks _ member ⟨cell, inOther, covers⟩)
      · exact .inr (tiles.apart _ inBlocks _ buddyMember ⟨cell, inOther, covers⟩)
    rintro left (rfl | inLeft) right (rfl | inRight) overlaps
    · rfl
    · exact absurd overlaps.symm (outside right inRight)
    · exact absurd overlaps (outside left inLeft)
    · exact tiles.apart _ inLeft.1 _ inRight.1 overlaps

/-- A tile may be replaced by its two halves. -/
theorem split (tiles : Tiles n blocks) {half : DyadicBlock} (member : half.parent ∈ blocks) :
    Tiles n (insert half (insert half.buddy (blocks \ {half.parent}))) where
  inside other := by
    have halfInside := (tiles.inside _ member).of_parent
    rintro (rfl | rfl | ⟨inBlocks, -⟩)
    · exact halfInside
    · exact halfInside.buddy (tiles.inside _ member).1
    · exact tiles.inside _ inBlocks
  cover cell bound := by
    obtain ⟨other, inBlocks, covers⟩ := tiles.cover cell bound
    by_cases cut : other = half.parent
    · subst cut
      rcases covers_parent_iff.mp covers with covers | covers
      · exact ⟨half, .inl rfl, covers⟩
      · exact ⟨half.buddy, .inr (.inl rfl), covers⟩
    · exact ⟨other, .inr (.inr ⟨inBlocks, cut⟩), covers⟩
  apart := by
    have outside : ∀ other ∈ blocks \ {half.parent}, ∀ piece : DyadicBlock,
        piece.parent = half.parent → ¬ other.Overlaps piece := by
      rintro other ⟨inBlocks, notCut⟩ piece family ⟨cell, inOther, inPiece⟩
      refine notCut (tiles.apart _ inBlocks _ member ⟨cell, inOther, ?_⟩)
      exact family ▸ covers_parent_iff.mpr (.inl inPiece)
    have halves : ¬ half.Overlaps half.buddy := fun ⟨_, inHalf, inBuddy⟩ =>
      not_covers_buddy inHalf inBuddy
    rintro left (rfl | rfl | inLeft) right (rfl | rfl | inRight) overlaps
    · rfl
    · exact absurd overlaps halves
    · exact absurd overlaps.symm (outside right inRight _ rfl)
    · exact absurd overlaps.symm halves
    · rfl
    · exact absurd overlaps.symm (outside right inRight _ (parent_buddy _))
    · exact absurd overlaps (outside left inLeft _ rfl)
    · exact absurd overlaps (outside left inLeft _ (parent_buddy _))
    · exact tiles.apart _ inLeft.1 _ inRight.1 overlaps

/-- If the buddy of every free tile meets a busy one, then the free tiles are
exactly the maximal blocks that meet no busy tile. -/
theorem free_iff_maximal (tiles : Tiles n blocks) {Busy : DyadicBlock → Prop}
    (merged : ∀ tile ∈ blocks, ¬ Busy tile → tile.height < n →
      ∃ busy ∈ blocks, Busy busy ∧ busy.Overlaps tile.buddy)
    {block : DyadicBlock} (inside : block.Inside n) :
    (block ∈ blocks ∧ ¬ Busy block) ↔
      (∀ busy ∈ blocks, Busy busy → ¬ busy.Overlaps block) ∧
        (block.height = n ∨ ∃ busy ∈ blocks, Busy busy ∧ busy.Overlaps block.buddy) := by
  constructor
  · rintro ⟨member, free⟩
    refine ⟨fun busy inBlocks isBusy overlaps => ?_, ?_⟩
    · exact free (tiles.apart _ inBlocks _ member overlaps ▸ isBusy)
    · rcases inside.1.eq_or_lt with whole | below
      · exact .inl whole
      · exact .inr (merged block member free below)
  · rintro ⟨clear, maximal⟩
    obtain ⟨tile, inBlocks, covers⟩ := tiles.cover _ inside.start_lt
    have tileFree : ¬ Busy tile := fun isBusy =>
      clear tile inBlocks isBusy ⟨_, covers, block.covers_start⟩
    rcases lt_trichotomy tile.height block.height with lower | same | higher
    · -- a smaller free tile has a busy cell in its buddy, which lies in `block` too
      obtain ⟨busy, busyMember, isBusy, cell, inBusy, inBuddy⟩ :=
        merged tile inBlocks tileFree (lower.trans_le inside.1)
      refine absurd ⟨cell, inBusy, ?_⟩ (clear busy busyMember isBusy)
      exact covers_of_le tile.parent block lower (covers_parent_iff.mpr (.inl covers))
        block.covers_start (covers_parent_iff.mpr (.inr inBuddy))
    · obtain rfl : tile = block := ext_of_covers same covers block.covers_start
      exact ⟨inBlocks, tileFree⟩
    · -- a larger free tile contains the buddy of `block`, where a busy tile lies
      rcases maximal with whole | ⟨busy, busyMember, isBusy, cell, inBusy, inBuddy⟩
      · exact absurd (tiles.inside _ inBlocks).1 (by omega)
      · have inTile : tile.Covers cell :=
          covers_of_le block.parent tile higher
            (covers_parent_iff.mpr (.inl block.covers_start)) covers
            (covers_parent_iff.mpr (.inr inBuddy))
        have same := tiles.apart _ busyMember _ inBlocks ⟨cell, inBusy, inTile⟩
        exact absurd (same ▸ isBusy) tileFree

end Tiles

end OsPractices.Library
