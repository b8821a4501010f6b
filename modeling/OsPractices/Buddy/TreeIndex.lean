import Mathlib.Data.Nat.Bitwise
import OsPractices.Buddy.Code
import OsPractices.Buddy.Pool

/-!
# Tree indices

The code names a block by its index in the complete binary tree over the region
and recomputes page numbers, parents, children and buddies from it in 32 bits.
For a region of at most `2 ^ 19` pages nothing wraps.
-/

set_option autoImplicit false

namespace OsPractices.Buddy

open Library

/-- The index of a block in the tree over `2 ^ height` pages, root first. -/
def treeIndex (height : Nat) (block : DyadicBlock) : Nat :=
  2 ^ (height - block.height) - 1 + block.pos

theorem u32_eq {value : Int} (result : Nat) (same : value = result) (bound : result < 2 ^ 32) :
    u32 value = result := by
  unfold u32
  omega

theorem u8_eq {value : Int} (result : Nat) (same : value = result) (bound : result < 2 ^ 8) :
    u8 value = result := by
  unfold u8
  omega

theorem shl_eq {value amount : Nat} (small : amount < 32) (bound : value * 2 ^ amount < 2 ^ 32) :
    shl value amount = .ok (value * 2 ^ amount) := by
  simp only [shl, small, ↓reduceIte, Nat.mod_eq_of_lt bound]

section

variable {height : Nat} {block : DyadicBlock}

theorem two_pow_le (bound : height < maxRankNum) : 2 ^ height ≤ 2 ^ 19 :=
  Nat.pow_le_pow_right (by decide) (by unfold maxRankNum at bound; omega)

theorem start_lt_maxPageNum (bound : height < maxRankNum) (inside : block.Inside height) :
    block.start < maxPageNum :=
  calc block.start < 2 ^ height := inside.start_lt
    _ ≤ 2 ^ 19 := two_pow_le bound
    _ < maxPageNum := by decide

theorem pageNum_eq {state : State} (rankNum : state.rankNum = height + 1)
    (bound : height < maxRankNum) : state.pageNum = .ok (2 ^ height) := by
  have small := two_pow_le bound
  unfold maxRankNum at bound
  rw [State.pageNum, u32_eq height (by omega) (by omega),
    shl_eq (by omega) (by omega), Nat.one_mul]

theorem blockToPage_eq {state : State} (rankNum : state.rankNum = height + 1)
    (bound : height < maxRankNum) (inside : block.Inside height) :
    blockToPage state (treeIndex height block) (block.height + 1) = .ok block.start := by
  have small := two_pow_le bound
  have low := inside.1
  have startSmall := inside.start_lt
  have leafCount : 2 ^ (height - block.height) ≤ 2 ^ height :=
    Nat.pow_le_pow_right (by decide) (by omega)
  have positive : 0 < 2 ^ (height - block.height) := by positivity
  have within := inside.2
  unfold maxRankNum at bound
  unfold DyadicBlock.start at startSmall
  rw [blockToPage, u32_eq (height - block.height) (by omega) (by omega),
    shl_eq (by omega) (by omega), ok_bind,
    u32_eq (block.pos) (by unfold treeIndex; omega) (by omega),
    u32_eq (block.height) (by omega) (by omega), shl_eq (by omega) (by omega)]
  rfl

theorem treeIndex_lt (bound : height < maxRankNum) (inside : block.Inside height) :
    treeIndex height block < 2 ^ 20 := by
  have small := two_pow_le bound
  have leafCount : 2 ^ (height - block.height) ≤ 2 ^ height :=
    Nat.pow_le_pow_right (by decide) (by omega)
  have within := inside.2
  unfold treeIndex
  omega

/-- Above the leaves' level the number of blocks is even. -/
private theorem level_eq (below : block.height < height) :
    2 ^ (height - block.height) = 2 * 2 ^ (height - (block.height + 1)) := by
  rw [← pow_succ', show height - (block.height + 1) + 1 = height - block.height by omega]

theorem xor_one (value : Nat) :
    value ^^^ 1 = if value % 2 = 0 then value + 1 else value - 1 := by
  split
  case isTrue even => exact Nat.xor_one_of_even (Nat.even_iff.mpr even)
  case isFalse odd => exact Nat.xor_one_of_odd (Nat.odd_iff.mpr (by omega))

theorem buddy_treeIndex (bound : height < maxRankNum) (inside : block.Inside height)
    (below : block.height < height) :
    buddy (treeIndex height block) = treeIndex height block.buddy := by
  have level := level_eq below
  have small := treeIndex_lt bound inside
  have positive : 0 < 2 ^ (height - (block.height + 1)) := by positivity
  have within := inside.2
  unfold treeIndex at small ⊢
  rw [level] at small within
  rw [DyadicBlock.height_buddy, DyadicBlock.pos_buddy, level]
  have before : u32 ((2 * 2 ^ (height - (block.height + 1)) - 1 + block.pos : Nat) - 1) =
      2 * 2 ^ (height - (block.height + 1)) - 1 + block.pos - 1 :=
    u32_eq _ (by omega) (by omega)
  rw [buddy, before, xor_one]
  by_cases even : block.pos % 2 = 0
  · rw [if_pos even, if_pos (by omega)]
    exact u32_eq _ (by omega) (by omega)
  · rw [if_neg even, if_neg (by omega)]
    exact u32_eq _ (by omega) (by omega)

theorem parent_treeIndex (bound : height < maxRankNum) (inside : block.Inside height)
    (below : block.height < height) :
    parent (treeIndex height block) = treeIndex height block.parent := by
  have level := level_eq below
  have small := treeIndex_lt bound inside
  have positive : 0 < 2 ^ (height - (block.height + 1)) := by positivity
  unfold treeIndex at small
  rw [parent, u32_eq (treeIndex height block - 1) (by unfold treeIndex; omega)
    (by unfold treeIndex; omega)]
  unfold treeIndex
  rw [DyadicBlock.height_parent, DyadicBlock.pos_parent, level]
  omega

theorem child_treeIndex (bound : height < maxRankNum) (inside : block.parent.Inside height) :
    child (treeIndex height block.parent) (block.pos % 2) = treeIndex height block := by
  have below : block.height < height := inside.1
  have level := level_eq below
  have small := treeIndex_lt bound (inside.of_parent)
  have positive : 0 < 2 ^ (height - (block.height + 1)) := by positivity
  have within := inside.2
  unfold child
  unfold treeIndex at small ⊢
  rw [DyadicBlock.height_parent, DyadicBlock.pos_parent, level] at *
  exact u32_eq _ (by omega) (by omega)

end

/-! ## The halves of a block -/

section

variable {height h pos : Nat}

private theorem left_parent_inside (inside : (⟨h + 1, pos⟩ : DyadicBlock).Inside height) :
    (⟨h, 2 * pos⟩ : DyadicBlock).parent.Inside height := by
  rw [DyadicBlock.parent, Nat.mul_div_cancel_left _ (by decide)]
  exact inside

private theorem right_parent_inside (inside : (⟨h + 1, pos⟩ : DyadicBlock).Inside height) :
    (⟨h, 2 * pos + 1⟩ : DyadicBlock).parent.Inside height := by
  rw [DyadicBlock.parent, show (2 * pos + 1) / 2 = pos by omega]
  exact inside

theorem inside_left (inside : (⟨h + 1, pos⟩ : DyadicBlock).Inside height) :
    (⟨h, 2 * pos⟩ : DyadicBlock).Inside height :=
  (left_parent_inside inside).of_parent

theorem inside_right (inside : (⟨h + 1, pos⟩ : DyadicBlock).Inside height) :
    (⟨h, 2 * pos + 1⟩ : DyadicBlock).Inside height :=
  (right_parent_inside inside).of_parent

theorem child_left (small : height < maxRankNum)
    (inside : (⟨h + 1, pos⟩ : DyadicBlock).Inside height) :
    child (treeIndex height ⟨h + 1, pos⟩) 0 = treeIndex height ⟨h, 2 * pos⟩ := by
  have isChild := child_treeIndex small (left_parent_inside inside)
  rw [DyadicBlock.parent, Nat.mul_div_cancel_left _ (by decide), Nat.mul_mod_right] at isChild
  exact isChild

theorem child_right (small : height < maxRankNum)
    (inside : (⟨h + 1, pos⟩ : DyadicBlock).Inside height) :
    child (treeIndex height ⟨h + 1, pos⟩) 1 = treeIndex height ⟨h, 2 * pos + 1⟩ := by
  have isChild := child_treeIndex small (right_parent_inside inside)
  rw [DyadicBlock.parent, show (2 * pos + 1) / 2 = pos by omega,
    show (2 * pos + 1) % 2 = 1 by omega] at isChild
  exact isChild

end

end OsPractices.Buddy
