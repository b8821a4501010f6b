import OsPractices.Buddy.BestFit

/-!
# Fresh allocation

Allocations of one rank fill the region from its start. While the live blocks
are the first `k` of their rank, the free block that starts behind them is
smaller than every other free block, since the others are the right halves left
over on the way down to it.
-/

set_option autoImplicit false

namespace OsPractices.Buddy

open Library

namespace Pool

/-- The first `count` blocks of a height. -/
def firstBlocks (height count : Nat) : List DyadicBlock :=
  (List.range count).map fun pos => ⟨height, pos⟩

theorem mem_firstBlocks {height count : Nat} {block : DyadicBlock} :
    block ∈ firstBlocks height count ↔ block.height = height ∧ block.pos < count := by
  obtain ⟨h, pos⟩ := block
  simp only [firstBlocks, List.mem_map, List.mem_range, DyadicBlock.mk.injEq]
  constructor
  · intro ⟨other, bound, sameHeight, samePos⟩
    exact ⟨sameHeight.symm, samePos ▸ bound⟩
  · intro ⟨sameHeight, bound⟩
    exact ⟨pos, bound, sameHeight.symm, rfl⟩

theorem firstBlocks_succ (height count : Nat) :
    firstBlocks height (count + 1) = firstBlocks height count ++ [⟨height, count⟩] := by
  rw [firstBlocks, List.range_succ, List.map_append, List.map_singleton, firstBlocks]

/-- The first `count` blocks cover the cells below `count * 2 ^ height`. -/
theorem exists_firstBlocks_covers {height count cell : Nat} :
    (∃ block ∈ firstBlocks height count, block.Covers cell) ↔ cell < count * 2 ^ height := by
  rw [← Nat.div_lt_iff_lt_mul (by positivity)]
  constructor
  · intro ⟨block, member, covers⟩
    obtain ⟨sameHeight, bound⟩ := mem_firstBlocks.mp member
    rw [DyadicBlock.Covers, sameHeight] at covers
    exact covers ▸ bound
  · intro bound
    exact ⟨⟨height, cell / 2 ^ height⟩, mem_firstBlocks.mpr ⟨rfl, bound⟩, rfl⟩

section

variable {pool : Pool} {height count : Nat}

/-- A free block starts behind the live ones. -/
theorem Valid.free_behind (valid : pool.Valid) (live : pool.live = firstBlocks height count)
    {tile : DyadicBlock} (free : tile.pos ∈ pool.free tile.height) {cell : Nat}
    (covers : tile.Covers cell) : count * 2 ^ height ≤ cell := by
  by_contra before
  obtain ⟨busy, member, inBusy⟩ := exists_firstBlocks_covers.mpr (Nat.lt_of_not_ge before)
  rw [← live] at member
  have same := valid.tiles.apart busy (.inr member) tile (.inl free) ⟨cell, inBusy, covers⟩
  subst same
  exact valid.apart busy member free

/-- A free block no taller than the one right behind the live blocks is that one. -/
theorem eq_of_free_behind (valid : pool.Valid) (canonical : pool.Canonical)
    (live : pool.live = firstBlocks height count) {tile next : DyadicBlock}
    (free : tile.pos ∈ pool.free tile.height) (nextFree : next.pos ∈ pool.free next.height)
    (covers : next.Covers (count * 2 ^ height)) (le : tile.height ≤ next.height) : tile = next := by
  have behind := valid.free_behind live free tile.covers_start
  have tileInside := valid.inside (.inl free)
  have nextInside := valid.inside (.inl nextFree)
  by_cases whole : tile.height = pool.height
  · rw [tileInside.eq_whole whole,
      nextInside.eq_whole (Nat.le_antisymm nextInside.1 (whole ▸ le))]
  · obtain ⟨busy, member, cell, inBusy, beside⟩ :=
      canonical tile free (Nat.lt_of_le_of_ne tileInside.1 whole)
    rw [live] at member
    have before := exists_firstBlocks_covers.mp ⟨busy, member, inBusy⟩
    -- the first free cell lies between the live page beside the tile and the tile
    have inParent : tile.parent.Covers (count * 2 ^ height) := by
      have left := DyadicBlock.covers_iff.mp (DyadicBlock.covers_parent_iff.mpr (.inr beside))
      have right := DyadicBlock.covers_iff.mp
        (DyadicBlock.covers_parent_iff.mpr (.inl tile.covers_start))
      exact DyadicBlock.covers_iff.mpr ⟨by omega, by omega⟩
    have notNext : ¬ next.Covers cell := by
      intro inNext
      have := valid.free_behind live nextFree inNext
      omega
    cases DyadicBlock.covers_parent_iff.mp inParent with
    | inl inTile =>
        exact valid.tiles.apart tile (.inl free) next (.inl nextFree) ⟨_, inTile, covers⟩
    | inr inBuddy =>
        exact absurd (DyadicBlock.covers_of_le tile.buddy next le inBuddy covers beside) notNext

/-- The next allocation takes the block right behind the live ones. -/
theorem alloc_firstBlocks (valid : pool.Valid) (canonical : pool.Canonical)
    (live : pool.live = firstBlocks height count) (low : height ≤ pool.height)
    (room : count < 2 ^ (pool.height - height)) :
    ∃ next, pool.alloc height = some (⟨height, count⟩, next) := by
  have clear : ∀ busy ∈ pool.live, ¬ busy.Overlaps ⟨height, count⟩ := by
    intro busy member ⟨cell, inBusy, inBlock⟩
    rw [live] at member
    have before := exists_firstBlocks_covers.mp ⟨busy, member, inBusy⟩
    have start : count * 2 ^ height ≤ cell := (DyadicBlock.covers_iff.mp inBlock).1
    omega
  obtain ⟨next, nextFree, le, covers⟩ :=
    @exists_free_of_clear pool valid canonical ⟨height, count⟩ ⟨low, room⟩ clear
  cases result : pool.alloc height with
  | none =>
      have empty := alloc_eq_none_iff_lists.mp result next.height le (valid.inside (.inl nextFree)).1
      rw [empty] at nextFree
      cases nextFree
  | some found =>
      obtain ⟨block, after⟩ := found
      obtain ⟨first, pos, rest, lowFirst, -, head, empty, rfl, -⟩ := alloc_cuts result
      have free : (⟨first, pos⟩ : DyadicBlock).pos ∈ pool.free first := by simp [head]
      have least : first ≤ next.height := by
        by_contra lower
        rw [empty next.height le (Nat.lt_of_not_ge lower)] at nextFree
        cases nextFree
      have same := @eq_of_free_behind pool height count valid canonical live ⟨first, pos⟩ next free
        nextFree covers least
      have atStart := valid.free_behind live nextFree next.covers_start
      have startLe : next.start ≤ count * 2 ^ height := (DyadicBlock.covers_iff.mp covers).1
      have start : pos * 2 ^ (first - height) * 2 ^ height = count * 2 ^ height := by
        rw [Nat.mul_assoc, ← pow_add, Nat.sub_add_cancel lowFirst]
        change (⟨first, pos⟩ : DyadicBlock).start = _
        rw [same]
        exact Nat.le_antisymm startLe atStart
      rw [Nat.eq_of_mul_eq_mul_right (by positivity) start]
      exact ⟨after, rfl⟩

theorem alloc_full (valid : pool.Valid) (canonical : pool.Canonical)
    (live : pool.live = firstBlocks height (2 ^ (pool.height - height))) :
    pool.alloc height = none := by
  apply (alloc_eq_none_iff valid canonical).mpr
  intro block isHeight inside
  refine ⟨block, ?_, block.start, block.covers_start, block.covers_start⟩
  rw [live, mem_firstBlocks]
  exact ⟨isHeight, isHeight ▸ inside.2⟩

end

/-- What the calls with one rank answer, from the `count`-th on. -/
theorem run_fresh {pool : Pool} {height : Nat} (base : UInt64) (valid : pool.Valid)
    (canonical : pool.Canonical) (low : height ≤ pool.height) (calls count : Nat)
    (live : pool.live = firstBlocks height (min count (2 ^ (pool.height - height)))) :
    (pool.run base (List.replicate calls (.allocPages (height + 1 : Nat)))).1 =
      (List.range' count calls).map fun k =>
        if k < 2 ^ (pool.height - height) then .pages (pageAddress base (k * 2 ^ height))
        else .failure .enospc := by
  have inRange : ¬ (((height + 1 : Nat) : Int) < 1 ∨ (pool.height : Int) + 1 < (height + 1 : Nat)) := by
    omega
  have toHeight : ((height + 1 : Nat) : Int).toNat - 1 = height := by omega
  induction calls generalizing pool count with
  | zero => rfl
  | succ calls ih =>
      rw [List.replicate_succ, List.range'_succ, List.map_cons]
      by_cases room : count < 2 ^ (pool.height - height)
      · rw [Nat.min_eq_left room.le] at live
        obtain ⟨next, result⟩ := alloc_firstBlocks valid canonical live low room
        obtain ⟨nextValid, nextCanonical, -, sameHeight, nextLive⟩ :=
          alloc_eq_some valid canonical result
        have answer : pool.exec base (.allocPages (height + 1 : Nat)) =
            (.pages (pageAddress base (count * 2 ^ height)), next) := by
          simp only [Pool.exec, if_neg inRange, toHeight, result]
          rfl
        have later := ih nextValid nextCanonical (sameHeight.symm ▸ low) (count + 1)
          (by rw [nextLive, live, sameHeight, Nat.min_eq_left room, firstBlocks_succ])
          (by rw [sameHeight]; exact inRange)
        rw [sameHeight] at later
        simp only [Pool.run, answer, later, if_pos room]
      · have isFull : min count (2 ^ (pool.height - height)) = 2 ^ (pool.height - height) :=
          Nat.min_eq_right (Nat.le_of_not_lt room)
        rw [isFull] at live
        have result := alloc_full valid canonical live
        have answer : pool.exec base (.allocPages (height + 1 : Nat)) =
            (.failure .enospc, pool) := by
          simp only [Pool.exec, if_neg inRange, toHeight, result]
        have later := ih valid canonical low (count + 1)
          (by rw [live, Nat.min_eq_right (by omega)]) inRange
        simp only [Pool.run, answer, later, if_neg room]

end Pool

/-- The calls with one rank after `init_page` return the blocks of that rank in
address order and then fail. -/
theorem fresh_in_address_order (base : UInt64) (pgcount : Nat) (positive : 1 ≤ pgcount)
    (bound : pgcount < 2 ^ 20) (rank : Nat) (low : 1 ≤ rank) (high : rank ≤ pgcount.log2 + 1)
    (calls : Nat) :
    ∃ last, runFrom programStart base pgcount (List.replicate calls (.allocPages rank)) =
        .ok ((List.range calls).map fun k =>
          if k < 2 ^ (pgcount.log2 + 1 - rank) then
            .pages (base + UInt64.ofNat (k * 2 ^ (rank - 1) * pageSize))
          else .failure .enospc, last) ∧
      last.state.rankNum = pgcount.log2 + 1 := by
  obtain ⟨height, rfl⟩ : ∃ height, rank = height + 1 := ⟨rank - 1, by omega⟩
  have passes : ∀ call ∈ List.replicate calls (Call.allocPages (height + 1 : Nat)),
      call.Passes (Measured base) := by
    intro call member
    rw [List.eq_of_mem_replicate member]
    trivial
  obtain ⟨last, run, tracks, sameHeight, -⟩ :=
    runFrom_tracks base positive bound (endRecordUnused_programStart base pgcount) passes
  have answers := @Pool.run_fresh (Pool.initial (heightOf pgcount)) height base
    (Pool.Valid.initial _) (Pool.Canonical.initial _) (Nat.le_of_succ_le_succ high) calls 0
    (by rw [Nat.zero_min]; rfl)
  refine ⟨last, ?_, by rw [tracks.represents.rankNum, sameHeight]; rfl⟩
  rw [run, answers, ← List.range_eq_range', Nat.add_sub_add_right]
  rfl

theorem fresh_in_address_order_pairs :
    ∃ last, runFrom programStart 0x100000 11 (List.replicate 6 (.allocPages (2 : Nat))) =
        .ok ((List.range 6).map fun k =>
          if k < 2 ^ (Nat.log2 11 + 1 - 2) then
            .pages (0x100000 + UInt64.ofNat (k * 2 ^ (2 - 1) * pageSize))
          else .failure .enospc, last) ∧
      last.state.rankNum = Nat.log2 11 + 1 :=
  fresh_in_address_order 0x100000 11 (by decide) (by decide) 2 (by decide) (by decide) 6

end OsPractices.Buddy
