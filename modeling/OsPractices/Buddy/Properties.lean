import Mathlib.Data.Set.Card
import OsPractices.Buddy.Session

/-!
# What a session guarantees

Every run after one `init_page` from program start, whatever calls it makes:
the blocks handed out never overlap, the arrays keep their invariant, and the
counts are a function of the live blocks alone.
-/

set_option autoImplicit false

namespace OsPractices.Buddy

open Library

/-! ## Safety -/

/-- The bytes of an allocation. -/
def Allocation.size (allocation : Allocation) : Nat :=
  2 ^ (allocation.rank - 1) * pageSize

/-- The bytes of a region of `pgcount` pages that the allocator manages. -/
def regionSize (pgcount : Nat) : Nat := 2 ^ pgcount.log2 * pageSize

def Disjoint (base : UInt64) (left right : Allocation) : Prop :=
  offset base left.ptr + left.size ≤ offset base right.ptr ∨
    offset base right.ptr + right.size ≤ offset base left.ptr

/-- The ledger's entry for a block. -/
def entryOf (base : UInt64) (block : DyadicBlock) : Allocation :=
  ⟨pageAddress base block.start, block.height + 1⟩

theorem size_entryOf (base : UInt64) (block : DyadicBlock) :
    (entryOf base block).size = 2 ^ block.height * pageSize := rfl

section

variable {base : UInt64} {session : Session} {pool : Pool}

theorem Tracks.offset_entryOf (tracks : Tracks base session pool) {block : DyadicBlock}
    (member : block ∈ pool.blocks) :
    offset base (entryOf base block).ptr = block.start * pageSize :=
  offset_pageAddress base
    (start_lt_maxPageNum tracks.represents.small (tracks.valid.inside member))

/-- Of two tiles one ends before the other starts. -/
theorem apart_of_tiles {n : Nat} {blocks : Set DyadicBlock} (tiles : Tiles n blocks)
    {left right : DyadicBlock} (inLeft : left ∈ blocks) (inRight : right ∈ blocks)
    (different : left ≠ right) :
    left.start + 2 ^ left.height ≤ right.start ∨ right.start + 2 ^ right.height ≤ left.start := by
  by_contra crossing
  have positive : 0 < 2 ^ left.height ∧ 0 < 2 ^ right.height := ⟨by positivity, by positivity⟩
  apply different
  apply tiles.apart left inLeft right inRight
  refine ⟨max left.start right.start, ?_, ?_⟩
  · exact DyadicBlock.covers_iff.mpr ⟨by omega, by omega⟩
  · exact DyadicBlock.covers_iff.mpr ⟨by omega, by omega⟩

theorem Tracks.pairwise (tracks : Tracks base session pool) :
    session.live.Pairwise (Disjoint base) := by
  rw [tracks.live, List.pairwise_map]
  apply tracks.valid.liveNodup.imp_of_mem
  intro left right inLeft inRight different
  have leftOffset := tracks.offset_entryOf (.inr inLeft)
  have rightOffset := tracks.offset_entryOf (.inr inRight)
  unfold Disjoint
  simp only [entryOf] at leftOffset rightOffset
  rw [leftOffset, rightOffset]
  have apart := apart_of_tiles tracks.valid.tiles (.inr inLeft) (.inr inRight) different
  cases apart with
  | inl before =>
      left
      calc left.start * pageSize + 2 ^ left.height * pageSize
          = (left.start + 2 ^ left.height) * pageSize := by ring
        _ ≤ right.start * pageSize := Nat.mul_le_mul_right _ before
  | inr after =>
      right
      calc right.start * pageSize + 2 ^ right.height * pageSize
          = (right.start + 2 ^ right.height) * pageSize := by ring
        _ ≤ left.start * pageSize := Nat.mul_le_mul_right _ after

theorem Tracks.aligned_inside (tracks : Tracks base session pool) {allocation : Allocation}
    (member : allocation ∈ session.live) :
    offset base allocation.ptr % allocation.size = 0 ∧
      offset base allocation.ptr + allocation.size ≤ 2 ^ pool.height * pageSize := by
  rw [tracks.live] at member
  obtain ⟨block, inLive, same⟩ := List.mem_map.mp member
  have start := tracks.offset_entryOf (.inr inLive)
  subst same
  simp only [entryOf] at start
  rw [start]
  constructor
  · change block.start * pageSize % (2 ^ block.height * pageSize) = 0
    rw [DyadicBlock.start, Nat.mul_assoc]
    exact Nat.mul_mod_left _ _
  · calc block.start * pageSize + 2 ^ block.height * pageSize
        = (block.start + 2 ^ block.height) * pageSize := by ring
      _ ≤ 2 ^ pool.height * pageSize :=
          Nat.mul_le_mul_right _ (tracks.valid.inside (.inr inLive)).end_le

end

/-- Live blocks never overlap, start at a multiple of their size and end inside
the region, after any calls with any arguments. -/
theorem live_blocks_safe (base : UInt64) (pgcount : Nat) (positive : 1 ≤ pgcount)
    (bound : pgcount < 2 ^ 20) (calls : List Call) (near : ∀ call ∈ calls, call.Passes (Near base)) :
    ∃ replies last, runFrom programStart base pgcount calls = .ok (replies, last) ∧
      last.live.Pairwise (Disjoint base) ∧
      ∀ allocation ∈ last.live,
        offset base allocation.ptr % allocation.size = 0 ∧
          offset base allocation.ptr + allocation.size ≤ regionSize pgcount := by
  obtain ⟨last, run, tracks, height, _⟩ :=
    runFrom_tracks base positive bound (endRecordUnused_programStart base pgcount)
      fun call member => (near call member).mono fun _ => Near.measured
  refine ⟨_, last, run, tracks.pairwise, ?_⟩
  intro allocation member
  have safe := tracks.aligned_inside member
  rw [height] at safe
  exact safe

theorem live_blocks_safe_double_return :
    ∃ replies last, runFrom programStart 0x100000 5
        [.allocPages 2, .allocPages 1, .returnPages 0x100000, .returnPages 0x100000] =
          .ok (replies, last) ∧
      last.live.Pairwise (Disjoint 0x100000) ∧
      ∀ allocation ∈ last.live,
        offset 0x100000 allocation.ptr % allocation.size = 0 ∧
          offset 0x100000 allocation.ptr + allocation.size ≤ regionSize 5 :=
  live_blocks_safe 0x100000 5 (by decide) (by decide)
    [.allocPages 2, .allocPages 1, .returnPages 0x100000, .returnPages 0x100000] (by decide)

/-! ## The arrays -/

/-- The pages whose record is in use are the first pages of a partition of the
region, and each record names its block. -/
def RecordsPartition (state : State) (height : Nat) : Prop :=
  ∃ blocks : Set DyadicBlock, Tiles height blocks ∧
    (∀ page < 2 ^ height, (state.metaArray page).status ≠ .undef ↔
      ∃ block ∈ blocks, block.start = page) ∧
    ∀ block ∈ blocks, (state.metaArray block.start).rank = block.height + 1 ∧
      blockToPage state (state.metaArray block.start).index
        (state.metaArray block.start).rank = .ok block.start

/-- A bucket is a well-formed list of the `UNUSED` blocks of its rank, and the
rank's count is its length. -/
def BucketHolds (state : State) (height rank : Nat) : Prop :=
  ∃ pages, (state.links rank).Holds pages ∧
    (∀ page, page ∈ pages ↔ page < 2 ^ height ∧ (state.metaArray page).status = .unused ∧
      (state.metaArray page).rank = rank) ∧
    state.count rank = pages.length

section

variable {state : State} {pool : Pool}

theorem Represents.partition (valid : pool.Valid) (represents : Represents state pool none) :
    RecordsPartition state pool.height := by
  have record : ∀ block ∈ pool.blocks, (state.metaArray block.start).status ≠ .undef ∧
      (state.metaArray block.start).rank = block.height + 1 ∧
      (state.metaArray block.start).index = treeIndex pool.height block := by
    intro block member
    have found := valid.blockAt_eq_some.mpr ⟨member, rfl⟩
    have shown := represents.record valid (valid.inside member).start_lt
    rw [found] at shown
    refine ⟨?_, shown.2⟩
    rw [shown.1]
    split
    · decide
    · decide
  refine ⟨pool.blocks, valid.tiles, ?_, ?_⟩
  · intro page inRegion
    constructor
    · intro inUse
      by_contra absent
      apply inUse
      exact represents.undef page inRegion fun block member start => absent ⟨block, member, start⟩
    · intro ⟨block, member, start⟩
      exact start ▸ (record block member).1
  · intro block member
    obtain ⟨_, rank, index⟩ := record block member
    rw [rank, index]
    exact ⟨rfl, blockToPage_eq represents.rankNum represents.small (valid.inside member)⟩

/-- The `UNUSED` records are those of the free blocks. -/
theorem Represents.unused_iff (valid : pool.Valid) (represents : Represents state pool none)
    {page rank : Nat} (inRegion : page < 2 ^ pool.height) :
    ((state.metaArray page).status = .unused ∧ (state.metaArray page).rank = rank) ↔
      ∃ block : DyadicBlock, block.pos ∈ pool.free block.height ∧ block.start = page ∧
        block.height + 1 = rank := by
  have shown := represents.record valid inRegion
  constructor
  · intro ⟨status, sameRank⟩
    cases found : pool.blockAt page with
    | none =>
        simp only [found] at shown
        rw [shown] at status
        cases status
    | some block =>
        simp only [found] at shown
        obtain ⟨member, start⟩ := valid.blockAt_eq_some.mp found
        have notLive : block ∉ pool.live := by
          intro live
          rw [shown.1, if_pos live] at status
          cases status
        exact ⟨block, member.resolve_right notLive, start, shown.2.1.symm.trans sameRank⟩
  · intro ⟨block, free, start, sameRank⟩
    have label := represents.unused block free
    subst start
    simp only [State.label, Prod.mk.injEq] at label
    exact ⟨label.1, label.2.1.trans sameRank⟩

theorem Represents.bucketHolds (valid : pool.Valid) (represents : Represents state pool none)
    {h : Nat} (low : h ≤ pool.height) : BucketHolds state pool.height (h + 1) := by
  refine ⟨starts h (pool.free h), represents.lists.holds h low, ?_, ?_⟩
  · intro page
    constructor
    · intro member
      obtain ⟨pos, free, start⟩ := mem_starts.mp member
      have inRegion : page < 2 ^ pool.height :=
        start ▸ (represents.lists.inside ⟨h, pos⟩ free).start_lt
      exact ⟨inRegion, (represents.unused_iff valid inRegion).mpr ⟨⟨h, pos⟩, free, start, rfl⟩⟩
    · intro ⟨inRegion, unused⟩
      obtain ⟨block, free, start, sameRank⟩ := (represents.unused_iff valid inRegion).mp unused
      obtain rfl : block.height = h := Nat.succ.inj sameRank
      exact mem_starts.mpr ⟨block.pos, free, start⟩
  · rw [represents.counts h low]
    exact (List.length_map _).symm

/-- A rank the region does not have keeps an empty bucket. -/
theorem Represents.bucketHolds_outside (valid : pool.Valid)
    (represents : Represents state pool none) {rank : Nat}
    (outside : rank = 0 ∨ pool.height + 1 < rank) (empty : state.bucket rank = none)
    (zero : state.count rank = 0) : BucketHolds state pool.height rank := by
  refine ⟨[], ⟨empty, List.nodup_nil, trivial⟩, ?_, zero⟩
  intro page
  constructor
  · intro member
    cases member
  · intro ⟨inRegion, unused⟩
    obtain ⟨block, free, _, sameRank⟩ := (represents.unused_iff valid inRegion).mp unused
    have low := (valid.inside (.inl free)).1
    omega

end

/-- The representation invariant, after any calls. -/
theorem arrays_invariant (base : UInt64) (pgcount : Nat) (positive : 1 ≤ pgcount)
    (bound : pgcount < 2 ^ 20) (calls : List Call) (near : ∀ call ∈ calls, call.Passes (Near base)) :
    ∃ replies last, runFrom programStart base pgcount calls = .ok (replies, last) ∧
      last.state.pageNum = .ok (2 ^ pgcount.log2) ∧
      RecordsPartition last.state pgcount.log2 ∧
      ∀ rank ≤ maxRankNum, BucketHolds last.state pgcount.log2 rank := by
  obtain ⟨last, run, tracks, height, beyond⟩ :=
    runFrom_tracks base positive bound (endRecordUnused_programStart base pgcount)
      fun call member => (near call member).mono fun _ => Near.measured
  have represents := tracks.represents
  have pages := pageNum_eq represents.rankNum represents.small
  have partition := represents.partition tracks.valid
  rw [height] at pages partition
  refine ⟨_, last, run, pages, partition, ?_⟩
  intro rank _
  by_cases outside : rank = 0 ∨ heightOf pgcount + 1 < rank
  · obtain ⟨empty, zero⟩ := beyond rank outside
    have holds := represents.bucketHolds_outside tracks.valid (by rw [height]; exact outside) empty zero
    rw [height] at holds
    exact holds
  · have holds := represents.bucketHolds tracks.valid (show rank - 1 ≤ _ by omega)
    rw [height, show rank - 1 + 1 = rank by omega] at holds
    exact holds

theorem arrays_invariant_after_merge :
    ∃ replies last, runFrom programStart 0x100000 5
        [.allocPages 1, .allocPages 1, .returnPages 0x101000] = .ok (replies, last) ∧
      last.state.pageNum = .ok (2 ^ Nat.log2 5) ∧
      RecordsPartition last.state (Nat.log2 5) ∧
      ∀ rank ≤ maxRankNum, BucketHolds last.state (Nat.log2 5) rank :=
  arrays_invariant 0x100000 5 (by decide) (by decide)
    [.allocPages 1, .allocPages 1, .returnPages 0x101000] (by decide)

end OsPractices.Buddy
