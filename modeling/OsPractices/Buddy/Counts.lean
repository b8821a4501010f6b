import OsPractices.Buddy.Properties

/-!
# History independence

The count of a rank is the number of maximal blocks of that rank without a live
page, and nothing else about the history enters it. Once every block is back,
in whatever order, the region is one free block again.
-/

set_option autoImplicit false

namespace OsPractices.Buddy

open Library

/-- A page of a live allocation. -/
def LivePage (base : UInt64) (live : List Allocation) (page : Nat) : Prop :=
  ∃ allocation ∈ live, offset base allocation.ptr ≤ page * pageSize ∧
    page * pageSize < offset base allocation.ptr + allocation.size

/-- The `k`-th size-aligned block of rank `rank` has no live page, and it is
the whole region or its buddy has one. -/
def MaximalFree (base : UInt64) (live : List Allocation) (rankNum rank k : Nat) : Prop :=
  (∀ page, page / 2 ^ (rank - 1) = k → ¬ LivePage base live page) ∧
    (rank = rankNum ∨ ∃ page, page / 2 ^ (rank - 1) = (if k % 2 = 0 then k + 1 else k - 1) ∧
      LivePage base live page)

/-- The number of such blocks in a region of rank `rankNum`. -/
noncomputable def maximalFreeCount (base : UInt64) (live : List Allocation) (rankNum rank : Nat) :
    Nat :=
  Set.ncard {k | k < 2 ^ (rankNum - rank) ∧ MaximalFree base live rankNum rank k}

section

variable {base : UInt64} {session : Session} {pool : Pool}

theorem Tracks.livePage_iff (tracks : Tracks base session pool) {page : Nat} :
    LivePage base session.live page ↔ ∃ busy ∈ pool.live, busy.Covers page := by
  have pages : ∀ busy ∈ pool.live,
      (offset base (entryOf base busy).ptr ≤ page * pageSize ∧
        page * pageSize < offset base (entryOf base busy).ptr + (entryOf base busy).size) ↔
        busy.Covers page := by
    intro busy live
    have positive : 0 < pageSize := by decide
    rw [tracks.offset_entryOf (.inr live), size_entryOf, ← Nat.add_mul,
      DyadicBlock.covers_iff, Nat.mul_le_mul_right_iff positive, Nat.mul_lt_mul_right positive]
  rw [LivePage, tracks.live]
  constructor
  · intro ⟨allocation, member, within⟩
    obtain ⟨busy, live, same⟩ := List.mem_map.mp member
    subst same
    exact ⟨busy, live, (pages busy live).mp within⟩
  · intro ⟨busy, live, covers⟩
    exact ⟨entryOf base busy, List.mem_map.mpr ⟨busy, live, rfl⟩, (pages busy live).mpr covers⟩

theorem Tracks.maximalFree_iff (tracks : Tracks base session pool) {h k : Nat} :
    MaximalFree base session.live (pool.height + 1) (h + 1) k ↔ pool.Maximal ⟨h, k⟩ := by
  have clear : (∀ page, page / 2 ^ h = k → ¬ LivePage base session.live page) ↔
      ∀ busy ∈ pool.live, ¬ busy.Overlaps ⟨h, k⟩ := by
    constructor
    · intro none busy live ⟨page, inBusy, inBlock⟩
      exact none page inBlock (tracks.livePage_iff.mpr ⟨busy, live, inBusy⟩)
    · intro none page inBlock livePage
      obtain ⟨busy, live, inBusy⟩ := tracks.livePage_iff.mp livePage
      exact none busy live ⟨page, inBusy, inBlock⟩
  have beside : (∃ page, page / 2 ^ h = (if k % 2 = 0 then k + 1 else k - 1) ∧
      LivePage base session.live page) ↔
        ∃ busy ∈ pool.live, busy.Overlaps (DyadicBlock.buddy ⟨h, k⟩) := by
    constructor
    · intro ⟨page, inBuddy, livePage⟩
      obtain ⟨busy, live, inBusy⟩ := tracks.livePage_iff.mp livePage
      exact ⟨busy, live, page, inBusy, inBuddy⟩
    · intro ⟨busy, live, page, inBusy, inBuddy⟩
      exact ⟨page, inBuddy, tracks.livePage_iff.mpr ⟨busy, live, inBusy⟩⟩
  unfold MaximalFree Pool.Maximal
  rw [Nat.add_sub_cancel, clear, beside, Nat.add_right_cancel_iff]

theorem Tracks.length_free (tracks : Tracks base session pool) {h : Nat} (low : h ≤ pool.height) :
    (pool.free h).length = maximalFreeCount base session.live (pool.height + 1) (h + 1) := by
  have members : {k | k < 2 ^ (pool.height + 1 - (h + 1)) ∧
      MaximalFree base session.live (pool.height + 1) (h + 1) k} =
        ((pool.free h).toFinset : Set Nat) := by
    ext k
    rw [Nat.add_sub_add_right]
    simp only [Set.mem_ofPred_eq, List.coe_toFinset, tracks.maximalFree_iff]
    constructor
    · intro ⟨bound, maximal⟩
      exact (Pool.mem_free_iff_maximal tracks.valid tracks.canonical ⟨low, bound⟩).mpr maximal
    · intro free
      have inside := tracks.valid.inside (.inl free : (⟨h, k⟩ : DyadicBlock) ∈ pool.blocks)
      exact ⟨inside.2,
        (Pool.mem_free_iff_maximal tracks.valid tracks.canonical inside).mp free⟩
  rw [maximalFreeCount, members, Set.ncard_coe_finset,
    List.toFinset_card_of_nodup (tracks.valid.freeNodup h)]

/-- `query_page_counts` counts the maximal free blocks. -/
theorem Tracks.queryPageCounts (tracks : Tracks base session pool) {rank : Nat} (low : 1 ≤ rank)
    (high : rank ≤ pool.height + 1) :
    Buddy.queryPageCounts session.state rank =
      .ok (maximalFreeCount base session.live (pool.height + 1) rank : Nat) := by
  have length := tracks.length_free (show rank - 1 ≤ pool.height by omega)
  rw [show rank - 1 + 1 = rank by omega] at length
  rw [queryPageCounts_eq tracks.represents, if_neg (by omega), Int.toNat_natCast, length]

end

theorem livePage_congr {base : UInt64} {live live' : List Allocation}
    (same : ∀ allocation, allocation ∈ live ↔ allocation ∈ live') :
    LivePage base live = LivePage base live' := by
  funext page
  simp only [LivePage, same]

/-- The ledger enters the counts only as a set. -/
theorem maximalFreeCount_congr {base : UInt64} {live live' : List Allocation}
    (same : ∀ allocation, allocation ∈ live ↔ allocation ∈ live') (rankNum rank : Nat) :
    maximalFreeCount base live rankNum rank = maximalFreeCount base live' rankNum rank := by
  unfold maximalFreeCount MaximalFree
  rw [livePage_congr same]

/-! ## Returning everything -/

section

variable {base : UInt64} {session : Session} {pool : Pool}

/-- A near address of a block is looked up with success. -/
theorem lookup_near {block : DyadicBlock} (valid : pool.Valid)
    (small : pool.height < maxRankNum) (member : block ∈ pool.blocks)
    (near : Near base (pageAddress base block.start)) :
    pool.lookup base (pageAddress base block.start) = some block := by
  have distance := offset_pageAddress base (start_lt_maxPageNum small (valid.inside member))
  have bound := start_lt_maxPageNum small (valid.inside member)
  generalize pageAddress base block.start = ptr at *
  have page : pageOf base ptr = some block.start := by
    apply pageOf_eq_some.mpr
    have baseSmall := base.toNat_lt
    have ptrSmall := ptr.toNat_lt
    unfold Near at near
    unfold maxPageNum maxRankNum at bound
    unfold pageSize pageBits at *
    rw [offset, UInt64.toNat_sub] at distance
    omega
  rw [Pool.lookup, page, Option.bind_some]
  exact valid.blockAt_eq_some.mpr ⟨member, rfl⟩

theorem returnAll_tracks (tracks : Tracks base session pool) {order : List UInt64}
    (perm : order.Perm (session.live.map Allocation.ptr)) (near : ∀ ptr ∈ order, Near base ptr) :
    ∃ final, session.run (order.map .returnPages) =
        .ok (order.map fun _ => .status ok, final) ∧
      ∃ last, Tracks base final last ∧ last.height = pool.height ∧ final.live = [] := by
  induction order generalizing session pool with
  | nil =>
      have empty : session.live = [] := List.map_eq_nil_iff.mp perm.nil_eq.symm
      exact ⟨session, rfl, pool, tracks, rfl, empty⟩
  | cons ptr rest ih =>
      have member : ptr ∈ session.live.map Allocation.ptr := perm.subset (.head _)
      rw [tracks.live, List.map_map] at member perm
      obtain ⟨block, live, address⟩ := List.mem_map.mp member
      have isAddress : ptr = pageAddress base block.start := address.symm
      have ptrNear := near ptr (.head _)
      have found : (pool.lookup base ptr).filter (· ∈ pool.live) = some block := by
        rw [isAddress, lookup_near tracks.valid tracks.represents.small (.inr live)
          (isAddress ▸ ptrNear)]
        simp [Option.filter, live]
      have answer : pool.exec base (.returnPages ptr) = (.status ok, pool.release block) := by
        simp only [Pool.exec, found]
      obtain ⟨next, step, nextTracks, _, sameHeight⟩ :=
        @step_tracks base session pool (.returnPages ptr) tracks ptrNear.measured
      rw [answer] at step nextTracks sameHeight
      have remaining : rest.Perm (next.live.map Allocation.ptr) := by
        rw [nextTracks.live, List.map_map, Pool.live_release]
        have split := (List.perm_cons_erase live).map
          (Allocation.ptr ∘ fun block => ⟨pageAddress base block.start, block.height + 1⟩)
        rw [List.map_cons] at split
        exact (perm.trans (address ▸ split)).cons_inv
      obtain ⟨final, run, last, lastTracks, lastHeight, empty⟩ :=
        ih nextTracks remaining fun other inRest => near other (.tail _ inRest)
      refine ⟨final, ?_, last, lastTracks, lastHeight.trans sameHeight, empty⟩
      simp only [List.map_cons, Session.run, step, ok_bind, run, pure_eq_ok]

/-- Without live blocks the only free block is the region. -/
theorem Tracks.counts_of_empty (tracks : Tracks base session pool) (empty : session.live = [])
    {h : Nat} (low : h ≤ pool.height) :
    (pool.free h).length = if h = pool.height then 1 else 0 := by
  have noLive : pool.live = [] := by
    have mapped := tracks.live
    rw [empty] at mapped
    exact List.map_eq_nil_iff.mp mapped.symm
  have freeIff : ∀ pos, pos ∈ pool.free h ↔ h = pool.height ∧ pos = 0 := by
    intro pos
    constructor
    · intro free
      have inside := tracks.valid.inside (.inl free : (⟨h, pos⟩ : DyadicBlock) ∈ pool.blocks)
      have maximal := (Pool.mem_free_iff_maximal tracks.valid tracks.canonical inside).mp free
      simp only [Pool.Maximal, noLive, List.not_mem_nil, false_and, exists_false, or_false] at maximal
      have whole := inside.eq_whole maximal.2
      exact ⟨maximal.2, congrArg DyadicBlock.pos whole⟩
    · intro ⟨whole, first⟩
      subst whole
      subst first
      have inside : (⟨pool.height, 0⟩ : DyadicBlock).Inside pool.height := ⟨le_rfl, by positivity⟩
      apply (Pool.mem_free_iff_maximal tracks.valid tracks.canonical inside).mpr
      exact ⟨by simp [noLive], .inl rfl⟩
  have nodup := tracks.valid.freeNodup h
  by_cases whole : h = pool.height
  · have single : (pool.free h).Perm [0] := by
      apply (List.perm_ext_iff_of_nodup nodup (List.nodup_singleton 0)).mpr
      intro pos
      rw [freeIff, List.mem_singleton]
      exact and_iff_right whole
    rw [if_pos whole, single.length_eq]
    rfl
  · have none : pool.free h = [] := by
      apply List.eq_nil_iff_forall_not_mem.mpr
      intro pos free
      exact whole ((freeIff pos).mp free).1
    rw [if_neg whole, none]
    rfl

end

/-- The counts depend on the live blocks alone, and returning all of them in
any order leaves one free block, the region. -/
theorem counts_of_live_blocks (base : UInt64) (pgcount : Nat) (positive : 1 ≤ pgcount)
    (bound : pgcount < 2 ^ 20) (calls : List Call) (near : ∀ call ∈ calls, call.Passes (Near base)) :
    ∃ replies last, runFrom programStart base pgcount calls = .ok (replies, last) ∧
      last.state.rankNum = pgcount.log2 + 1 ∧
      (∀ rank, 1 ≤ rank → rank ≤ pgcount.log2 + 1 →
        queryPageCounts last.state rank =
          .ok (maximalFreeCount base last.live (pgcount.log2 + 1) rank : Nat)) ∧
      (∀ otherCalls otherReplies other, (∀ call ∈ otherCalls, call.Passes (Near base)) →
        runFrom programStart base pgcount otherCalls = .ok (otherReplies, other) →
        (∀ allocation, allocation ∈ last.live ↔ allocation ∈ other.live) →
          ∀ rank, queryPageCounts last.state rank = queryPageCounts other.state rank) ∧
      (∀ order : List UInt64, order.Perm (last.live.map Allocation.ptr) →
        (∀ ptr ∈ order, Near base ptr) →
          ∃ final, last.run (order.map .returnPages) = .ok (order.map fun _ => .status ok, final) ∧
            final.live = [] ∧
            ∀ rank, 1 ≤ rank → rank ≤ pgcount.log2 + 1 →
              queryPageCounts final.state rank =
                .ok (if rank = pgcount.log2 + 1 then 1 else 0)) := by
  obtain ⟨last, run, tracks, height, _⟩ :=
    runFrom_tracks base positive bound (endRecordUnused_programStart base pgcount)
      fun call member => (near call member).mono fun _ => Near.measured
  refine ⟨_, last, run, ?_, ?_, ?_, ?_⟩
  · rw [tracks.represents.rankNum, height]
    rfl
  · intro rank low high
    have counts := tracks.queryPageCounts low (by rw [height]; exact high)
    rw [height] at counts
    exact counts
  · intro otherCalls otherReplies other otherNear otherRun sameLive rank
    obtain ⟨other', run', otherTracks, otherHeight, _⟩ :=
      runFrom_tracks base positive bound (endRecordUnused_programStart base pgcount)
        fun call member => (otherNear call member).mono fun _ => Near.measured
    cases otherRun.symm.trans run'
    rw [queryPageCounts_eq tracks.represents, queryPageCounts_eq otherTracks.represents, height,
      otherHeight]
    by_cases invalid : rank < 1 ∨ (heightOf pgcount : Int) + 1 < rank
    · rw [if_pos invalid, if_pos invalid]
    · have length := tracks.length_free (show rank.toNat - 1 ≤ _ by rw [height]; omega)
      have otherLength := otherTracks.length_free
        (show rank.toNat - 1 ≤ _ by rw [otherHeight]; omega)
      rw [if_neg invalid, if_neg invalid, length, otherLength, height, otherHeight,
        maximalFreeCount_congr sameLive]
  · intro order perm orderNear
    obtain ⟨final, finalRun, pool, finalTracks, sameHeight, empty⟩ :=
      returnAll_tracks tracks perm orderNear
    rw [height] at sameHeight
    refine ⟨final, finalRun, empty, ?_⟩
    intro rank low high
    have counts := finalTracks.counts_of_empty empty
      (show rank - 1 ≤ _ by rw [sameHeight]; unfold heightOf; omega)
    rw [queryPageCounts_eq finalTracks.represents, sameHeight,
      if_neg (by unfold heightOf; omega), Int.toNat_natCast, counts, sameHeight]
    by_cases whole : rank = pgcount.log2 + 1
    · rw [if_pos whole, if_pos (by unfold heightOf; omega)]
      rfl
    · rw [if_neg whole, if_neg (by unfold heightOf; omega)]
      rfl

theorem counts_of_live_blocks_two_pages :
    ∃ replies last, runFrom programStart 0x100000 4 [.allocPages 1, .allocPages 1] =
        .ok (replies, last) ∧
      last.state.rankNum = Nat.log2 4 + 1 ∧
      (∀ rank, 1 ≤ rank → rank ≤ Nat.log2 4 + 1 →
        queryPageCounts last.state rank =
          .ok (maximalFreeCount 0x100000 last.live (Nat.log2 4 + 1) rank : Nat)) ∧
      (∀ otherCalls otherReplies other, (∀ call ∈ otherCalls, call.Passes (Near 0x100000)) →
        runFrom programStart 0x100000 4 otherCalls = .ok (otherReplies, other) →
        (∀ allocation, allocation ∈ last.live ↔ allocation ∈ other.live) →
          ∀ rank, queryPageCounts last.state rank = queryPageCounts other.state rank) ∧
      (∀ order : List UInt64, order.Perm (last.live.map Allocation.ptr) →
        (∀ ptr ∈ order, Near 0x100000 ptr) →
          ∃ final, last.run (order.map .returnPages) = .ok (order.map fun _ => .status ok, final) ∧
            final.live = [] ∧
            ∀ rank, 1 ≤ rank → rank ≤ Nat.log2 4 + 1 →
              queryPageCounts final.state rank =
                .ok (if rank = Nat.log2 4 + 1 then 1 else 0)) :=
  counts_of_live_blocks 0x100000 4 (by decide) (by decide) [.allocPages 1, .allocPages 1]
    (by decide)

end OsPractices.Buddy
