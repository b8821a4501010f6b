import OsPractices.Buddy.BestFit

/-!
# What `return_pages` and `query_ranks` answer

Both read the record of one page. `return_pages` accepts exactly the addresses
of live allocations. `query_ranks` knows a free block by its first page only.
-/

set_option autoImplicit false

namespace OsPractices.Buddy

open Library

/-! ## `return_pages` -/

section

variable {base : UInt64} {session : Session} {pool : Pool}

/-- The live block at a near address is the one whose address it is. -/
theorem Tracks.lookup_live_iff (tracks : Tracks base session pool) {ptr : UInt64}
    (near : Near base ptr) {block : DyadicBlock} :
    (pool.lookup base ptr).filter (· ∈ pool.live) = some block ↔
      block ∈ pool.live ∧ ptr = pageAddress base block.start := by
  rw [Option.filter_eq_some_iff, decide_eq_true_eq]
  constructor
  · intro found
    exact ⟨found.2, (lookup_address tracks.valid found.1).2⟩
  · intro ⟨live, address⟩
    subst address
    exact ⟨lookup_near tracks.valid tracks.represents.small (.inr live) near, live⟩

theorem Tracks.returnPages_iff (tracks : Tracks base session pool) {ptr : UInt64}
    (near : Near base ptr) :
    ∃ value next, returnPages session.state ptr = .ok (value, next) ∧
      (value = ok ↔ ptr ∈ session.live.map Allocation.ptr) ∧
      (value ≠ ok → value = -einval ∧ next = session.state) := by
  have address : ∀ block : DyadicBlock, (entryOf base block).ptr = pageAddress base block.start :=
    fun _ => rfl
  have basePtr := tracks.basePtr
  have result := returnPages_represents tracks.valid tracks.represents
    (basePtr.symm ▸ tracks.past) (basePtr.symm ▸ near.measured)
  rw [basePtr] at result
  have live : ptr ∈ session.live.map Allocation.ptr ↔
      ∃ block ∈ pool.live, ptr = pageAddress base block.start := by
    rw [tracks.live, List.map_map, List.mem_map]
    simp only [Function.comp_apply, eq_comm]
  rw [live]
  cases found : (pool.lookup base ptr).filter (· ∈ pool.live) with
  | none =>
      simp only [found] at result
      refine ⟨-einval, session.state, result, iff_of_false (by decide) ?_, fun _ => ⟨rfl, rfl⟩⟩
      intro ⟨block, held⟩
      rw [(tracks.lookup_live_iff near).mpr held] at found
      cases found
  | some block =>
      simp only [found] at result
      obtain ⟨-, after, returned, -⟩ := result
      refine ⟨ok, after, returned, iff_of_true rfl ?_, fun refused => absurd rfl refused⟩
      exact ⟨block, (tracks.lookup_live_iff near).mp found⟩

/-! A pointer `2 ^ 63` bytes or more above the base has a negative distance, which
`is_valid_ptr` admits; the low 32 bits of the distance give the page. -/

/-- The call passes no such pointer to `return_pages` for the page of a live
allocation. -/
def Session.Measures (base : UInt64) (session : Session) : Call → Prop
  | .returnPages q => Measured base q ∨
      pageAddress base (ptrToPage session.state q) ∉ session.live.map Allocation.ptr
  | _ => True

instance (base : UInt64) (session : Session) : (call : Call) →
    Decidable (session.Measures base call)
  | .allocPages _ => .isTrue trivial
  | .returnPages _ => inferInstanceAs (Decidable (_ ∨ _))
  | .queryRanks _ => .isTrue trivial
  | .queryPageCounts _ => .isTrue trivial

/-- The same of all calls of a run, each in the state that it is made in. -/
def Session.measures (base : UInt64) (session : Session) : List Call → Bool
  | [] => true
  | call :: calls => decide (session.Measures base call) &&
      match session.step call with
      | .ok (_, next) => next.measures base calls
      | .error _ => true

/-- The same of the calls after `init_page` at program start. -/
def measuresFrom (p : UInt64) (pgcount : Int) (calls : List Call) : Bool :=
  match initPage programStart p pgcount with
  | .ok (_, state) => Session.measures p ⟨state, []⟩ calls
  | .error _ => true

/-- The record of a page where no live allocation starts is not in use. -/
theorem Tracks.not_used (tracks : Tracks base session pool) (blank : Blank session.state pool.height)
    {page : Nat} (free : pageAddress base page ∉ session.live.map Allocation.ptr) :
    (session.state.metaArray page).status ≠ .used := by
  by_cases inside : page < 2 ^ pool.height
  · have record := tracks.represents.record tracks.valid inside
    cases found : pool.blockAt page with
    | none =>
        simp only [found] at record
        simp [record]
    | some block =>
        simp only [found] at record
        obtain ⟨_, start⟩ := tracks.valid.blockAt_eq_some.mp found
        have notLive : block ∉ pool.live := by
          intro live
          apply free
          rw [tracks.live, List.map_map, ← start]
          exact List.mem_map_of_mem live
        simp [record.1, notLive]
  · simp [blank page (Nat.le_of_not_lt inside)]

theorem Tracks.returnPages_unused (tracks : Tracks base session pool)
    (blank : Blank session.state pool.height) {ptr : UInt64}
    (free : pageAddress base (ptrToPage session.state ptr) ∉ session.live.map Allocation.ptr) :
    returnPages session.state ptr = .ok (-einval, session.state) := by
  obtain ⟨valid, test⟩ := isValidPtr_total tracks.represents ptr
  have notUsed := tracks.not_used blank free
  cases valid with
  | false => simp [returnPages, test]
  | true => simp [returnPages, test, State.getMeta_eq _ (ptrToPage_lt _ ptr), notUsed]

/-- Besides the calls that `step_tracks` covers, those with a pointer that is not
measured right leave the session alone. -/
theorem Tracks.step_measures (tracks : Tracks base session pool)
    (blank : Blank session.state pool.height) {call : Call} (measures : session.Measures base call) :
    ∃ reply next after, session.step call = .ok (reply, next) ∧ Tracks base next after ∧
      Blank next.state after.height := by
  by_cases measured : call.Passes (Measured base)
  · obtain ⟨next, step, tracks', within, height⟩ := step_tracks tracks measured
    exact ⟨_, next, _, step, tracks', height.symm ▸ blank.of_within within⟩
  · cases call with
    | allocPages rank => exact absurd trivial measured
    | returnPages q =>
        have refused := tracks.returnPages_unused blank (measures.resolve_left measured)
        exact ⟨.status (-einval), session, pool, by simp [Session.step, exec, refused, ledger, einval,
          ok], tracks, blank⟩
    | queryRanks q =>
        obtain ⟨value, answered⟩ : ∃ value, queryRanks session.state q = .ok value := by
          obtain ⟨valid, test⟩ := isValidPtr_total tracks.represents q
          cases valid with
          | false => exact ⟨-einval, by simp [queryRanks, test]⟩
          | true => simp [queryRanks, test, State.getMeta_eq _ (ptrToPage_lt _ q)]
        exact ⟨.status value, session, pool, by simp [Session.step, exec, answered, ledger], tracks,
          blank⟩
    | queryPageCounts rank => exact absurd trivial measured

theorem Tracks.run_measures {calls : List Call} (tracks : Tracks base session pool)
    (blank : Blank session.state pool.height) (measures : session.measures base calls = true) :
    ∃ replies last after, session.run calls = .ok (replies, last) ∧ Tracks base last after := by
  induction calls generalizing session pool with
  | nil => exact ⟨[], session, pool, rfl, tracks⟩
  | cons call calls ih =>
      simp only [Session.measures, Bool.and_eq_true, decide_eq_true_eq] at measures
      obtain ⟨first, following⟩ := measures
      obtain ⟨reply, next, middle, step, nextTracks, nextBlank⟩ := tracks.step_measures blank first
      simp only [step] at following
      obtain ⟨replies, last, after, rest, lastTracks⟩ := ih nextTracks nextBlank following
      refine ⟨reply :: replies, last, after, ?_, lastTracks⟩
      simp only [Session.run, step, ok_bind, rest, pure_eq_ok]

end

/-- `return_pages` accepts exactly the addresses of live allocations, and
refuses any other one without a change. -/
theorem return_accepts_live (base : UInt64) (pgcount : Nat) (positive : 1 ≤ pgcount)
    (bound : pgcount < 2 ^ 20) (calls : List Call)
    (measures : measuresFrom base pgcount calls = true) :
    ∃ replies last, runFrom programStart base pgcount calls = .ok (replies, last) ∧
      ∀ q, Near base q → ∃ value next, returnPages last.state q = .ok (value, next) ∧
        (value = ok ↔ q ∈ last.live.map Allocation.ptr) ∧
        (value ≠ ok → value = -einval ∧ next = last.state) := by
  obtain ⟨start, init, basePtr, _, pastEnd, represents⟩ :=
    initPage_represents programStart base positive bound
  have tracks : Tracks base ⟨start, []⟩ (Pool.initial (heightOf pgcount)) :=
    ⟨represents, basePtr, pastEnd.mpr (endRecordUnused_programStart base pgcount),
      Pool.Valid.initial _, Pool.Canonical.initial _, rfl⟩
  have blank := initPage_blank base positive bound init
  simp only [measuresFrom, init] at measures
  obtain ⟨replies, last, pool, run, lastTracks⟩ := tracks.run_measures blank measures
  refine ⟨replies, last, ?_, fun q near => lastTracks.returnPages_iff near⟩
  simp only [runFrom, init, ok_bind, run]

/-- A block is returned twice, and between this the far pointer of a page inside a
live block. -/
theorem return_accepts_live_double_return :
    ∃ replies last, runFrom programStart 0x100000 4
        [.allocPages 2, .allocPages 1, .queryRanks 0x8000000000100000,
          .returnPages 0x8000000000101000, .returnPages 0x100000] = .ok (replies, last) ∧
      ∀ q, Near 0x100000 q → ∃ value next, returnPages last.state q = .ok (value, next) ∧
        (value = ok ↔ q ∈ last.live.map Allocation.ptr) ∧
        (value ≠ ok → value = -einval ∧ next = last.state) :=
  return_accepts_live 0x100000 4 (by decide) (by decide)
    [.allocPages 2, .allocPages 1, .queryRanks 0x8000000000100000,
      .returnPages 0x8000000000101000, .returnPages 0x100000] (by decide +kernel)

/-- `return_pages` takes an address `2 ^ 63` bytes above the base for page 0 and
takes back its block; then the block itself is refused, though it has never been
returned. -/
theorem far_return_accepted :
    ∃ last, runFrom programStart 0x100000 1 [.allocPages 1, .returnPages 0x8000000000100000] =
        .ok ([.pages 0x100000, .status ok], last) ∧
      Near 0x100000 0x100000 ∧ (0x100000 : UInt64) ∈ last.live.map Allocation.ptr ∧
      ∃ next, returnPages last.state 0x100000 = .ok (-einval, next) := by
  have executed : (do
      let ran ← runFrom programStart 0x100000 1 [.allocPages 1, .returnPages 0x8000000000100000]
      let returned ← returnPages ran.2.state 0x100000
      pure (ran.1, ran.2.live.map Allocation.ptr, returned.1)) =
      (.ok ([.pages 0x100000, .status ok], [0x100000], -einval) :
        Except Fault (List Reply × List UInt64 × Int)) := rfl
  obtain ⟨⟨replies, last⟩, run, refused⟩ := bind_eq_ok_iff.mp executed
  obtain ⟨⟨value, next⟩, returned, values⟩ := bind_eq_ok_iff.mp refused
  simp only [pure_eq_ok, Except.ok.injEq, Prod.mk.injEq] at values
  obtain ⟨rfl, live, rfl⟩ := values
  exact ⟨last, run, by decide, by simp [live], next, returned⟩

/-! ## `query_ranks` -/

/-- The aligned block of a rank around a page has no live page. -/
def ClearAround (base : UInt64) (live : List Allocation) (page rank : Nat) : Prop :=
  ∀ other, other / 2 ^ (rank - 1) = page / 2 ^ (rank - 1) → ¬ LivePage base live other

/-- The rank of the largest free aligned block around a page. -/
structure LargestFree (base : UInt64) (live : List Allocation) (rankNum page rank : Nat) :
    Prop where
  low : 1 ≤ rank
  high : rank ≤ rankNum
  clear : ClearAround base live page rank
  largest : ∀ higher, rank < higher → higher ≤ rankNum → ¬ ClearAround base live page higher

/-- What the specification says about the page at `q`. -/
structure QueryDocumented (base : UInt64) (session : Session) (page : Nat) (q : UInt64) : Prop where
  free : ¬ LivePage base session.live page → ∀ rank,
    LargestFree base session.live session.state.rankNum page rank →
      queryRanks session.state q = .ok (rank : Int)
  live : ∀ allocation ∈ session.live, allocation.ptr = q →
    queryRanks session.state q = .ok (allocation.rank : Int)

section

variable {base : UInt64} {session : Session} {pool : Pool}

theorem Tracks.clearAround_iff (tracks : Tracks base session pool) {page h : Nat} :
    ClearAround base session.live page (h + 1) ↔
      ∀ busy ∈ pool.live, ¬ busy.Overlaps ⟨h, page / 2 ^ h⟩ := by
  constructor
  · intro clear busy live ⟨other, inBusy, inBlock⟩
    exact clear other inBlock (tracks.livePage_iff.mpr ⟨busy, live, inBusy⟩)
  · intro clear other inBlock livePage
    obtain ⟨busy, live, inBusy⟩ := tracks.livePage_iff.mp livePage
    exact clear busy live ⟨other, inBusy, inBlock⟩

/-- The largest free block around a page is the free block it lies in. -/
theorem Tracks.largestFree_iff (tracks : Tracks base session pool) {page rank : Nat}
    {tile : DyadicBlock} (free : tile.pos ∈ pool.free tile.height) (covers : tile.Covers page) :
    LargestFree base session.live (pool.height + 1) page rank ↔ rank = tile.height + 1 := by
  have inside := tracks.valid.inside (.inl free)
  have isTile : (⟨tile.height, page / 2 ^ tile.height⟩ : DyadicBlock) = tile :=
    @DyadicBlock.ext_of_covers _ tile page rfl rfl covers
  have clear : ClearAround base session.live page (tile.height + 1) := by
    rw [tracks.clearAround_iff, isTile]
    intro busy live overlaps
    have same := tracks.valid.tiles.apart busy (.inr live) tile (.inl free) overlaps
    subst same
    exact tracks.valid.apart busy live free
  have largest : ∀ higher, tile.height + 1 < higher → higher ≤ pool.height + 1 →
      ¬ ClearAround base session.live page higher := by
    intro higher above inRange clearHigher
    obtain ⟨h, rfl⟩ : ∃ h, higher = h + 1 := ⟨higher - 1, by omega⟩
    have below : tile.height < pool.height := by omega
    obtain ⟨busy, live, cell, inBusy, beside⟩ := tracks.canonical tile free below
    apply tracks.clearAround_iff.mp clearHigher busy live
    refine ⟨cell, inBusy, ?_⟩
    exact DyadicBlock.covers_of_le tile.parent ⟨h, page / 2 ^ h⟩ (show tile.height + 1 ≤ h by omega)
      (DyadicBlock.covers_parent_iff.mpr (.inl covers)) rfl
      (DyadicBlock.covers_parent_iff.mpr (.inr beside))
  constructor
  · intro found
    rcases lt_trichotomy rank (tile.height + 1) with less | same | more
    · exact absurd clear (found.largest _ less (Nat.succ_le_succ inside.1))
    · exact same
    · exact absurd found.clear (largest rank more found.high)
  · intro same
    subst same
    exact ⟨Nat.succ_pos _, Nat.succ_le_succ inside.1, clear, largest⟩

theorem Tracks.queryRanks_page (tracks : Tracks base session pool) {page : Nat} {q : UInt64}
    (address : q.toNat = base.toNat + page * pageSize) (bound : page < 2 ^ pool.height) :
    queryRanks session.state q = .ok (match pool.blockAt page with
      | none => -einval
      | some block => (block.height + 1 : Nat)) := by
  have basePtr := tracks.basePtr
  have pages := two_pow_le tracks.represents.small
  have near : Measured base q := by
    left
    unfold pageSize pageBits at address
    omega
  have result := queryRanks_eq tracks.valid tracks.represents
    (basePtr.symm ▸ tracks.past) (basePtr.symm ▸ near)
  rw [basePtr, Pool.lookup, pageOf_eq_some.mpr address, Option.bind_some] at result
  exact result

theorem Tracks.queryRanks_live (tracks : Tracks base session pool) {page : Nat} {q : UInt64}
    (address : q.toNat = base.toNat + page * pageSize) (bound : page < 2 ^ pool.height)
    {allocation : Allocation} (live : allocation ∈ session.live) (atQ : allocation.ptr = q) :
    queryRanks session.state q = .ok (allocation.rank : Int) := by
  rw [tracks.live] at live
  obtain ⟨block, inLive, rfl⟩ := List.mem_map.mp live
  have inside := tracks.valid.inside (.inr inLive)
  have distance := offset_pageAddress base (start_lt_maxPageNum tracks.represents.small inside)
  have start : block.start = page := by
    have small := q.toNat_lt
    change pageAddress base block.start = q at atQ
    rw [atQ, offset, UInt64.toNat_sub_of_le _ _ (UInt64.le_iff_toNat_le.mpr (by omega)), address,
      Nat.add_sub_cancel_left] at distance
    exact (Nat.eq_of_mul_eq_mul_right (by decide) distance).symm
  have found := tracks.valid.blockAt_eq_some.mpr ⟨.inr inLive, start⟩
  rw [tracks.queryRanks_page address bound, found]

theorem start_eq_iff {tile : DyadicBlock} {page : Nat} (covers : tile.Covers page) :
    tile.start = page ↔ page % 2 ^ tile.height = 0 := by
  have parts := Nat.div_add_mod' page (2 ^ tile.height)
  rw [show page / 2 ^ tile.height = tile.pos from covers] at parts
  change tile.pos * 2 ^ tile.height = page ↔ _
  omega

/-- The answer is as documented exactly at allocated pages and at the first page
of a free block. -/
theorem Tracks.queryDocumented_iff (tracks : Tracks base session pool) {page : Nat} {q : UInt64}
    (address : q.toNat = base.toNat + page * pageSize) (bound : page < 2 ^ pool.height) :
    QueryDocumented base session page q ↔ LivePage base session.live page ∨
      ∃ rank, LargestFree base session.live session.state.rankNum page rank ∧
        page % 2 ^ (rank - 1) = 0 := by
  have answer := tracks.queryRanks_page address bound
  have heldAnswer : ∀ allocation ∈ session.live, allocation.ptr = q →
      queryRanks session.state q = .ok (allocation.rank : Int) :=
    fun allocation live atQ => tracks.queryRanks_live address bound live atQ
  obtain ⟨tile, member, covers⟩ := tracks.valid.tiles.cover page bound
  cases member with
  | inr live =>
      have livePage := tracks.livePage_iff.mpr ⟨tile, live, covers⟩
      exact iff_of_true ⟨fun free => absurd livePage free, heldAnswer⟩ (.inl livePage)
  | inl free =>
      have clear : ¬ LivePage base session.live page := by
        intro livePage
        obtain ⟨busy, live, inBusy⟩ := tracks.livePage_iff.mp livePage
        have same := tracks.valid.tiles.apart busy (.inr live) tile (.inl free)
          ⟨page, inBusy, covers⟩
        subst same
        exact tracks.valid.apart busy live free
      rw [or_iff_right clear, tracks.represents.rankNum]
      simp only [tracks.largestFree_iff free covers, exists_eq_left, Nat.add_sub_cancel]
      rw [← start_eq_iff covers]
      constructor
      · intro documented
        have isRank := documented.free clear (tile.height + 1)
          (by rw [tracks.represents.rankNum]; exact (tracks.largestFree_iff free covers).mpr rfl)
        rw [answer] at isRank
        cases found : pool.blockAt page with
        | none =>
            simp only [found, Except.ok.injEq] at isRank
            cases isRank
        | some block =>
            obtain ⟨inBlocks, start⟩ := tracks.valid.blockAt_eq_some.mp found
            have same := tracks.valid.tiles.apart block inBlocks tile (.inl free)
              ⟨page, start ▸ block.covers_start, covers⟩
            exact same ▸ start
      · intro start
        refine ⟨?_, heldAnswer⟩
        intro _ rank largest
        rw [tracks.represents.rankNum] at largest
        rw [answer, tracks.valid.blockAt_eq_some.mpr ⟨.inl free, start⟩,
          (tracks.largestFree_iff free covers).mp largest]

end

/-- `query_ranks` answers as documented exactly when the page is allocated or is
the first page of the largest free block around it. -/
theorem query_documented_iff (base : UInt64) (pgcount : Nat) (positive : 1 ≤ pgcount)
    (bound : pgcount < 2 ^ 20) (calls : List Call)
    (client : returnsLiveFrom base pgcount calls = true) :
    ∃ replies last, runFrom programStart base pgcount calls = .ok (replies, last) ∧
      ∀ (q : UInt64) (page : Nat), q.toNat = base.toNat + page * pageSize →
        page < 2 ^ pgcount.log2 →
          (QueryDocumented base last page q ↔ LivePage base last.live page ∨
            ∃ rank, LargestFree base last.live last.state.rankNum page rank ∧
              page % 2 ^ (rank - 1) = 0) := by
  obtain ⟨replies, last, pool, run, tracks, height, -⟩ := clientRun_tracks base positive bound client
  refine ⟨replies, last, run, ?_⟩
  intro q page address inRegion
  exact tracks.queryDocumented_iff address (height.symm ▸ inRegion)

theorem query_documented_iff_in_use :
    ∃ replies last, runFrom programStart 0x100000 8 [.allocPages 1, .allocPages 2] =
        .ok (replies, last) ∧
      ∀ (q : UInt64) (page : Nat), q.toNat = (0x100000 : UInt64).toNat + page * pageSize →
        page < 2 ^ Nat.log2 8 →
          (QueryDocumented 0x100000 last page q ↔ LivePage 0x100000 last.live page ∨
            ∃ rank, LargestFree 0x100000 last.live last.state.rankNum page rank ∧
              page % 2 ^ (rank - 1) = 0) :=
  query_documented_iff 0x100000 8 (by decide) (by decide) [.allocPages 1, .allocPages 2]
    (by decide +kernel)

/-- Two free pages: the second one belongs to a free block of rank 2, and
`query_ranks` refuses its address. -/
theorem query_refuses_inner_page :
    ∃ last, runFrom programStart 0x100000 2 [] = .ok ([], last) ∧
      queryRanks last.state 0x101000 = .ok (-einval) ∧
      ¬ QueryDocumented 0x100000 last 1 0x101000 := by
  have shown : (do
      let result ← runFrom programStart 0x100000 2 []
      let answer ← queryRanks result.2.state 0x101000
      pure (result.1, answer, result.2.live, result.2.state.rankNum)) =
        .ok ([], -einval, [], 2) := by
    decide +kernel
  obtain ⟨⟨replies, last⟩, run, rest⟩ := bind_eq_ok_iff.mp shown
  obtain ⟨answer, query, facts⟩ := bind_eq_ok_iff.mp rest
  simp only [pure_eq_ok, Except.ok.injEq, Prod.mk.injEq] at facts
  obtain ⟨rfl, rfl, live, rankNum⟩ := facts
  have noLive : ∀ page, ¬ LivePage 0x100000 last.live page := by
    intro page isLive
    obtain ⟨allocation, member, _⟩ := isLive
    rw [live] at member
    cases member
  refine ⟨last, run, query, ?_⟩
  intro documented
  have isTwo := documented.free (noLive 1) 2
    ⟨by decide, rankNum.ge, fun other _ => noLive other, fun higher above inRange => by omega⟩
  rw [query] at isTwo
  cases isTwo

end OsPractices.Buddy
