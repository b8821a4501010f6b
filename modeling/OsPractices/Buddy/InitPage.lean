import OsPractices.Buddy.ReturnPages

/-!
# `init_page`

Whatever the arrays held before, `init_page` leaves the pool with one free
block. The record of the page after the region is another matter: the loop over
`meta` covers it only when the page count is not a power of two.
-/

set_option autoImplicit false

namespace OsPractices.Buddy

open Library

/-! ## The loops -/

theorem log2Loop_eq (fuel num ret : Nat) (enough : num < 2 ^ fuel) (small : ret + num.log2 < 256) :
    log2Loop fuel num ret = ret + num.log2 := by
  induction fuel generalizing num ret with
  | zero =>
      have zero : num = 0 := by omega
      subst zero
      rfl
  | succ fuel ih =>
      rw [log2Loop]
      by_cases large : 1 < num
      · have halved : num.log2 = (num / 2).log2 + 1 := by
          rw [Nat.log2_def, if_pos (show 2 ≤ num by omega)]
        rw [if_pos large, u8_eq (ret + 1) (by push_cast; rfl) (by omega),
          ih (num / 2) (ret + 1) (by omega) (by omega), halved]
        omega
      · have done : num.log2 = 0 := by
          rw [Nat.log2_def, if_neg (show ¬ 2 ≤ num by omega)]
        rw [if_neg large, done, Nat.add_zero]

theorem log2_eq {num : Nat} (positive : 0 < num) (bound : num < 2 ^ 32) : log2 num = num.log2 := by
  have small : num.log2 < 32 := (Nat.log2_lt (by omega)).mpr bound
  rw [log2, if_neg (by omega), log2Loop_eq 32 num 0 bound (by omega), Nat.zero_add]

theorem clearBuckets_eq (ranks : List Nat) (state : State) (bound : ∀ i ∈ ranks, i ≤ maxRankNum) :
    ranks.foldlM (fun state i => state.setBucket i none) state =
      .ok { state with bucket := fun i => if i ∈ ranks then none else state.bucket i } := by
  induction ranks generalizing state with
  | nil => simp
  | cons rank rest ih =>
      rw [List.foldlM_cons, State.setBucket_eq _ (bound rank (.head _)), ok_bind,
        ih _ fun i member => bound i (.tail _ member)]
      congr 2
      funext i
      by_cases same : i = rank
      · simp [same]
      · simp [same]

theorem clearCounts_eq (ranks : List Nat) (state : State) (bound : ∀ i ∈ ranks, i ≤ maxRankNum) :
    ranks.foldlM (fun state i => state.setCount i 0) state =
      .ok { state with count := fun i => if i ∈ ranks then 0 else state.count i } := by
  induction ranks generalizing state with
  | nil => simp
  | cons rank rest ih =>
      rw [List.foldlM_cons, State.setCount_eq _ (bound rank (.head _)), ok_bind,
        ih _ fun i member => bound i (.tail _ member)]
      congr 2
      funext i
      by_cases same : i = rank
      · simp [same]
      · simp [same]

theorem clearMeta_eq (pages : List Nat) (state : State) (bound : ∀ i ∈ pages, i < maxPageNum) :
    pages.foldlM (fun state i => state.setMeta i listInitializer) state =
      .ok { state with
        metaArray := fun i => if i ∈ pages then listInitializer else state.metaArray i } := by
  induction pages generalizing state with
  | nil => simp
  | cons page rest ih =>
      rw [List.foldlM_cons, State.setMeta_eq _ (bound page (.head _)), ok_bind,
        ih _ fun i member => bound i (.tail _ member)]
      congr 2
      funext i
      by_cases same : i = page
      · simp [same]
      · simp [same]

/-- The state after the three loops. -/
def State.cleared (state : State) (p : UInt64) (pgcount height : Nat) : State where
  basePtr := p
  rankNum := height + 1
  count := fun i => if i ∈ List.range' 1 (height + 1) then 0 else state.count i
  bucket := fun i => if i ∈ List.range' 1 (height + 1) then none else state.bucket i
  metaArray := fun i => if i ∈ List.range pgcount then listInitializer else state.metaArray i

theorem freeLists_cleared (state : State) (p : UInt64) (pgcount height : Nat) :
    FreeLists (state.cleared p pgcount height) height fun _ => [] where
  inside block member := by cases member
  apart left right member := by cases member
  holds h bound := by
    refine ⟨?_, List.nodup_nil, trivial⟩
    have cleared : h + 1 ∈ List.range' 1 (height + 1) := List.mem_range'_1.mpr ⟨by omega, by omega⟩
    simp only [State.links, State.cleared, cleared, ↓reduceIte, starts, List.map_nil,
      List.head?_nil]

/-! ## The whole of `init_page` -/

/-- The height of the tree over a region of `pgcount` pages. -/
def heightOf (pgcount : Nat) : Nat := pgcount.log2

theorem heightOf_lt {pgcount : Nat} (positive : 0 < pgcount) (bound : pgcount < 2 ^ 20) :
    heightOf pgcount < maxRankNum :=
  (Nat.log2_lt (by omega)).mpr bound

theorem two_pow_heightOf_le {pgcount : Nat} (positive : 0 < pgcount) :
    2 ^ heightOf pgcount ≤ pgcount :=
  Nat.log2_self_le (by omega)

/-- What `init_page` needs of the state before it for the page after the region
to be harmless: the loop clears its record, the record was not in use, or there
is no address for that page. -/
def EndRecordUnused (state : State) (p : UInt64) (pgcount : Nat) : Prop :=
  2 ^ pgcount.log2 ≠ pgcount ∨ (state.metaArray pgcount).status = .undef ∨
    2 ^ 64 ≤ p.toNat + pgcount * pageSize

instance (state : State) (p : UInt64) (pgcount : Nat) :
    Decidable (EndRecordUnused state p pgcount) :=
  inferInstanceAs (Decidable (_ ∨ _ ∨ _))

/-- `init_page` on a legal page count, from any state. -/
theorem initPage_eq (state : State) (p : UInt64) {pgcount : Nat} (positive : 0 < pgcount)
    (bound : pgcount < 2 ^ 20) :
    ∃ next, initPage state p pgcount = .ok (ok, next) ∧ next.basePtr = p ∧
      next.rankNum = heightOf pgcount + 1 ∧
      FreeLists next (heightOf pgcount) (Pool.initial (heightOf pgcount)).free ∧
      (∀ h ≤ heightOf pgcount, next.count (h + 1) =
        ((Pool.initial (heightOf pgcount)).free h).length) ∧
      (∀ rank, rank = 0 ∨ heightOf pgcount + 1 < rank →
        next.bucket rank = state.bucket rank ∧ next.count rank = state.count rank) ∧
      ∀ page, next.label page =
        if page = 0 then (.unused, heightOf pgcount + 1, root)
        else if page < pgcount then (.undef, 0, 0)
        else state.label page := by
  have height := heightOf_lt positive bound
  have rank : u32 (log2 (u32 pgcount) + 1) = heightOf pgcount + 1 := by
    unfold maxRankNum at height
    rw [u32_eq pgcount rfl (by omega), log2_eq positive (by omega),
      show pgcount.log2 = heightOf pgcount from rfl]
    exact u32_eq _ rfl (by omega)
  have rankBound : heightOf pgcount + 1 ≤ maxRankNum := height
  have byte : u8 ((heightOf pgcount + 1 : Nat) : Int) = heightOf pgcount + 1 :=
    u8_eq _ rfl (by unfold maxRankNum at height; omega)
  have ranks : ∀ i ∈ List.range' 1 (heightOf pgcount + 1), i ≤ maxRankNum := by
    intro i member
    have range := List.mem_range'_1.mp member
    omega
  have pages : ∀ i ∈ List.range pgcount, i < maxPageNum := by
    intro i member
    exact (List.mem_range.mp member).trans bound
  have first : 0 < maxPageNum := by decide
  have lists := (freeLists_cleared state p pgcount (heightOf pgcount)).congr
    (samePointers_labelled _ 0 (heightOf pgcount + 1) root _)
  obtain ⟨pushed, push, relinked, pushedLists⟩ :=
    lists.push height (show (⟨heightOf pgcount, 0⟩ : DyadicBlock).Inside (heightOf pgcount) from
      ⟨le_rfl, by positivity⟩) (by intro other member; cases member)
  have count : pushed.count = fun i =>
      if i ∈ List.range' 1 (heightOf pgcount + 1) then 0 else state.count i := relinked.count
  refine ⟨{ pushed with
    count := Function.update pushed.count (heightOf pgcount + 1)
      (u32 (pushed.count (heightOf pgcount + 1) + 1)) }, ?_, relinked.basePtr, relinked.rankNum,
    ?_, ?_, ?_, ?_⟩
  · simp only [initPage, rank, clearBuckets_eq _ _ ranks, clearCounts_eq _ _ ranks, ok_bind,
      Int.toNat_natCast, clearMeta_eq _ _ pages, byte]
    rw [labelled_eq first]
    have pushed' : listPush ((state.cleared p pgcount (heightOf pgcount)).labelled 0
        (heightOf pgcount + 1) root) (heightOf pgcount + 1) 0 = .ok pushed := by
      simpa [DyadicBlock.start] using push
    unfold State.cleared at pushed'
    rw [pushed']
    simp only [ok_bind, State.getCount_eq _ rankBound, State.setCount_eq _ rankBound, pure_eq_ok]
  · have same : (Pool.initial (heightOf pgcount)).free =
        Function.update (fun _ => []) (heightOf pgcount) [0] := by
      funext h
      simp only [Pool.initial, Function.update_apply]
    rw [same]
    exact pushedLists.congr ⟨rfl, fun _ _ => ⟨rfl, rfl⟩⟩
  · intro h bound
    have inRange : h + 1 ∈ List.range' 1 (heightOf pgcount + 1) :=
      List.mem_range'_1.mpr ⟨by omega, by omega⟩
    simp only [count, Pool.initial]
    by_cases whole : h = heightOf pgcount
    · subst whole
      simp only [Function.update_self, inRange, ↓reduceIte]
      rfl
    · rw [Function.update_of_ne (by omega), if_pos inRange, if_neg whole]
      rfl
  · intro other outside
    have notRange : other ∉ List.range' 1 (heightOf pgcount + 1) := by
      intro member
      have range := List.mem_range'_1.mp member
      omega
    have different : other ≠ heightOf pgcount + 1 := by omega
    constructor
    · rw [relinked.bucket other different]
      simp only [State.labelled, State.cleared, if_neg notRange]
    · simp only [Function.update_of_ne different, count, if_neg notRange]
  · intro page
    refine (congrFun relinked.label page).trans ((label_update _ 0 page _).trans ?_)
    by_cases zero : page = 0
    · rw [if_pos zero, if_pos zero]
    · rw [if_neg zero, if_neg zero]
      simp only [State.label, State.cleared, List.mem_range]
      split
      · rfl
      · rfl

theorem Pool.blocks_initial (height : Nat) : (Pool.initial height).blocks = {⟨height, 0⟩} := by
  ext ⟨h, k⟩
  by_cases whole : h = height
  · simp [Pool.blocks, Pool.initial, whole]
  · simp [Pool.blocks, Pool.initial, whole]

/-- After `init_page` memory represents one free block. -/
theorem initPage_represents (state : State) (p : UInt64) {pgcount : Nat} (positive : 0 < pgcount)
    (bound : pgcount < 2 ^ 20) :
    ∃ next, initPage state p pgcount = .ok (ok, next) ∧ next.basePtr = p ∧
      (∀ rank, rank = 0 ∨ heightOf pgcount + 1 < rank →
        next.bucket rank = state.bucket rank ∧ next.count rank = state.count rank) ∧
      (PastEnd p next (heightOf pgcount) ↔ EndRecordUnused state p pgcount) ∧
      Represents next (Pool.initial (heightOf pgcount)) none := by
  obtain ⟨next, result, base, rankNum, lists, counts, outside, label⟩ :=
    initPage_eq state p positive bound
  have whole := two_pow_heightOf_le positive
  have notZero : 2 ^ heightOf pgcount ≠ 0 := by positivity
  refine ⟨next, result, base, outside, ?_, ?_⟩
  · have atEnd := congrArg Prod.fst (label (2 ^ heightOf pgcount))
    rw [if_neg notZero] at atEnd
    by_cases power : 2 ^ heightOf pgcount = pgcount
    · rw [power, if_neg (lt_irrefl _)] at atEnd
      have status : (next.metaArray pgcount).status = (state.metaArray pgcount).status := atEnd
      unfold PastEnd EndRecordUnused
      rw [power, status, show 2 ^ pgcount.log2 = pgcount from power]
      simp
    · rw [if_pos (by omega)] at atEnd
      exact iff_of_true (.inl atEnd) (.inl power)
  · constructor
    case small => exact heightOf_lt positive bound
    case rankNum => exact rankNum
    case lists => exact lists
    case counts => exact counts
    case unused =>
      intro block free
      have member : block ∈ (Pool.initial (heightOf pgcount)).blocks := .inl free
      rw [Pool.blocks_initial] at member
      cases member
      rw [label, DyadicBlock.start, Nat.zero_mul, if_pos rfl, treeIndex]
      simp [Pool.initial, root]
    case used =>
      intro block live
      cases live
    case undef =>
      intro page inRegion outside
      have notFirst : page ≠ 0 := by
        intro zero
        exact outside ⟨heightOf pgcount, 0⟩ (by rw [Pool.blocks_initial]; rfl)
          (by simp [DyadicBlock.start, zero])
      have cleared : page < pgcount := lt_of_lt_of_le inRegion whole
      rw [label, if_neg notFirst, if_pos cleared]

theorem initPage_blank (p : UInt64) {pgcount : Nat} (positive : 0 < pgcount)
    (bound : pgcount < 2 ^ 20) {start : State}
    (init : initPage programStart p pgcount = .ok (ok, start)) : Blank start (heightOf pgcount) := by
  obtain ⟨other, otherInit, _, _, _, _, _, label⟩ := initPage_eq programStart p positive bound
  cases init.symm.trans otherInit
  intro page past
  have notFirst : page ≠ 0 :=
    Nat.pos_iff_ne_zero.mp (Nat.lt_of_lt_of_le (Nat.two_pow_pos (heightOf pgcount)) past)
  have status := congrArg Prod.fst (label page)
  rw [if_neg notFirst] at status
  refine status.trans ?_
  split
  case isTrue => rfl
  case isFalse => rfl

end OsPractices.Buddy
