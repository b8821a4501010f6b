import OsPractices.Buddy.AllocPages

/-!
# `return_pages` refines release into a pool

The merging loop carries the returned block in hand. Its test on the buddy's
record, rank first and then status, succeeds exactly when the buddy is a free
block of the same size: a record that is stale says `UNDEF`.
-/

set_option autoImplicit false

namespace OsPractices.Buddy

open Library

variable {state : State} {pool : Pool} {hand : DyadicBlock}

/-! ## The merging loop -/

theorem hand_start_ne (valid : pool.Valid) (live : hand ∈ pool.live) {other : DyadicBlock}
    (free : other.pos ∈ pool.free other.height) : other.start ≠ hand.start := by
  apply valid.start_ne (.inl free) (.inr live)
  intro same
  exact valid.apart hand live (same ▸ free)

/-- What the loop reads from the buddy's record. -/
theorem buddy_record_iff (valid : pool.Valid) (represents : Represents state pool (some hand))
    (live : hand ∈ pool.live) (below : hand.height < pool.height) :
    ((state.metaArray hand.buddy.start).rank = hand.height + 1 ∧
      (state.metaArray hand.buddy.start).status = .unused) ↔
        hand.buddy.pos ∈ pool.free hand.height := by
  have inside := (valid.inside (.inr live)).buddy below
  constructor
  · intro ⟨rank, status⟩
    by_cases found : ∃ tile ∈ pool.blocks, tile.start = hand.buddy.start
    · obtain ⟨tile, member, start⟩ := found
      rcases member with free | tileLive
      · have label := represents.unused tile free
        have height : tile.height = hand.buddy.height := by
          have sameRank := congrArg (fun label => label.2.1) label
          simp only [State.label, start, rank] at sameRank
          exact (Nat.succ.inj sameRank).symm
        have same := DyadicBlock.ext_of_start height start
        subst same
        exact free
      · have notHand : some tile ≠ some hand := by
          intro same
          cases same
          exact hand.buddy_ne (DyadicBlock.ext_of_start rfl start.symm)
        have label := represents.used tile tileLive notHand
        have sameStatus := congrArg Prod.fst label
        simp [State.label, start, status] at sameStatus
    · have undef := represents.undef hand.buddy.start inside.start_lt
        fun tile member start => found ⟨tile, member, start⟩
      simp [State.label, status] at undef
  · intro free
    have label := represents.unused hand.buddy free
    simp only [State.label, Prod.mk.injEq] at label
    exact ⟨label.2.1, label.1⟩

/-- `node->status = buddy->status = UNDEF` -/
def State.merged (state : State) (hand : DyadicBlock) : State :=
  let marked := Function.update state.metaArray hand.buddy.start
    { state.metaArray hand.buddy.start with status := .undef }
  { state with
    metaArray := Function.update marked hand.start { marked hand.start with status := .undef } }

theorem metaArray_merged (state : State) (hand : DyadicBlock) (page : Nat) :
    (state.merged hand).metaArray page =
      if page = hand.start ∨ page = hand.buddy.start then
        { state.metaArray page with status := .undef }
      else state.metaArray page := by
  simp only [State.merged, Function.update_apply]
  by_cases isHand : page = hand.start
  · subst isHand
    by_cases isBuddy : hand.start = hand.buddy.start
    · simp [← isBuddy]
    · simp [isBuddy]
  · by_cases isBuddy : page = hand.buddy.start
    · subst isBuddy
      simp [isHand]
    · simp [isHand, isBuddy]

theorem samePointers_merged (state : State) (hand : DyadicBlock) (free : Nat → List Nat) :
    SamePointers free state (state.merged hand) := by
  constructor
  · rfl
  · intro block _
    rw [metaArray_merged]
    split
    · exact ⟨rfl, rfl⟩
    · exact ⟨rfl, rfl⟩

theorem label_merged (state : State) (hand : DyadicBlock) (page : Nat) :
    (state.merged hand).label page =
      if page = hand.start ∨ page = hand.buddy.start then (.undef, (state.label page).2)
      else state.label page := by
  simp only [State.label, metaArray_merged]
  split
  · rfl
  · rfl

/-- A turn of the loop that finds a free buddy. -/
theorem mergeTurn_represents (valid : pool.Valid) (represents : Represents state pool (some hand))
    (live : hand ∈ pool.live) (below : hand.height < pool.height)
    (free : hand.buddy.pos ∈ pool.free hand.height) :
    ∃ unlinked, listRemove (state.merged hand) (hand.height + 1) hand.buddy.start = .ok unlinked ∧
      Within pool.height state unlinked ∧
      Represents { unlinked with
          count := Function.update unlinked.count (hand.height + 1)
            (u32 (unlinked.count (hand.height + 1) - 1)) }
        (pool.mergeBuddy hand) (some hand.parent) := by
  have marked := represents.lists.congr (samePointers_merged state hand pool.free)
  obtain ⟨unlinked, remove, relinked, lists⟩ :=
    marked.remove represents.small (valid.freeNodup hand.buddy.height) free
  have marks : Within pool.height state (state.merged hand) :=
    (Within.refl pool.height state).setMeta _ fun page past => by
      have handBound := (valid.inside (.inr live)).start_lt
      have buddyBound := (valid.inside (.inl free)).start_lt
      exact (label_merged state hand page).trans (if_neg (by omega))
  refine ⟨unlinked, remove, marks.trans (relinked.within (valid.inside (.inr live)).1), ?_⟩
  have label : ∀ page, unlinked.label page = (state.merged hand).label page :=
    congrFun relinked.label
  have count : unlinked.count = state.count := relinked.count
  have low : hand.height ≤ pool.height := by omega
  have remaining := @Pool.mem_update_erase pool.free hand.buddy (valid.freeNodup _)
  have kept : ∀ other ∈ pool.blocks, other ≠ hand → other ≠ hand.buddy →
      unlinked.label other.start = state.label other.start := by
    intro other member notHand notBuddy
    have elsewhere : ¬ (other.start = hand.start ∨ other.start = hand.buddy.start) := by
      intro same
      cases same with
      | inl same => exact valid.start_ne member (.inr live) notHand same
      | inr same => exact valid.start_ne member (.inl free) notBuddy same
    rw [label, label_merged, if_neg elsewhere]
  constructor
  case small => exact represents.small
  case rankNum => exact relinked.rankNum.trans represents.rankNum
  case lists => exact lists.congr ⟨rfl, fun _ _ => ⟨rfl, rfl⟩⟩
  case counts =>
    intro other bound
    have old := represents.counts other bound
    have small := represents.count_lt valid other
    by_cases same : other = hand.height
    · subst same
      have positive := List.length_pos_of_mem free
      simp only [count, Pool.mergeBuddy, Function.update_self, old, List.length_erase_of_mem free]
      exact u32_eq _ (by omega) (by omega)
    · simp only [count, Pool.mergeBuddy]
      rw [Function.update_of_ne (by omega), Function.update_of_ne same]
      exact old
  case unused =>
    intro block inFree
    obtain ⟨old, notBuddy⟩ := (remaining block).mp inFree
    have notHand : block ≠ hand := by
      intro same
      exact valid.apart hand live (same ▸ old)
    exact (kept block (.inl old) notHand notBuddy).trans (represents.unused block old)
  case used =>
    intro block inLive notParent
    rcases List.mem_cons.mp inLive with same | rest
    · exact absurd (congrArg some same) notParent
    · obtain ⟨notHand, old⟩ := valid.liveNodup.mem_erase_iff.mp rest
      have notBuddy : block ≠ hand.buddy := by
        intro same
        exact valid.apart block old (same ▸ free)
      exact (kept block (.inr old) notHand notBuddy).trans
        (represents.used block old fun same => notHand (Option.some.inj same))
  case undef =>
    intro page bound outside
    refine (congrArg Prod.fst ((label page).trans (label_merged state hand page))).trans ?_
    by_cases merged : page = hand.start ∨ page = hand.buddy.start
    · rw [if_pos merged]
    · rw [if_neg merged]
      apply represents.undef page bound
      intro block member start
      have notHand : block ≠ hand := fun same => merged (.inl (same ▸ start.symm))
      have notBuddy : block ≠ hand.buddy := fun same => merged (.inr (same ▸ start.symm))
      apply outside block _ start
      rcases member with inFree | inLive
      · exact .inl ((remaining block).mpr ⟨inFree, notBuddy⟩)
      · exact .inr (.tail _ (valid.liveNodup.mem_erase_iff.mpr ⟨notHand, inLive⟩))

theorem mergeLoop_represents (fuel gap : Nat) (valid : pool.Valid)
    (represents : Represents state pool (some hand)) (live : hand ∈ pool.live)
    (bound : pool.height - hand.height ≤ gap) (enough : gap < fuel) :
    ∃ next, mergeLoop fuel state (hand.height + 1) (treeIndex pool.height hand) =
        .ok (next, (Pool.mergeUp gap pool hand).2.height + 1,
          treeIndex pool.height (Pool.mergeUp gap pool hand).2) ∧
      Represents next (Pool.mergeUp gap pool hand).1 (some (Pool.mergeUp gap pool hand).2) ∧
      Within pool.height state next := by
  induction gap generalizing fuel state pool hand with
  | zero =>
      cases fuel with
      | zero => omega
      | succ fuel =>
          refine ⟨state, ?_, represents, Within.refl _ _⟩
          rw [mergeLoop, represents.rankNum, if_neg (by omega)]
          rfl
  | succ gap ih =>
      cases fuel with
      | zero => omega
      | succ fuel =>
          have small := represents.small
          rw [mergeLoop, represents.rankNum, Pool.mergeUp]
          by_cases below : hand.height < pool.height
          · have inside := valid.inside (.inr live)
            have buddyInside := inside.buddy below
            have low : hand.height + 1 ≤ maxRankNum := by omega
            have nodeBound := start_lt_maxPageNum small inside
            have otherBound := start_lt_maxPageNum small buddyInside
            have record := buddy_record_iff valid represents live below
            rw [if_pos (by omega), blockToPage_eq represents.rankNum small inside, ok_bind,
              buddy_treeIndex small inside below,
              show hand.height + 1 = hand.buddy.height + 1 from rfl,
              blockToPage_eq represents.rankNum small buddyInside, ok_bind,
              State.getMeta_eq _ otherBound, ok_bind, DyadicBlock.height_buddy]
            have merges : ¬ ((state.metaArray hand.buddy.start).rank ≠ hand.height + 1 ∨
                (state.metaArray hand.buddy.start).status ≠ .unused) ↔
                  hand.buddy.pos ∈ pool.free hand.height := by
              rw [← record]
              tauto
            by_cases free : hand.buddy.pos ∈ pool.free hand.height
            · rw [if_neg (merges.mpr free), if_pos ⟨below, free⟩, parent_treeIndex small inside below]
              obtain ⟨unlinked, remove, within, merged⟩ :=
                mergeTurn_represents valid represents live below free
              obtain ⟨next, loop, nextRepresents, nextWithin⟩ :=
                ih fuel (valid.mergeBuddy live below free) merged List.mem_cons_self
                  (by simp only [Pool.height_mergeBuddy, DyadicBlock.height_parent]; omega)
                  (by omega)
              have rank : u8 ((hand.height + 1 : Nat) + 1) = hand.parent.height + 1 := by
                unfold maxRankNum at low
                exact u8_eq _ (by simp) (by simp only [DyadicBlock.height_parent]; omega)
              refine ⟨next, ?_, nextRepresents, (within.setCount below.le _).trans nextWithin⟩
              unfold State.merged at remove
              simp only [State.modifyMeta_eq _ otherBound, State.modifyMeta_eq _ nodeBound, ok_bind,
                remove, State.getCount_eq _ low, State.setCount_eq _ low, rank]
              exact loop
            · rw [if_pos (by_contra fun other => free (merges.mp other)),
                if_neg (fun merge => free merge.2)]
              exact ⟨state, rfl, represents, Within.refl _ _⟩
          · rw [if_neg (by omega), if_neg (fun merge => below merge.1)]
            exact ⟨state, rfl, represents, Within.refl _ _⟩

/-! ## Putting the merged block back -/

/-- The record written after the loop. -/
def State.labelled (state : State) (page rank index : Nat) : State :=
  { state with
    metaArray := Function.update state.metaArray page
      { state.metaArray page with status := .unused, rank := rank, index := index } }

theorem samePointers_labelled (state : State) (page rank index : Nat) (free : Nat → List Nat) :
    SamePointers free state (state.labelled page rank index) := by
  constructor
  · rfl
  · intro block _
    by_cases same : block.start = page
    · simp [State.labelled, same]
    · simp [State.labelled, same]

/-- The three assignments to `node`. -/
theorem labelled_eq {Result : Type} {page : Nat} (bound : page < maxPageNum)
    (state : State) (rank index : Nat) (rest : State → Except Fault Result) :
    (do
      let state ← state.modifyMeta page fun entry => { entry with status := .unused }
      let state ← state.modifyMeta page fun entry => { entry with rank := rank }
      let state ← state.modifyMeta page fun entry => { entry with index := index }
      rest state) = rest (state.labelled page rank index) := by
  simp only [State.modifyMeta_eq _ bound, ok_bind, State.labelled, Function.update_self,
    Function.update_idem]

theorem putHand_represents (valid : pool.Valid) (represents : Represents state pool (some hand))
    (live : hand ∈ pool.live) :
    ∃ pushed, listPush (state.labelled hand.start (hand.height + 1) (treeIndex pool.height hand))
          (hand.height + 1) hand.start = .ok pushed ∧
      Within pool.height state pushed ∧
      Represents { pushed with
          count := Function.update pushed.count (hand.height + 1)
            (u32 (pushed.count (hand.height + 1) + 1)) }
        (pool.putFree hand) none := by
  have inside := valid.inside (.inr live)
  have labelled := represents.lists.congr
    (samePointers_labelled state hand.start (hand.height + 1) (treeIndex pool.height hand) pool.free)
  obtain ⟨pushed, push, relinked, lists⟩ :=
    labelled.push represents.small inside fun other free => hand_start_ne valid live free
  have labels : Within pool.height state
      (state.labelled hand.start (hand.height + 1) (treeIndex pool.height hand)) :=
    (Within.refl pool.height state).setMeta _ fun page past => by
      have handBound := inside.start_lt
      exact (label_update state hand.start page _).trans (if_neg (by omega))
  refine ⟨pushed, push, labels.trans (relinked.within inside.1), ?_⟩
  have label : ∀ page, pushed.label page =
      if page = hand.start then (.unused, hand.height + 1, treeIndex pool.height hand)
      else state.label page := by
    intro page
    rw [relinked.label]
    exact label_update state hand.start page _
  have count : pushed.count = state.count := relinked.count
  have putValid := valid.putFree live
  constructor
  case small => exact represents.small
  case rankNum => exact relinked.rankNum.trans represents.rankNum
  case lists => exact lists.congr ⟨rfl, fun _ _ => ⟨rfl, rfl⟩⟩
  case counts =>
    intro other bound
    have old := represents.counts other bound
    by_cases same : other = hand.height
    · subst same
      have small := represents.count_lt valid hand.height
      simp only [count, Pool.putFree, Function.update_self, old, List.length_cons]
      exact u32_eq _ (by omega) (by omega)
    · simp only [count, Pool.putFree]
      rw [Function.update_of_ne (by omega), Function.update_of_ne same]
      exact old
  case unused =>
    intro block free
    refine (label block.start).trans ?_
    rcases (Pool.mem_update_cons pool.free hand block).mp free with same | old
    · subst same
      rw [if_pos rfl]
      rfl
    · rw [if_neg (hand_start_ne valid live old)]
      exact represents.unused block old
  case used =>
    intro block inLive _
    obtain ⟨notHand, old⟩ := valid.liveNodup.mem_erase_iff.mp inLive
    refine (label block.start).trans ?_
    rw [if_neg (valid.start_ne (.inr old) (.inr live) notHand)]
    exact represents.used block old fun same => notHand (Option.some.inj same)
  case undef =>
    intro page bound outside
    refine (congrArg Prod.fst (label page)).trans ?_
    have notHand : page ≠ hand.start := by
      intro same
      exact outside hand (.inl ((Pool.mem_update_cons pool.free hand hand).mpr (.inl rfl))) same.symm
    rw [if_neg notHand]
    apply represents.undef page bound
    intro block member start
    apply outside block _ start
    rcases member with free | inLive
    · exact .inl ((Pool.mem_update_cons pool.free hand block).mpr (.inr free))
    · by_cases same : block = hand
      · exact .inl ((Pool.mem_update_cons pool.free hand block).mpr (.inl same))
      · exact .inr (valid.liveNodup.mem_erase_iff.mpr ⟨same, inLive⟩)

/-! ## Pointers -/

/-- The distance of `ptr` from the base fits in a signed 64-bit integer. -/
def Near (base ptr : UInt64) : Prop :=
  -2 ^ 63 ≤ (ptr.toNat : Int) - base.toNat ∧ (ptr.toNat : Int) - base.toNat < 2 ^ 63

/-- The pointers that the code's signed distance does not mislead: besides those
less than `2 ^ 63` above the base, the ones below it and the ones off a page
boundary, which are refused in any case. -/
def Measured (base ptr : UInt64) : Prop :=
  ptr.toNat < base.toNat + 2 ^ 63 ∨ (ptr.toNat - base.toNat) % pageSize ≠ 0

instance (base ptr : UInt64) : Decidable (Near base ptr) :=
  inferInstanceAs (Decidable (_ ∧ _))

instance (base ptr : UInt64) : Decidable (Measured base ptr) :=
  inferInstanceAs (Decidable (_ ∨ _))

theorem Near.measured {base ptr : UInt64} (near : Near base ptr) : Measured base ptr :=
  .inl (by have := near.2; omega)

/-- The page that starts at `ptr`. -/
def pageOf (base ptr : UInt64) : Option Nat :=
  if base ≤ ptr ∧ (ptr.toNat - base.toNat) % pageSize = 0 then
    some ((ptr.toNat - base.toNat) / pageSize)
  else none

theorem ptrDiff_eq {base ptr : UInt64} (above : base ≤ ptr) (near : ptr.toNat < base.toNat + 2 ^ 63) :
    ptrDiff ptr base = (ptr.toNat - base.toNat : Nat) := by
  have le : base.toNat ≤ ptr.toNat := UInt64.le_iff_toNat_le.mp above
  rw [ptrDiff, show (ptr.toNat : Int) - base.toNat = (ptr.toNat - base.toNat : Nat) by omega]
  exact Int.bmod_eq_of_le (by omega) (by omega)

/-- Reducing a distance modulo `2 ^ 64` keeps its place within a page. -/
theorem ptrDiff_tmod {base ptr : UInt64} (above : base ≤ ptr) :
    (ptrDiff ptr base).tmod pageSize = 0 ↔ (ptr.toNat - base.toNat) % pageSize = 0 := by
  have le : base.toNat ≤ ptr.toNat := UInt64.le_iff_toNat_le.mp above
  have difference : (pageSize : Int) ∣
      ptrDiff ptr base - (ptr.toNat - base.toNat : Nat) := by
    rw [Nat.cast_sub le]
    exact Int.dvd_trans (by decide) Int.dvd_bmod_sub_self
  rw [← Int.dvd_iff_tmod_eq_zero, Int.dvd_iff_dvd_of_dvd_sub difference,
    Int.natCast_dvd_natCast, Nat.dvd_iff_mod_eq_zero]

theorem isValidPtr_eq {ptr : UInt64} (small : pool.height < maxRankNum)
    (rankNum : state.rankNum = pool.height + 1) (measured : Measured state.basePtr ptr) :
    isValidPtr state ptr =
      .ok (match pageOf state.basePtr ptr with
        | some page => decide (page ≤ 2 ^ pool.height)
        | none => false) := by
  rw [isValidPtr, pageOf, pageNum_eq rankNum small]
  by_cases below : ptr < state.basePtr
  · have notAbove : ¬ state.basePtr ≤ ptr := UInt64.not_le.mpr below
    simp [below, notAbove]
  · have above : state.basePtr ≤ ptr := UInt64.not_lt.mp below
    rw [if_neg below]
    by_cases aligned : (ptr.toNat - state.basePtr.toNat) % pageSize = 0
    · have close := measured.resolve_right (not_not.mpr aligned)
      rw [if_neg (not_not.mpr ((ptrDiff_tmod above).mpr aligned)), if_pos ⟨above, aligned⟩,
        ptrDiff_eq above close, ← Int.ofNat_tdiv]
      simp only [ok_bind, pure_eq_ok, Nat.cast_le]
    · rw [if_pos (fun zero => aligned ((ptrDiff_tmod above).mp zero)),
        if_neg (fun both => aligned both.2)]
      rfl

theorem pageOf_eq_some {base ptr : UInt64} {page : Nat} :
    pageOf base ptr = some page ↔ ptr.toNat = base.toNat + page * pageSize := by
  have positive : 0 < pageSize := by decide
  unfold pageOf
  constructor
  · intro found
    split at found
    case isTrue shape =>
      obtain ⟨above, aligned⟩ := shape
      have le := UInt64.le_iff_toNat_le.mp above
      cases found
      have whole := Nat.div_mul_cancel (Nat.dvd_of_mod_eq_zero aligned)
      omega
    case isFalse => cases found
  · intro toNat
    rw [toNat, Nat.add_sub_cancel_left, Nat.mul_mod_left, Nat.mul_div_cancel _ positive]
    exact if_pos ⟨UInt64.le_iff_toNat_le.mpr (by omega), rfl⟩

theorem isValidPtr_total (represents : Represents state pool none) (ptr : UInt64) :
    ∃ accepted, isValidPtr state ptr = .ok accepted := by
  rw [isValidPtr, pageNum_eq represents.rankNum represents.small]
  by_cases below : ptr < state.basePtr
  · exact ⟨false, by rw [if_pos below]; rfl⟩
  · rw [if_neg below]
    by_cases aligned : (ptrDiff ptr state.basePtr).tmod pageSize ≠ 0
    · exact ⟨false, by rw [if_pos aligned]; rfl⟩
    · rw [if_neg aligned]
      exact ⟨_, rfl⟩

/-- A 32-bit distance is never past the end of `meta`. -/
theorem ptrToPage_lt (state : State) (ptr : UInt64) : ptrToPage state ptr < maxPageNum := by
  unfold ptrToPage u32 pageSize pageBits maxPageNum maxRankNum
  omega

theorem ptrToPage_eq {ptr : UInt64} {page : Nat} (small : pool.height < maxRankNum)
    (found : pageOf state.basePtr ptr = some page) (bound : page ≤ 2 ^ pool.height) :
    ptrToPage state ptr = page := by
  have pages := two_pow_le small
  have toNat := pageOf_eq_some.mp found
  have above : state.basePtr ≤ ptr := UInt64.le_iff_toNat_le.mpr (by omega)
  have fits : page * pageSize < 2 ^ 32 := by
    unfold pageSize pageBits
    omega
  rw [ptrToPage, ptrDiff_eq above (by omega),
    u32_eq (page * pageSize) (by omega) fits]
  exact Nat.mul_div_cancel _ (by decide)

/-! ## The block at a page -/

def Pool.listBlocks (pool : Pool) : List DyadicBlock :=
  pool.live ++ (List.range (pool.height + 1)).flatMap fun h =>
    (pool.free h).map fun pos => ⟨h, pos⟩

/-- The free or live block that starts at a page. -/
def Pool.blockAt (pool : Pool) (page : Nat) : Option DyadicBlock :=
  pool.listBlocks.find? fun block => block.start = page

theorem Pool.Valid.mem_listBlocks (valid : pool.Valid) {block : DyadicBlock} :
    block ∈ pool.listBlocks ↔ block ∈ pool.blocks := by
  have free : block ∈ ((List.range (pool.height + 1)).flatMap fun h =>
      (pool.free h).map fun pos => (⟨h, pos⟩ : DyadicBlock)) ↔
        block.pos ∈ pool.free block.height := by
    simp only [List.mem_flatMap, List.mem_range, List.mem_map]
    constructor
    · intro ⟨h, _, pos, member, same⟩
      exact same ▸ member
    · intro member
      have inside := valid.inside (.inl member)
      exact ⟨block.height, by have := inside.1; omega, block.pos, member, rfl⟩
  rw [Pool.listBlocks, List.mem_append, free, Pool.mem_blocks, or_comm]

theorem Pool.Valid.blockAt_eq_some (valid : pool.Valid) {page : Nat} {block : DyadicBlock} :
    pool.blockAt page = some block ↔ block ∈ pool.blocks ∧ block.start = page := by
  constructor
  · intro found
    exact ⟨valid.mem_listBlocks.mp (List.mem_of_find?_eq_some found),
      by simpa using List.find?_some found⟩
  · intro ⟨member, start⟩
    cases found : pool.blockAt page with
    | none =>
        have absent := List.find?_eq_none.mp found block (valid.mem_listBlocks.mpr member)
        simp [start] at absent
    | some other =>
        have otherMember := valid.mem_listBlocks.mp (List.mem_of_find?_eq_some found)
        have otherStart : other.start = page := by simpa using List.find?_some found
        rw [valid.tiles.eq_of_start otherMember member (otherStart.trans start.symm)]

theorem Pool.Valid.blockAt_eq_none (valid : pool.Valid) {page : Nat} :
    pool.blockAt page = none ↔ ∀ block ∈ pool.blocks, block.start ≠ page := by
  rw [Pool.blockAt, List.find?_eq_none]
  simp [valid.mem_listBlocks]

/-- What the record at a page says. -/
theorem Represents.record (valid : pool.Valid) (represents : Represents state pool none)
    {page : Nat} (bound : page < 2 ^ pool.height) :
    match pool.blockAt page with
    | none => (state.metaArray page).status = .undef
    | some block =>
        (state.metaArray page).status = (if block ∈ pool.live then .used else .unused) ∧
          (state.metaArray page).rank = block.height + 1 ∧
          (state.metaArray page).index = treeIndex pool.height block := by
  cases found : pool.blockAt page with
  | none => exact represents.undef page bound (valid.blockAt_eq_none.mp found)
  | some block =>
      obtain ⟨member, start⟩ := valid.blockAt_eq_some.mp found
      subst start
      by_cases live : block ∈ pool.live
      · have label := represents.used block live (by simp)
        simp only [State.label, Prod.mk.injEq] at label
        simp only [live, ↓reduceIte]
        exact label
      · have label := represents.unused block (member.resolve_right live)
        simp only [State.label, Prod.mk.injEq] at label
        simp only [live, ↓reduceIte]
        exact label

/-- The record of the page after a region of `2 ^ height` pages does no harm: it
is not in use, or there is no address for that page. -/
def PastEnd (base : UInt64) (state : State) (height : Nat) : Prop :=
  (state.metaArray (2 ^ height)).status = .undef ∨ 2 ^ 64 ≤ base.toNat + 2 ^ height * pageSize

/-- The block that starts at an address. -/
def Pool.lookup (pool : Pool) (base ptr : UInt64) : Option DyadicBlock :=
  (pageOf base ptr).bind pool.blockAt

/-- The checks at the head of `return_pages` and `query_ranks`: either the
record found is not in use, or it is the record of a tile. -/
private theorem checked {ptr : UInt64} (valid : pool.Valid)
    (represents : Represents state pool none) (past : PastEnd state.basePtr state pool.height)
    (measured : Measured state.basePtr ptr) :
    (pool.lookup state.basePtr ptr = none ∧ (isValidPtr state ptr = .ok false ∨
      isValidPtr state ptr = .ok true ∧ ptrToPage state ptr < maxPageNum ∧
        (state.metaArray (ptrToPage state ptr)).status = .undef)) ∨
      ∃ page < 2 ^ pool.height, isValidPtr state ptr = .ok true ∧ ptrToPage state ptr = page ∧
        page < maxPageNum ∧ pool.lookup state.basePtr ptr = pool.blockAt page := by
  have small := represents.small
  have test := isValidPtr_eq small represents.rankNum measured
  have pages : 2 ^ pool.height < maxPageNum := (two_pow_le small).trans_lt (by decide)
  cases found : pageOf state.basePtr ptr with
  | none =>
      rw [found] at test
      exact .inl ⟨by simp [Pool.lookup, found], .inl test⟩
  | some page =>
      rw [found] at test
      have outside : 2 ^ pool.height ≤ page → pool.lookup state.basePtr ptr = none := by
        intro beyond
        simp only [Pool.lookup, found, Option.bind_some]
        apply valid.blockAt_eq_none.mpr
        intro block member start
        have inside := (valid.inside member).start_lt
        omega
      rcases lt_trichotomy page (2 ^ pool.height) with inRegion | atEnd | beyond
      · have toPage := ptrToPage_eq small found inRegion.le
        refine .inr ⟨page, inRegion, ?_, toPage, inRegion.trans pages, ?_⟩
        · simp [test, inRegion.le]
        · simp [Pool.lookup, found]
      · have toPage := ptrToPage_eq small found atEnd.le
        have address := pageOf_eq_some.mp found
        have fits := ptr.toNat_lt
        refine .inl ⟨outside atEnd.ge, .inr ⟨by simp [test, atEnd], ?_, ?_⟩⟩
        · rw [toPage, atEnd]
          exact pages
        · rw [toPage, atEnd]
          rw [atEnd] at address
          exact past.resolve_right (by omega)
      · exact .inl ⟨outside beyond.le, .inl (by simp [test, beyond])⟩

/-! ## The whole of `return_pages` and the queries -/

/-- The merging loop starts with the returned block in hand. -/
theorem Represents.inHand (represents : Represents state pool none) (block : DyadicBlock) :
    Represents state pool (some block) :=
  { represents with used := fun other member _ => represents.used other member (by simp) }

/-- `return_pages` on a pointer that it takes for the first page of a live block. -/
theorem returnPages_at {ptr : UInt64} {page : Nat} {block : DyadicBlock} (valid : pool.Valid)
    (represents : Represents state pool none) (test : isValidPtr state ptr = .ok true)
    (toPage : ptrToPage state ptr = page) (bound : page < 2 ^ pool.height)
    (found : pool.blockAt page = some block) (live : block ∈ pool.live) :
    ∃ after, returnPages state ptr = .ok (ok, after) ∧
      Represents after (pool.release block) none ∧ Within pool.height state after := by
  have small := represents.small
  have inArray : page < maxPageNum := bound.trans ((two_pow_le small).trans_lt (by decide))
  have record := represents.record valid bound
  simp only [found] at record
  obtain ⟨status, rank, index⟩ := record
  have inHand := represents.inHand block
  obtain ⟨merged, loop, mergedRepresents, mergedWithin⟩ :=
    mergeLoop_represents 256 (pool.height - block.height) valid inHand live le_rfl
      (by unfold maxRankNum at small; omega)
  obtain ⟨mergedValid, mergedLive⟩ := valid.mergeUp live (pool.height - block.height)
  have sameHeight := Pool.height_mergeUp (pool.height - block.height) pool block
  obtain ⟨pushed, push, pushedWithin, final⟩ :=
    putHand_represents mergedValid mergedRepresents mergedLive
  have handInside := mergedValid.inside (.inr mergedLive)
  have pageBound := start_lt_maxPageNum mergedRepresents.small handInside
  have rankBound : (Pool.mergeUp (pool.height - block.height) pool block).2.height + 1 ≤
      maxRankNum := by
    have low := handInside.1
    omega
  have handBound := handInside.1
  rw [sameHeight] at pushedWithin handBound
  refine ⟨_, ?_, final, (mergedWithin.trans pushedWithin).setCount handBound _⟩
  simp only [live, ↓reduceIte] at status
  simp only [returnPages, test, ok_bind, toPage, State.getMeta_eq _ inArray, status, rank, index,
    loop]
  have page := blockToPage_eq mergedRepresents.rankNum mergedRepresents.small handInside
  rw [sameHeight] at page push
  rw [if_neg (by decide), if_neg (by decide), page, ok_bind, labelled_eq pageBound, push]
  simp only [ok_bind, State.getCount_eq _ rankBound, State.setCount_eq _ rankBound, pure_eq_ok]

/-- `return_pages` takes back the live block that starts at the address and
refuses every other address. -/
theorem returnPages_represents {ptr : UInt64} (valid : pool.Valid)
    (represents : Represents state pool none) (past : PastEnd state.basePtr state pool.height)
    (measured : Measured state.basePtr ptr) :
    match (pool.lookup state.basePtr ptr).filter (· ∈ pool.live) with
    | none => returnPages state ptr = .ok (-einval, state)
    | some block =>
        block ∈ pool.live ∧ ∃ after, returnPages state ptr = .ok (ok, after) ∧
          Represents after (pool.release block) none ∧ Within pool.height state after := by
  rcases checked valid represents past measured with
    ⟨absent, test⟩ | ⟨page, bound, test, toPage, inArray, found⟩
  · rcases test with refused | ⟨accepted, inArray, undef⟩
    · simp [returnPages, refused, absent]
    · simp [returnPages, accepted, absent, State.getMeta_eq _ inArray, undef]
  · have record := represents.record valid bound
    rw [found]
    cases at_ : pool.blockAt page with
    | none =>
        simp only [at_] at record
        simp [returnPages, test, toPage, State.getMeta_eq _ inArray, record]
    | some block =>
        simp only [at_] at record
        obtain ⟨status, rank, index⟩ := record
        by_cases live : block ∈ pool.live
        · simp only [Option.filter, live, decide_true, ↓reduceIte, true_and]
          exact returnPages_at valid represents test toPage bound at_ live
        · simp [returnPages, test, toPage, State.getMeta_eq _ inArray, status, live,
            Option.filter]

theorem queryRanks_eq {ptr : UInt64} (valid : pool.Valid)
    (represents : Represents state pool none) (past : PastEnd state.basePtr state pool.height)
    (measured : Measured state.basePtr ptr) :
    queryRanks state ptr =
      .ok (match pool.lookup state.basePtr ptr with
        | none => -einval
        | some block => (block.height + 1 : Nat)) := by
  rcases checked valid represents past measured with
    ⟨absent, test⟩ | ⟨page, bound, test, toPage, inArray, found⟩
  · rcases test with refused | ⟨accepted, inArray, undef⟩
    · simp [queryRanks, refused, absent]
    · simp [queryRanks, accepted, absent, State.getMeta_eq _ inArray, undef]
  · have record := represents.record valid bound
    rw [found]
    cases at_ : pool.blockAt page with
    | none =>
        simp only [at_] at record
        simp [queryRanks, test, toPage, State.getMeta_eq _ inArray, record]
    | some block =>
        simp only [at_] at record
        obtain ⟨status, rank, _⟩ := record
        by_cases live : block ∈ pool.live
        · simp [queryRanks, test, toPage, State.getMeta_eq _ inArray, status, rank, live]
        · simp [queryRanks, test, toPage, State.getMeta_eq _ inArray, status, rank, live]

theorem queryPageCounts_eq (represents : Represents state pool none) (rank : Int) :
    queryPageCounts state rank =
      .ok (if rank < 1 ∨ pool.height + 1 < rank then -einval
        else (pool.free (rank.toNat - 1)).length) := by
  have small := represents.small
  rw [queryPageCounts, represents.rankNum]
  by_cases invalid : rank < 1 ∨ (pool.height : Int) + 1 < rank
  · rw [if_pos (by push_cast; exact invalid), if_pos invalid]
    rfl
  · have count := represents.counts (rank.toNat - 1) (by omega)
    rw [show rank.toNat - 1 + 1 = rank.toNat by omega] at count
    rw [if_neg (by push_cast; exact invalid), if_neg invalid,
      State.getCount_eq _ (show rank.toNat ≤ maxRankNum by omega), ok_bind, count]
    rfl

end OsPractices.Buddy
