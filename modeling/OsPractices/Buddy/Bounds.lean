import OsPractices.Buddy.Checked
import OsPractices.Buddy.Undo

/-!
# Subscripts and tree arithmetic

Every state of a run represents a pool, so every block in hand is a dyadic block
inside the region: its tree index, its children, its buddy and its pages are
exact. This holds of every page count below `MAX_PAGE_NUM`. A region of
`MAX_PAGE_NUM` pages has one rank more than the arrays have room for.
-/

set_option autoImplicit false

namespace OsPractices.Buddy

open Library

/-! ## Exact results -/

theorem exactly_eq {value : Nat} {exact : Int} (same : (value : Int) = exact) :
    exactly value exact = .ok value :=
  if_pos same

theorem childChecked_eq {node sel : Nat} (bound : node * 2 + sel + 1 < 2 ^ 32) :
    childChecked node sel = .ok (child node sel) := by
  apply exactly_eq
  rw [child, u32_eq (node * 2 + sel + 1) (by push_cast; ring) bound]
  push_cast
  ring

section

variable {state : State} {height : Nat} {block : DyadicBlock}

theorem blockToPageChecked_eq (rankNum : state.rankNum = height + 1) (small : height < maxRankNum)
    (inside : block.Inside height) :
    blockToPageChecked state (treeIndex height block) (block.height + 1) = .ok block.start := by
  rw [blockToPageChecked, blockToPage_eq rankNum small inside, lift_ok, ok_bind]
  apply exactly_eq
  have positive : 1 ≤ 2 ^ (height - block.height) := Nat.one_le_two_pow
  rw [rankNum, Nat.add_sub_add_right, Nat.add_sub_cancel, treeIndex, DyadicBlock.start,
    Nat.cast_add, Nat.cast_sub positive]
  push_cast
  ring

theorem buddyChecked_eq (small : height < maxRankNum) (inside : block.Inside height)
    (below : block.height < height) :
    buddyChecked (treeIndex height block) = .ok (treeIndex height block.buddy) := by
  have machine := buddy_treeIndex small inside below
  have level : 2 ^ (height - block.height) = 2 * 2 ^ (height - (block.height + 1)) := by
    rw [← pow_succ', show height - (block.height + 1) + 1 = height - block.height by omega]
  have positive : 1 ≤ 2 ^ (height - (block.height + 1)) := Nat.one_le_two_pow
  rw [buddyChecked, machine]
  apply exactly_eq
  simp only [treeIndex, level, DyadicBlock.pos_buddy, DyadicBlock.height_buddy]
  by_cases even : block.pos % 2 = 0
  · rw [if_pos even, if_pos (by omega)]
    omega
  · rw [if_neg even, if_neg (by omega)]
    omega

theorem blockToPtrChecked_eq (rankNum : state.rankNum = height + 1) (small : height < maxRankNum)
    (inside : block.Inside height) :
    blockToPtrChecked state (treeIndex height block) (block.height + 1) =
      liftM (blockToPtr state (treeIndex height block) (block.height + 1)) := by
  have bound := start_lt_maxPageNum small inside
  have bytes : u32 (block.start * pageSize) = block.start * pageSize := by
    apply u32_eq
    · push_cast
      rfl
    · unfold maxPageNum maxRankNum at bound
      unfold pageSize pageBits
      omega
  rw [blockToPtrChecked, blockToPageChecked_eq rankNum small inside, blockToPtr,
    blockToPage_eq rankNum small inside, ok_bind, ok_bind, bytes, exactly_eq (by push_cast; rfl)]
  rfl

end

/-! ## Splitting -/

theorem splitBlockChecked_eq {state : State} {height h pos : Nat}
    (small : height < maxRankNum) (rankNum : state.rankNum = height + 1)
    (inside : (⟨h + 1, pos⟩ : DyadicBlock).Inside height)
    (index : (state.metaArray (⟨h + 1, pos⟩ : DyadicBlock).start).index =
      treeIndex height ⟨h + 1, pos⟩) :
    splitBlockChecked state (⟨h + 1, pos⟩ : DyadicBlock).start (h + 2) =
      liftM (splitBlock state (⟨h + 1, pos⟩ : DyadicBlock).start (h + 2)) := by
  have low : h + 1 ≤ height := inside.1
  have bound : h + 2 ≤ maxRankNum := by omega
  have rank : u8 ((h + 2 : Nat) - 1) = h + 1 := by
    unfold maxRankNum at bound
    exact u8_eq _ (by omega) (by omega)
  have indexBound := treeIndex_lt small inside
  have wholeBound := start_lt_maxPageNum small inside
  have rightChild := @childChecked_eq (treeIndex height ⟨h + 1, pos⟩) 1 (by omega)
  have leftChild := @childChecked_eq (treeIndex height ⟨h + 1, pos⟩) 0 (by omega)
  rw [child_right small inside] at rightChild
  rw [child_left small inside] at leftChild
  have page : ∀ next : State, next.rankNum = state.rankNum → ∀ block : DyadicBlock,
      block.Inside height → block.height = h →
        blockToPageChecked next (treeIndex height block) (h + 1) = .ok block.start := by
    intro next same block within isHeight
    exact isHeight ▸ blockToPageChecked_eq (same.trans rankNum) small within
  have leftStart := start_lt_maxPageNum small (inside_left inside)
  have rightStart := start_lt_maxPageNum small (inside_right inside)
  rw [splitBlock_eq small rankNum inside index]
  simp only [splitBlockChecked, State.modifyMeta_eq _ wholeBound, lift_ok, ok_bind,
    State.getCount_eq _ bound, State.setCount_eq _ bound, State.getMeta_eq _ wholeBound,
    Function.update_self, index, rank, leftChild, rightChild, lift_bind]
  rw [page _ ?_ ⟨h, 2 * pos + 1⟩ (inside_right inside) rfl, ok_bind,
    page _ ?_ ⟨h, 2 * pos⟩ (inside_left inside) rfl, ok_bind, State.setMeta_eq _ rightStart,
    lift_ok, ok_bind, State.setMeta_eq _ leftStart, lift_ok, ok_bind, treeIndex_succ]
  · simp only [State.halved, index]
  · rfl
  · rfl

section

variable {state : State} {pool : Pool}

/-- The record of a block just taken off its list. -/
theorem popped_index {h pos : Nat} {rest : List Nat} {popped : State} (valid : pool.Valid)
    (represents : Represents state pool none) (head : pool.free h = pos :: rest)
    (pop : listPop state (h + 1) = .ok (some (⟨h, pos⟩ : DyadicBlock).start, popped)) :
    (popped.metaArray (⟨h, pos⟩ : DyadicBlock).start).index = treeIndex pool.height ⟨h, pos⟩ ∧
      popped.rankNum = pool.height + 1 := by
  obtain ⟨other, otherPop, relinked, -⟩ :=
    represents.lists.pop represents.small (valid.freeNodup h) head
  rw [pop] at otherPop
  cases otherPop
  have label := represents.unused ⟨h, pos⟩ (by simp [head])
  rw [← relinked.label] at label
  exact ⟨congrArg (fun label => label.2.2) label, relinked.rankNum.trans represents.rankNum⟩

theorem splitLoopChecked_eq (fuel h gap : Nat) (valid : pool.Valid)
    (represents : Represents state pool none) (enough : gap < fuel)
    (bound : h + gap ≤ pool.height) (found : pool.free (h + gap) ≠ []) :
    splitLoopChecked (h + 1) fuel state (h + gap + 1) =
      liftM (splitLoop (h + 1) fuel state (h + gap + 1)) := by
  induction gap generalizing fuel state pool with
  | zero =>
      cases fuel with
      | zero => omega
      | succ fuel =>
          rw [splitLoopChecked, splitLoop, if_neg (by omega), if_neg (by omega)]
          rfl
  | succ gap ih =>
      cases fuel with
      | zero => omega
      | succ fuel =>
          obtain ⟨pos, rest, head⟩ : ∃ pos rest, pool.free (h + gap + 1) = pos :: rest :=
            List.exists_cons_of_ne_nil found
          obtain ⟨popped, next, pop, split, splitRepresents, -⟩ :=
            splitTurn_represents valid represents head
          obtain ⟨index, rankNum⟩ := popped_index valid represents head pop
          have inside := valid.inside (.inl (by simp [head]) :
            (⟨h + gap + 1, pos⟩ : DyadicBlock) ∈ pool.blocks)
          have small := represents.small
          have checked := splitBlockChecked_eq small rankNum inside index
          unfold maxRankNum at small
          have rank : u8 ((h + gap + 2 : Nat) - 1) = h + gap + 1 :=
            u8_eq _ (by omega) (by omega)
          have nonempty : (pool.splitHead (h + gap)).free (h + gap) ≠ [] := by
            rw [(Pool.free_splitHead head).1]
            exact List.cons_ne_nil _ _
          have later := ih fuel (valid.splitHead head) splitRepresents (by omega)
            (by rw [Pool.height_splitHead]; omega) nonempty
          rw [show h + (gap + 1) + 1 = h + gap + 2 by omega, splitLoopChecked, splitLoop,
            if_pos (by omega), if_pos (by omega), pop]
          simp only [lift_ok, ok_bind, checked, split, rank, later]

theorem allocPagesChecked_eq (valid : pool.Valid) (represents : Represents state pool none)
    (rank : Int) : allocPagesChecked state rank = liftM (allocPages state rank) := by
  by_cases invalid : rank < 1 ∨ (state.rankNum : Int) < rank
  · rw [allocPagesChecked, allocPages, if_pos invalid, if_pos invalid]
    rfl
  · have rankNum := represents.rankNum
    obtain ⟨h, rfl⟩ : ∃ h : Nat, rank = (h + 1 : Nat) := ⟨rank.toNat - 1, by omega⟩
    have bound : h ≤ pool.height := by omega
    have small := represents.small
    have smallRank : h + 1 ≤ maxRankNum := by omega
    have byte : u8 ((h + 1 : Nat) : Int) = h + 1 :=
      u8_eq _ rfl (by unfold maxRankNum at smallRank; omega)
    have search := findUnusedRank_eq represents 256 h
      (by unfold maxRankNum at small; omega) (by omega)
    cases least : pool.firstFree h with
    | none =>
        simp only [least] at search
        rw [allocPagesChecked, allocPages, if_neg invalid, if_neg invalid, byte, search, lift_ok,
          ok_bind, ok_bind, rankNum, if_pos (by omega), if_pos (by omega)]
        rfl
    | some first =>
        obtain ⟨low, high, found, -⟩ := Pool.firstFree_eq_some least
        have gapped : h + (first - h) = first := by omega
        have enough : first - h < 256 := by
          unfold maxRankNum at small
          omega
        have checked := splitLoopChecked_eq 256 h (first - h) valid represents enough
          (gapped.symm ▸ high) (gapped.symm ▸ found)
        obtain ⟨split, loop, splitRepresents, splitValid, splitFound, -⟩ :=
          splitLoop_represents 256 h (first - h) valid represents enough
            (gapped.symm ▸ high) (gapped.symm ▸ found)
        obtain ⟨pos, rest, head⟩ := List.exists_cons_of_ne_nil splitFound
        obtain ⟨popped, pop, -, -⟩ :=
          splitRepresents.lists.pop splitRepresents.small (splitValid.freeNodup h) head
        obtain ⟨index, poppedRank⟩ := popped_index splitValid splitRepresents head pop
        have inside := splitValid.inside (.inl (by simp [head]) :
          (⟨h, pos⟩ : DyadicBlock) ∈ (pool.splitDown h (first - h)).blocks)
        have pageBound := start_lt_maxPageNum splitRepresents.small inside
        have ptr : ∀ next : State, next.rankNum = popped.rankNum →
            blockToPtrChecked next (treeIndex (pool.splitDown h (first - h)).height ⟨h, pos⟩)
                (h + 1) =
              liftM (blockToPtr next
                (treeIndex (pool.splitDown h (first - h)).height ⟨h, pos⟩) (h + 1)) :=
          fun next same =>
            blockToPtrChecked_eq (same.trans poppedRank) splitRepresents.small inside
        simp only [least] at search
        rw [gapped] at checked loop
        rw [loop, lift_ok] at checked
        rw [allocPagesChecked, allocPages, if_neg invalid, if_neg invalid, byte, search, lift_ok,
          ok_bind, ok_bind, rankNum, if_neg (by omega), if_neg (by omega),
          show ((h + 1 : Nat) : Int).toNat = h + 1 from rfl]
        simp only [checked, loop, pop, lift_ok, ok_bind, State.modifyMeta_eq _ pageBound,
          State.getCount_eq _ smallRank, State.setCount_eq _ smallRank,
          State.getMeta_eq _ pageBound, Function.update_self, index, byte, pure_eq_ok, lift_bind]
        rw [ptr _ ?_]
        rfl

/-! ## Merging -/

variable {hand : DyadicBlock}

theorem mergeLoopChecked_eq (fuel gap : Nat) (valid : pool.Valid)
    (represents : Represents state pool (some hand)) (live : hand ∈ pool.live)
    (bound : pool.height - hand.height ≤ gap) (enough : gap < fuel) :
    mergeLoopChecked fuel state (hand.height + 1) (treeIndex pool.height hand) =
      liftM (mergeLoop fuel state (hand.height + 1) (treeIndex pool.height hand)) := by
  induction gap generalizing fuel state pool hand with
  | zero =>
      cases fuel with
      | zero => omega
      | succ fuel =>
          rw [mergeLoopChecked, mergeLoop, represents.rankNum, if_neg (by omega),
            if_neg (by omega)]
          rfl
  | succ gap ih =>
      cases fuel with
      | zero => omega
      | succ fuel =>
          have small := represents.small
          rw [mergeLoopChecked, mergeLoop, represents.rankNum]
          by_cases below : hand.height < pool.height
          · have inside := valid.inside (.inr live)
            have buddyInside := inside.buddy below
            have low : hand.height + 1 ≤ maxRankNum := by omega
            have nodeBound := start_lt_maxPageNum small inside
            have otherBound := start_lt_maxPageNum small buddyInside
            have record := buddy_record_iff valid represents live below
            rw [if_pos (by omega), if_pos (by omega),
              blockToPage_eq represents.rankNum small inside,
              blockToPageChecked_eq represents.rankNum small inside, ok_bind, ok_bind,
              buddy_treeIndex small inside below, buddyChecked_eq small inside below, ok_bind,
              show hand.height + 1 = hand.buddy.height + 1 from rfl,
              blockToPage_eq represents.rankNum small buddyInside,
              blockToPageChecked_eq represents.rankNum small buddyInside, ok_bind, ok_bind,
              State.getMeta_eq _ otherBound, lift_ok, ok_bind, ok_bind, DyadicBlock.height_buddy]
            by_cases stops : (state.metaArray hand.buddy.start).rank ≠ hand.height + 1 ∨
                (state.metaArray hand.buddy.start).status ≠ .unused
            · rw [if_pos stops, if_pos stops]
              rfl
            · have free : hand.buddy.pos ∈ pool.free hand.height := by
                rw [← record]
                tauto
              obtain ⟨unlinked, remove, -, merged⟩ :=
                mergeTurn_represents valid represents live below free
              have later := ih fuel (valid.mergeBuddy live below free) merged List.mem_cons_self
                (by simp only [Pool.height_mergeBuddy, DyadicBlock.height_parent]; omega)
                (by omega)
              have rank : u8 ((hand.height + 1 : Nat) + 1) = hand.parent.height + 1 := by
                unfold maxRankNum at low
                exact u8_eq _ (by simp) (by simp only [DyadicBlock.height_parent]; omega)
              rw [if_neg stops, if_neg stops, parent_treeIndex small inside below]
              unfold State.merged at remove
              simp only [State.modifyMeta_eq _ otherBound, State.modifyMeta_eq _ nodeBound,
                lift_ok, ok_bind, remove, State.getCount_eq _ low, State.setCount_eq _ low, rank]
              exact later
          · rw [if_neg (by omega), if_neg (by omega)]
            rfl

/-! ## Any pointer -/

/-- What every state of a run satisfies, whatever pointers the calls pass. -/
structure Sound (state : State) (pool : Pool) : Prop where
  represents : Represents state pool none
  valid : pool.Valid
  canonical : pool.Canonical
  beyond : Blank state pool.height

theorem Sound.of_within {next : State} {other : Pool} (sound : Sound state pool)
    (within : Within pool.height state next) (represents : Represents next other none)
    (valid : other.Valid) (canonical : other.Canonical) (height : other.height = pool.height) :
    Sound next other where
  represents := represents
  valid := valid
  canonical := canonical
  beyond := height.symm ▸ sound.beyond.of_within within

theorem returnPagesChecked_eq {ptr : UInt64} {page : Nat} {block : DyadicBlock} (valid : pool.Valid)
    (represents : Represents state pool none) (test : isValidPtr state ptr = .ok true)
    (toPage : ptrToPage state ptr = page) (bound : page < 2 ^ pool.height)
    (found : pool.blockAt page = some block) (live : block ∈ pool.live) :
    returnPagesChecked state ptr = liftM (returnPages state ptr) := by
  have small := represents.small
  have enough : pool.height - block.height < 256 := by
    unfold maxRankNum at small
    omega
  have inArray : page < maxPageNum := toPage ▸ ptrToPage_lt state ptr
  have record := represents.record valid bound
  simp only [found, live, ↓reduceIte] at record
  obtain ⟨status, rank, index⟩ := record
  have inHand := represents.inHand block
  have checked := mergeLoopChecked_eq 256 (pool.height - block.height) valid inHand live le_rfl enough
  obtain ⟨merged, loop, mergedRepresents, -⟩ :=
    mergeLoop_represents 256 (pool.height - block.height) valid inHand live le_rfl enough
  obtain ⟨mergedValid, mergedLive⟩ := valid.mergeUp live (pool.height - block.height)
  have handInside := mergedValid.inside (.inr mergedLive)
  have machinePage := blockToPage_eq mergedRepresents.rankNum mergedRepresents.small handInside
  have checkedPage :=
    blockToPageChecked_eq mergedRepresents.rankNum mergedRepresents.small handInside
  rw [Pool.height_mergeUp] at machinePage checkedPage
  rw [loop, lift_ok] at checked
  simp only [returnPagesChecked, returnPages, test, lift_ok, ok_bind, toPage,
    State.getMeta_eq _ inArray, status, rank, index, checked, loop, machinePage, checkedPage]
  rw [if_neg (by decide), if_neg (by decide), if_neg (by decide), if_neg (by decide)]
  simp only [lift_bind, pure_eq_ok, lift_ok]

theorem Sound.returnPages (sound : Sound state pool) (ptr : UInt64) :
    ∃ value next other, returnPagesChecked state ptr = .ok (value, next) ∧
      Buddy.returnPages state ptr = .ok (value, next) ∧ Sound next other ∧
      other.height = pool.height := by
  obtain ⟨accepted, test⟩ := isValidPtr_total sound.represents ptr
  have inArray := ptrToPage_lt state ptr
  cases accepted with
  | false =>
      refine ⟨-einval, state, pool, ?_, ?_, sound, rfl⟩
      · simp [returnPagesChecked, test]
      · simp [Buddy.returnPages, test]
  | true =>
      by_cases used : (state.metaArray (ptrToPage state ptr)).status = .used
      · have bound : ptrToPage state ptr < 2 ^ pool.height := by
          by_contra past
          have undef := sound.beyond _ (Nat.le_of_not_lt past)
          rw [used] at undef
          cases undef
        have record := sound.represents.record sound.valid bound
        cases found : pool.blockAt (ptrToPage state ptr) with
        | none =>
            simp only [found] at record
            rw [used] at record
            cases record
        | some block =>
            simp only [found] at record
            have live : block ∈ pool.live := by
              by_contra notLive
              have status := record.1
              rw [used, if_neg notLive] at status
              cases status
            obtain ⟨after, returned, represents, within⟩ :=
              returnPages_at sound.valid sound.represents test rfl bound found live
            have checked := returnPagesChecked_eq sound.valid sound.represents test rfl bound found live
            rw [returned] at checked
            exact ⟨ok, after, pool.release block, checked, returned,
              sound.of_within within represents (sound.valid.release live)
                (sound.canonical.release sound.valid live) (Pool.height_release _ _),
              Pool.height_release _ _⟩
      · refine ⟨-einval, state, pool, ?_, ?_, sound, rfl⟩
        · simp [returnPagesChecked, test, State.getMeta_eq _ inArray, used]
        · simp [Buddy.returnPages, test, State.getMeta_eq _ inArray, used]

theorem Sound.queryRanks (sound : Sound state pool) (ptr : UInt64) :
    ∃ value, Buddy.queryRanks state ptr = .ok value := by
  obtain ⟨accepted, test⟩ := isValidPtr_total sound.represents ptr
  rw [Buddy.queryRanks, test, ok_bind, State.getMeta_eq _ (ptrToPage_lt state ptr)]
  cases accepted with
  | false => exact ⟨-einval, rfl⟩
  | true => exact ⟨_, rfl⟩

theorem Sound.allocPages (sound : Sound state pool) (rank : Int) :
    ∃ result next other, allocPagesChecked state rank = .ok (result, next) ∧
      Buddy.allocPages state rank = .ok (result, next) ∧ Sound next other ∧
      other.height = pool.height := by
  have checked := allocPagesChecked_eq sound.valid sound.represents rank
  by_cases invalid : rank < 1 ∨ (pool.height : Int) + 1 < rank
  · have call := allocPages_invalid sound.represents invalid
    rw [call] at checked
    exact ⟨_, state, pool, checked, call, sound, rfl⟩
  · obtain ⟨h, rfl⟩ : ∃ h : Nat, rank = (h + 1 : Nat) := ⟨rank.toNat - 1, by omega⟩
    have result := allocPages_represents sound.valid sound.represents (show h ≤ pool.height by omega)
    cases taken : pool.alloc h with
    | none =>
        simp only [taken] at result
        rw [result] at checked
        exact ⟨_, state, pool, checked, result, sound, rfl⟩
    | some found =>
        obtain ⟨block, next⟩ := found
        simp only [taken] at result
        obtain ⟨after, call, represents, within⟩ := result
        obtain ⟨nextValid, nextCanonical, -, sameHeight, -⟩ :=
          Pool.alloc_eq_some sound.valid sound.canonical taken
        rw [call] at checked
        exact ⟨_, after, next, checked, call,
          sound.of_within within represents nextValid nextCanonical sameHeight, sameHeight⟩

end

/-! ## Runs -/

/-- A checked call does what the call does, and no check fails. -/
theorem Sound.step {session : Session} {pool : Pool} (sound : Sound session.state pool)
    (call : Call) :
    ∃ reply next other, execChecked session.state call = .ok (reply, next.state) ∧
      session.step call = .ok (reply, next) ∧ Sound next.state other := by
  cases call with
  | allocPages rank =>
      obtain ⟨result, after, other, checked, call, nextSound, -⟩ := sound.allocPages rank
      cases result with
      | error errno =>
          refine ⟨.failure errno, ⟨after, session.live⟩, other, ?_, ?_, nextSound⟩
          · simp only [execChecked, checked, ok_bind, pure_eq_ok]
          · simp only [Session.step, exec, call, ledger, ok_bind, pure_eq_ok]
      | ok ptr =>
          refine ⟨.pages ptr, ⟨after, session.live ++ [⟨ptr, rank.toNat⟩]⟩, other, ?_, ?_,
            nextSound⟩
          · simp only [execChecked, checked, ok_bind, pure_eq_ok]
          · simp only [Session.step, exec, call, ledger, ok_bind, pure_eq_ok]
  | returnPages p =>
      obtain ⟨value, after, other, checked, call, nextSound, -⟩ := sound.returnPages p
      refine ⟨.status value, ⟨after, ledger session.live (.returnPages p) (.status value)⟩, other,
        ?_, ?_, nextSound⟩
      · simp only [execChecked, checked, ok_bind, pure_eq_ok]
      · simp only [Session.step, exec, call, ok_bind, pure_eq_ok]
  | queryRanks p =>
      obtain ⟨value, query⟩ := sound.queryRanks p
      refine ⟨.status value, session, pool, ?_, ?_, sound⟩
      · simp only [execChecked, exec, query, ok_bind, pure_eq_ok, lift_ok]
      · simp only [Session.step, exec, query, ledger, ok_bind, pure_eq_ok]
  | queryPageCounts rank =>
      obtain ⟨value, query⟩ : ∃ value, queryPageCounts session.state rank = .ok value :=
        ⟨_, queryPageCounts_eq sound.represents rank⟩
      refine ⟨.status value, session, pool, ?_, ?_, sound⟩
      · simp only [execChecked, exec, query, ok_bind, pure_eq_ok, lift_ok]
      · simp only [Session.step, exec, query, ledger, ok_bind, pure_eq_ok]

theorem Sound.run {session : Session} {pool : Pool} (sound : Sound session.state pool)
    (calls : List Call) :
    ∃ replies last, runChecked session.state calls = .ok (replies, last.state) ∧
      session.run calls = .ok (replies, last) := by
  induction calls generalizing session pool with
  | nil => exact ⟨[], session, rfl, rfl⟩
  | cons call calls ih =>
      obtain ⟨reply, next, other, checked, step, nextSound⟩ := sound.step call
      obtain ⟨replies, last, restChecked, rest⟩ := ih nextSound
      refine ⟨reply :: replies, last, ?_, ?_⟩
      · simp only [runChecked, checked, ok_bind, restChecked, pure_eq_ok]
      · simp only [Session.run, step, ok_bind, rest, pure_eq_ok]

/-- After `init_page` from program start no record past the region is in use. -/
theorem initPage_sound (p : UInt64) {pgcount : Nat} (positive : 1 ≤ pgcount)
    (bound : pgcount < 2 ^ 20) :
    ∃ start, initPage programStart p pgcount = .ok (ok, start) ∧
      Sound start (Pool.initial (heightOf pgcount)) := by
  obtain ⟨start, init, -, -, -, represents⟩ :=
    initPage_represents programStart p positive bound
  exact ⟨start, init, represents, Pool.Valid.initial _, Pool.Canonical.initial _,
    initPage_blank p positive bound init⟩

/-- Every run stays within the arrays and computes exact indices and pages. -/
def WithinBounds (p : UInt64) (pgcount : Nat) : Prop :=
  ∀ calls, ∃ replies last, runCheckedFrom programStart p pgcount calls = .ok (replies, last.state) ∧
    runFrom programStart p pgcount calls = .ok (replies, last)

/-- A region of `MAX_PAGE_NUM` pages has rank `MAX_RANK_NUM + 1`. -/
theorem initPage_full (p : UInt64) : initPage programStart p maxPageNum = .error .outOfBounds := by
  have rank : u32 (log2 (u32 maxPageNum) + 1) = maxRankNum + 1 := by decide
  have ranks : List.range' 1 (maxRankNum + 1) = List.range' 1 maxRankNum ++ [maxRankNum + 1] := by
    decide
  have inRange : ∀ i ∈ List.range' 1 maxRankNum, i ≤ maxRankNum := by decide
  rw [initPage]
  simp only [rank, ranks, List.foldlM_append, clearBuckets_eq _ _ inRange, ok_bind,
    List.foldlM_cons]
  rfl

theorem within_bounds_iff (p : UInt64) (pgcount : Nat) (positive : 1 ≤ pgcount)
    (bound : pgcount ≤ maxPageNum) : WithinBounds p pgcount ↔ pgcount < maxPageNum := by
  constructor
  · intro within
    refine Nat.lt_of_le_of_ne bound ?_
    intro isFull
    subst isFull
    obtain ⟨replies, last, -, run⟩ := within []
    rw [runFrom, initPage_full] at run
    cases run
  · intro small calls
    obtain ⟨start, init, sound⟩ := initPage_sound p positive small
    obtain ⟨replies, last, checked, run⟩ := @Sound.run ⟨start, []⟩ _ sound calls
    refine ⟨replies, last, ?_, ?_⟩
    · simp only [runCheckedFrom, init, lift_ok, ok_bind, checked]
    · simp only [runFrom, init, ok_bind, run]

theorem within_bounds_iff_largest :
    WithinBounds 0x100000 0xfffff ↔ 0xfffff < maxPageNum :=
  within_bounds_iff 0x100000 0xfffff (by decide) (by decide)

/-- `init_page` with as many pages as `meta` has records writes past `bucket`. -/
theorem full_region_out_of_bounds :
    runFrom programStart 0x100000 0x100000 [] = .error .outOfBounds ∧
      ¬ WithinBounds 0x100000 0x100000 := by
  have fault : runFrom programStart 0x100000 0x100000 [] = .error .outOfBounds := by
    have init := initPage_full 0x100000
    rw [runFrom, show ((0x100000 : Int)) = (maxPageNum : Nat) by decide, init]
    rfl
  refine ⟨fault, ?_⟩
  intro within
  obtain ⟨replies, last, -, run⟩ := within []
  rw [show ((0x100000 : Nat) : Int) = 0x100000 by decide, fault] at run
  cases run

end OsPractices.Buddy
