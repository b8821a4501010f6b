import OsPractices.Buddy.Represents

/-!
# `alloc_pages` refines allocation from a pool

Each of its three parts is a pool operation: the search for a rank with a free
block, the splitting loop, and taking the block. None of them can fault, and
the `return NULL` inside `list_pop` is never reached.
-/

set_option autoImplicit false

namespace OsPractices.Buddy

open Library

variable {state : State} {pool : Pool}

/-! ## The search -/

theorem Pool.firstFree_succ (pool : Pool) (h : Nat) :
    pool.firstFree h =
      if h ≤ pool.height then
        if pool.free h ≠ [] then some h else pool.firstFree (h + 1)
      else none := by
  unfold Pool.firstFree
  by_cases bound : h ≤ pool.height
  · rw [if_pos bound, show pool.height + 1 - h = pool.height + 1 - (h + 1) + 1 by omega,
      List.range'_succ, List.find?_cons]
    cases found : pool.free h with
    | nil => simp
    | cons pos rest => simp
  · rw [if_neg bound, show pool.height + 1 - h = 0 by omega]
    rfl

theorem findUnusedRank_eq (represents : Represents state pool none) (fuel h : Nat)
    (enough : pool.height + 1 - h < fuel) (bound : h ≤ pool.height + 1) :
    findUnusedRank state fuel (h + 1) =
      .ok (match pool.firstFree h with
        | some first => first + 1
        | none => pool.height + 2) := by
  have small := represents.small
  unfold maxRankNum at small
  induction fuel generalizing h with
  | zero => omega
  | succ fuel ih =>
      rw [findUnusedRank, represents.rankNum, Pool.firstFree_succ]
      by_cases inside : h ≤ pool.height
      · have next : u8 ((h + 1 : Nat) + 1) = h + 2 := u8_eq _ (by omega) (by omega)
        rw [if_pos (by omega), if_pos inside,
          State.getBucket_eq _ (show h + 1 ≤ maxRankNum by unfold maxRankNum; omega), ok_bind,
          represents.lists.bucket_eq inside]
        cases found : pool.free h with
        | nil =>
            simp only [starts, List.map_nil, List.head?_nil, ne_eq, not_true_eq_false, ↓reduceIte,
              next]
            exact ih (h + 1) (by omega) (by omega)
        | cons pos rest => simp [starts]
      · rw [if_neg (by omega), if_neg inside]
        simp only [pure_eq_ok, show h = pool.height + 1 by omega]

/-! ## The splitting loop -/

theorem splitLoop_represents (fuel h gap : Nat) (valid : pool.Valid)
    (represents : Represents state pool none) (enough : gap < fuel)
    (bound : h + gap ≤ pool.height) (found : pool.free (h + gap) ≠ []) :
    ∃ next, splitLoop (h + 1) fuel state (h + gap + 1) = .ok (true, next) ∧
      Represents next (pool.splitDown h gap) none ∧ (pool.splitDown h gap).Valid ∧
      (pool.splitDown h gap).free h ≠ [] ∧ Within pool.height state next := by
  induction gap generalizing fuel state pool with
  | zero =>
      cases fuel with
      | zero => omega
      | succ fuel =>
          refine ⟨state, ?_, represents, valid, found, Within.refl _ _⟩
          rw [splitLoop, if_neg (by omega)]
          rfl
  | succ gap ih =>
      cases fuel with
      | zero => omega
      | succ fuel =>
          obtain ⟨pos, rest, head⟩ : ∃ pos rest, pool.free (h + gap + 1) = pos :: rest :=
            List.exists_cons_of_ne_nil found
          obtain ⟨popped, next, pop, split, splitRepresents, within⟩ :=
            splitTurn_represents valid represents head
          have small := represents.small
          unfold maxRankNum at small
          have rank : u8 ((h + (gap + 1) + 1 : Nat) - 1) = h + gap + 1 :=
            u8_eq _ (by omega) (by omega)
          have nonempty : (pool.splitHead (h + gap)).free (h + gap) ≠ [] := by
            rw [(Pool.free_splitHead head).1]
            exact List.cons_ne_nil _ _
          obtain ⟨final, loop, finalRepresents, finalValid, finalFound, finalWithin⟩ :=
            ih fuel (valid.splitHead head) splitRepresents (by omega)
              (by rw [Pool.height_splitHead]; omega) nonempty
          rw [Pool.height_splitHead] at finalWithin
          refine ⟨final, ?_, finalRepresents, finalValid, finalFound, within.trans finalWithin⟩
          rw [splitLoop, if_pos (by omega), show h + (gap + 1) + 1 = h + gap + 2 by omega, pop,
            ok_bind]
          simp only [split, ok_bind]
          rw [show h + gap + 2 = h + (gap + 1) + 1 by omega, rank]
          exact loop

/-! ## Taking the block -/

/-- The record of the first block of a list, taken off and marked `USED`. -/
theorem takeHead_represents {h pos : Nat} {rest : List Nat} (valid : pool.Valid)
    (represents : Represents state pool none) (head : pool.free h = pos :: rest)
    {popped : State} (relinked : Relinked (h + 1) state popped)
    (lists : FreeLists popped pool.height (Function.update pool.free h rest)) :
    Represents { popped with
        count := Function.update popped.count (h + 1) (u32 (popped.count (h + 1) - 1))
        metaArray := Function.update popped.metaArray (⟨h, pos⟩ : DyadicBlock).start
          { popped.metaArray (⟨h, pos⟩ : DyadicBlock).start with status := .used } }
      { pool with
        free := Function.update pool.free h rest
        live := pool.live ++ [⟨h, pos⟩] } none := by
  have taken : (⟨h, pos⟩ : DyadicBlock).pos ∈ pool.free (⟨h, pos⟩ : DyadicBlock).height := by
    simp [head]
  have member : (⟨h, pos⟩ : DyadicBlock) ∈ pool.blocks := .inl taken
  have remaining : ∀ other : DyadicBlock,
      other.pos ∈ Function.update pool.free h rest other.height ↔
        other.pos ∈ pool.free other.height ∧ other ≠ ⟨h, pos⟩ := by
    intro other
    have erased := @Pool.mem_update_erase pool.free ⟨h, pos⟩ (valid.freeNodup _) other
    simp only [head, List.erase_cons_head] at erased
    exact erased
  have label : ∀ page, State.label { popped with
      count := Function.update popped.count (h + 1) (u32 (popped.count (h + 1) - 1))
      metaArray := Function.update popped.metaArray (⟨h, pos⟩ : DyadicBlock).start
        { popped.metaArray (⟨h, pos⟩ : DyadicBlock).start with status := .used } } page =
      if page = (⟨h, pos⟩ : DyadicBlock).start then
        (.used, h + 1, treeIndex pool.height ⟨h, pos⟩)
      else state.label page := by
    intro page
    refine (label_update popped _ page _).trans ?_
    have old := represents.unused ⟨h, pos⟩ taken
    rw [← relinked.label] at old ⊢
    simp only [State.label, Prod.mk.injEq] at old ⊢
    rw [old.2.1, old.2.2]
  constructor
  case small => exact represents.small
  case rankNum => exact relinked.rankNum.trans represents.rankNum
  case lists =>
    refine lists.congr ⟨rfl, ?_⟩
    intro other free
    obtain ⟨old, different⟩ := (remaining other).mp free
    simp [valid.start_ne (.inl old) member different]
  case counts =>
    intro other bound
    have count := represents.counts other bound
    have countSmall := represents.count_lt valid other
    simp only [relinked.count]
    by_cases same : other = h
    · subst same
      rw [head, List.length_cons] at count countSmall
      rw [Function.update_self, Function.update_self, count]
      exact u32_eq _ (by omega) (by omega)
    · rw [Function.update_of_ne (by omega), Function.update_of_ne same]
      exact count
  case unused =>
    intro block free
    obtain ⟨old, different⟩ := (remaining block).mp free
    rw [label, if_neg (valid.start_ne (.inl old) member different)]
    exact represents.unused block old
  case used =>
    intro block live notHand
    rw [label]
    rcases List.mem_append.mp live with old | new
    · have different : block ≠ ⟨h, pos⟩ := by
        intro same
        exact valid.apart block old (same ▸ taken)
      rw [if_neg (valid.start_ne (.inr old) member different)]
      exact represents.used block old notHand
    · rw [List.mem_singleton.mp new, if_pos rfl]
  case undef =>
    intro page bound outside
    have notTaken : page ≠ (⟨h, pos⟩ : DyadicBlock).start := by
      intro same
      exact outside ⟨h, pos⟩ (.inr (by simp)) same.symm
    rw [label, if_neg notTaken]
    apply represents.undef page bound
    intro block old
    apply outside block
    by_cases same : block = ⟨h, pos⟩
    · exact .inr (by simp [same])
    · rcases old with free | live
      · exact .inl ((remaining block).mpr ⟨free, same⟩)
      · exact .inr (List.mem_append_left _ live)

/-! ## The whole of `alloc_pages` -/

/-- The address of a page. -/
def pageAddress (base : UInt64) (page : Nat) : UInt64 :=
  base + UInt64.ofNat (page * pageSize)

theorem blockToPtr_eq {block : DyadicBlock} (small : pool.height < maxRankNum)
    (rankNum : state.rankNum = pool.height + 1) (inside : block.Inside pool.height) :
    blockToPtr state (treeIndex pool.height block) (block.height + 1) =
      .ok (pageAddress state.basePtr block.start) := by
  have bound := start_lt_maxPageNum small inside
  rw [blockToPtr, blockToPage_eq rankNum small inside, ok_bind, pageAddress,
    u32_eq (block.start * pageSize)]
  · rfl
  · unfold pageSize pageBits
    push_cast
    rfl
  · unfold maxPageNum maxRankNum at bound
    unfold pageSize pageBits
    omega

theorem allocPages_invalid (represents : Represents state pool none) {rank : Int}
    (invalid : rank < 1 ∨ pool.height + 1 < rank) :
    allocPages state rank = .ok (.error .einval, state) := by
  rw [allocPages, represents.rankNum, if_pos (by push_cast; exact invalid)]
  rfl

/-- `alloc_pages` on a rank of the pool answers with the block that the pool
allocates, or `-ENOSPC` when there is none. -/
theorem allocPages_represents (valid : pool.Valid) (represents : Represents state pool none)
    {h : Nat} (bound : h ≤ pool.height) :
    match pool.alloc h with
    | none => allocPages state (h + 1 : Nat) = .ok (.error .enospc, state)
    | some (block, next) =>
        ∃ after, allocPages state (h + 1 : Nat) =
            .ok (.ok (pageAddress state.basePtr block.start), after) ∧
          Represents after next none ∧ Within pool.height state after := by
  have small := represents.small
  have smallRank : h + 1 ≤ maxRankNum := by omega
  have byte : u8 ((h + 1 : Nat) : Int) = h + 1 :=
    u8_eq _ rfl (by unfold maxRankNum at smallRank; omega)
  have search := findUnusedRank_eq represents 256 h
    (by unfold maxRankNum at small; omega) (by omega)
  have checked : ¬ (((h + 1 : Nat) : Int) < 1 ∨ (state.rankNum : Int) < (h + 1 : Nat)) := by
    rw [represents.rankNum]
    omega
  cases least : pool.firstFree h with
  | none =>
      simp only [Pool.alloc, least, Option.bind_none]
      simp only [least] at search
      rw [allocPages, if_neg checked, byte, search, ok_bind, represents.rankNum,
        if_pos (by omega)]
      rfl
  | some first =>
      obtain ⟨low, high, found, _⟩ := Pool.firstFree_eq_some least
      have gapped : h + (first - h) = first := by omega
      obtain ⟨split, loop, splitRepresents, splitValid, splitFound, splitWithin⟩ :=
        splitLoop_represents 256 h (first - h) valid represents
          (by unfold maxRankNum at small; omega) (by rw [gapped]; exact high)
          (by rw [gapped]; exact found)
      obtain ⟨pos, rest, head⟩ := List.exists_cons_of_ne_nil splitFound
      obtain ⟨popped, pop, relinked, lists⟩ :=
        splitRepresents.lists.pop splitRepresents.small (splitValid.freeNodup h) head
      have member : (⟨h, pos⟩ : DyadicBlock) ∈ (pool.splitDown h (first - h)).blocks :=
        .inl (by simp [head])
      have inside := splitValid.inside member
      have pageBound := start_lt_maxPageNum splitRepresents.small inside
      simp only [least] at search
      simp only [Pool.alloc, least, Option.bind_some, Pool.takeHead, head]
      have index : (popped.metaArray (⟨h, pos⟩ : DyadicBlock).start).index =
          treeIndex pool.height ⟨h, pos⟩ := by
        have label := splitRepresents.unused ⟨h, pos⟩ (by simp [head])
        rw [← relinked.label, Pool.height_splitDown] at label
        exact congrArg (fun label => label.2.2) label
      have ptr : ∀ next : State, next.rankNum = pool.height + 1 →
          blockToPtr next (treeIndex pool.height ⟨h, pos⟩) (h + 1) =
            .ok (pageAddress next.basePtr (⟨h, pos⟩ : DyadicBlock).start) :=
        fun next same => blockToPtr_eq small same (by simpa using inside)
      have sameRank : popped.rankNum = pool.height + 1 :=
        relinked.rankNum.trans (splitRepresents.rankNum.trans (by simp))
      refine ⟨_, ?_, takeHead_represents splitValid splitRepresents head relinked lists,
        ((splitWithin.trans (relinked.within bound)).setCount bound _).setMeta _ ?_⟩
      · rw [gapped] at loop
        rw [allocPages, if_neg checked, byte, search, ok_bind, represents.rankNum,
          if_neg (by omega), show ((h + 1 : Nat) : Int).toNat = h + 1 from rfl]
        simp only [loop, pop, ok_bind, State.modifyMeta_eq _ pageBound,
          State.getCount_eq _ smallRank, State.setCount_eq _ smallRank,
          State.getMeta_eq _ pageBound, Function.update_self, index, byte, relinked.basePtr,
          splitWithin.basePtr, pure_eq_ok]
        rw [ptr _ ?_]
        · rfl
        · exact sameRank
      · intro page past
        have inRegion := inside.start_lt
        rw [Pool.height_splitDown] at inRegion
        exact (label_update popped _ page _).trans (if_neg (by omega))

end OsPractices.Buddy
