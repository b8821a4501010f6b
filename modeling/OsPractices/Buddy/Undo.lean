import OsPractices.Buddy.BestFit
import OsPractices.Buddy.Reinit

/-!
# Returning what was just allocated

Merging retraces the cut height by height: on every height between, the other
half of the block is the only block on its list. It stops at the block that was
cut, whose buddy has a live page, and puts it back at the head of its list.
-/

set_option autoImplicit false

namespace OsPractices.Buddy

open Library

namespace Pool

theorem mergeUp_stop {pool : Pool} {block : DyadicBlock}
    (closed : block.height < pool.height → block.buddy.pos ∉ pool.free block.height) (fuel : Nat) :
    mergeUp fuel pool block = (pool, block) := by
  cases fuel with
  | zero => rfl
  | succ fuel =>
      rw [mergeUp, if_neg]
      intro merges
      exact closed merges.1 merges.2

/-- Joining the two halves moves the cut one height up. -/
theorem mergeBuddy_cutFree {pool : Pool} {h first pos : Nat} {rest : List Nat}
    {hand : DyadicBlock} (live : List DyadicBlock) (below : h < first) (empty : pool.free h = [])
    (height : hand.height = h) (beside : hand.buddy.pos = pos * 2 ^ (first - h) + 1) :
    mergeBuddy ⟨pool.height, pool.cutFree h first pos rest, live⟩ hand =
      ⟨pool.height, pool.cutFree (h + 1) first pos rest, hand.parent :: live.erase hand⟩ := by
  subst height
  simp only [mergeBuddy, mk.injEq, and_true, true_and]
  rw [cutFree_between _ _ _ le_rfl below, beside, List.erase_cons_head]
  funext other
  by_cases same : other = hand.height
  · subst same
    rw [Function.update_self, cutFree_other _ _ _ (.inl (Nat.lt_succ_self _)) below, empty]
  · rw [Function.update_of_ne same]
    rcases Nat.lt_or_ge other hand.height with under | above
    · rw [cutFree_other _ _ _ (.inl under) below.le,
        cutFree_other _ _ _ (.inl (under.trans (Nat.lt_succ_self _))) below]
    · simp only [cutFree, show hand.height ≤ other ↔ hand.height + 1 ≤ other by omega]

/-- Merging a block that was cut out ends at the block it was cut from. -/
theorem mergeUp_cutFree {pool : Pool} {h pos : Nat} {rest : List Nat} (gap fuel : Nat)
    (enough : gap ≤ fuel) (bound : h + gap ≤ pool.height)
    (empty : ∀ lower, h ≤ lower → lower < h + gap → pool.free lower = [])
    (alone : h + gap < pool.height → (⟨h + gap, pos⟩ : DyadicBlock).buddy.pos ∉ rest)
    (live : List DyadicBlock) (held : live.erase ⟨h, pos * 2 ^ gap⟩ = pool.live) :
    ∃ joined : List DyadicBlock,
      mergeUp fuel ⟨pool.height, pool.cutFree h (h + gap) pos rest, live⟩ ⟨h, pos * 2 ^ gap⟩ =
        (⟨pool.height, pool.cutFree (h + gap) (h + gap) pos rest, joined⟩, ⟨h + gap, pos⟩) ∧
      joined.erase ⟨h + gap, pos⟩ = pool.live := by
  induction gap generalizing h fuel live with
  | zero =>
      refine ⟨live, ?_, by simpa using held⟩
      rw [pow_zero, Nat.mul_one]
      apply mergeUp_stop
      simpa [cutFree] using alone
  | succ gap ih =>
      obtain ⟨spare, rfl⟩ := Nat.exists_eq_add_of_le' enough
      have isBuddy : (⟨h, pos * 2 ^ (gap + 1)⟩ : DyadicBlock).buddy.pos =
          pos * 2 ^ (gap + 1) + 1 := by
        rw [pow_succ', Nat.mul_left_comm, left_buddy]
      have isParent : (⟨h, pos * 2 ^ (gap + 1)⟩ : DyadicBlock).parent = ⟨h + 1, pos * 2 ^ gap⟩ := by
        rw [pow_succ', Nat.mul_left_comm, left_parent]
      have beside : (⟨h, pos * 2 ^ (gap + 1)⟩ : DyadicBlock).buddy.pos =
          pos * 2 ^ (h + (gap + 1) - h) + 1 := by
        rw [isBuddy, Nat.add_sub_cancel_left]
      have joins := @mergeBuddy_cutFree pool h (h + (gap + 1)) pos rest ⟨h, pos * 2 ^ (gap + 1)⟩
        live (by omega) (empty h le_rfl (by omega)) rfl beside
      have free : (⟨h, pos * 2 ^ (gap + 1)⟩ : DyadicBlock).buddy.pos ∈
          pool.cutFree h (h + (gap + 1)) pos rest h := by
        rw [cutFree_between _ _ _ le_rfl (by omega), beside]
        exact List.mem_singleton_self _
      rw [show spare + (gap + 1) = spare + gap + 1 by omega, mergeUp,
        if_pos ⟨show h < pool.height by omega, free⟩, joins, isParent, held]
      rw [show h + (gap + 1) = h + 1 + gap by omega] at bound empty alone ⊢
      exact ih (spare + gap) (by omega) bound (fun lower atLeast => empty lower (by omega)) alone _
        (List.erase_cons_head _ _)

/-- Releasing what was just allocated restores the pool, lists in their order. -/
theorem release_alloc {pool next : Pool} {height : Nat} {block : DyadicBlock}
    (valid : pool.Valid) (canonical : pool.Canonical)
    (result : pool.alloc height = some (block, next)) : next.release block = pool := by
  obtain ⟨nextValid, -, -, -, nextLive⟩ := alloc_eq_some valid canonical result
  obtain ⟨first, pos, rest, low, high, head, empty, rfl, rfl⟩ := alloc_cuts result
  obtain ⟨gap, rfl⟩ := Nat.exists_eq_add_of_le low
  rw [Nat.add_sub_cancel_left] at nextValid nextLive ⊢
  have fresh : (⟨height, pos * 2 ^ gap⟩ : DyadicBlock) ∉ pool.live := by
    intro live
    have nodup := nextValid.liveNodup
    exact (List.nodup_append.mp nodup).2.2 _ live _ (List.mem_singleton_self _) rfl
  have alone : height + gap < pool.height →
      (⟨height + gap, pos⟩ : DyadicBlock).buddy.pos ∉ rest := by
    intro below free
    have buddyFree : (⟨height + gap, pos⟩ : DyadicBlock).buddy.pos ∈ pool.free (height + gap) := by
      rw [head]
      exact .tail _ free
    obtain ⟨busy, live, overlaps⟩ := canonical ⟨height + gap, pos⟩ (by simp [head]) below
    have same := valid.tiles.apart busy (.inr live) _ (.inl buddyFree) overlaps
    subst same
    exact valid.apart _ live buddyFree
  have held : (pool.live ++ [(⟨height, pos * 2 ^ gap⟩ : DyadicBlock)]).erase
      ⟨height, pos * 2 ^ gap⟩ = pool.live := by
    rw [List.erase_append_right _ fresh, List.erase_cons_head, List.append_nil]
  obtain ⟨joined, merges, erased⟩ := mergeUp_cutFree gap (pool.height - height) (by omega) high
    empty alone _ held
  have lists : Function.update (pool.cutFree (height + gap) (height + gap) pos rest) (height + gap)
      (pos :: pool.cutFree (height + gap) (height + gap) pos rest (height + gap)) = pool.free := by
    funext h
    by_cases same : h = height + gap
    · subst same
      rw [Function.update_self, cutFree_first, head]
    · rw [Function.update_of_ne same, cutFree_other _ _ _ (by omega) le_rfl]
  rw [release]
  simp only [merges, putFree, erased, lists]

end Pool

/-! ## The arrays -/

/-- The status of every record, every count and every bucket, in its order. -/
structure Restored (state final : State) : Prop where
  status : ∀ page, (final.metaArray page).status = (state.metaArray page).status
  count : final.count = state.count
  bucket : ∀ rank ≤ maxRankNum, SameBucket state final rank

/-- Two states that represent one pool agree on statuses, counts and buckets. -/
theorem restored_of_represents {state final : State} {pool : Pool} (valid : pool.Valid)
    (before : Represents state pool none) (after : Represents final pool none)
    (within : Within pool.height state final)
    (empty : ∀ rank, rank = 0 ∨ pool.height + 1 < rank → state.bucket rank = none) :
    Restored state final := by
  constructor
  case status =>
    intro page
    by_cases bound : page < 2 ^ pool.height
    · have same := sameRecord_of_tiles valid before valid after rfl bound (fun _ _ => Iff.rfl)
        fun _ _ => Iff.rfl
      cases same with
      | inl undef => exact undef.2.trans undef.1.symm
      | inr label => exact congrArg Prod.fst label
    · exact congrArg Prod.fst (within.label page (by omega))
  case count =>
    funext rank
    by_cases outside : rank = 0 ∨ pool.height + 1 < rank
    · exact within.count rank outside
    · obtain ⟨h, rfl⟩ : ∃ h, rank = h + 1 := ⟨rank - 1, by omega⟩
      rw [after.counts h (by omega), before.counts h (by omega)]
  case bucket =>
    intro rank _
    by_cases outside : rank = 0 ∨ pool.height + 1 < rank
    · have none := empty rank outside
      exact ⟨[], ⟨none, List.nodup_nil, trivial⟩,
        ⟨(within.bucket rank outside).trans none, List.nodup_nil, trivial⟩⟩
    · obtain ⟨h, rfl⟩ : ∃ h, rank = h + 1 := ⟨rank - 1, by omega⟩
      exact ⟨_, before.lists.holds h (by omega), after.lists.holds h (by omega)⟩

/-- In a region that ends within the address space every block is near. -/
theorem near_pageAddress {base : UInt64} {height : Nat} {block : DyadicBlock}
    (fits : base.toNat + 2 ^ height * pageSize ≤ 2 ^ 64) (small : height < maxRankNum)
    (inside : block.Inside height) : Near base (pageAddress base block.start) := by
  have bound : block.start * pageSize < 2 ^ height * pageSize :=
    Nat.mul_lt_mul_of_pos_right inside.start_lt (by decide)
  have pages := two_pow_le small
  rw [Near, toNat_pageAddress (by omega)]
  unfold pageSize pageBits at *
  omega

theorem Pool.exec_pages {pool : Pool} {base ptr : UInt64} {rank : Int}
    (answer : (pool.exec base (.allocPages rank)).1 = .pages ptr) :
    ∃ height block next, pool.alloc height = some (block, next) ∧
      ptr = pageAddress base block.start ∧ (pool.exec base (.allocPages rank)).2 = next := by
  simp only [Pool.exec] at answer ⊢
  split at answer
  case isTrue => cases answer
  case isFalse valid =>
    cases taken : pool.alloc (rank.toNat - 1) with
    | none =>
        simp only [taken] at answer
        cases answer
    | some found =>
        obtain ⟨block, next⟩ := found
        simp only [taken, Reply.pages.injEq] at answer
        refine ⟨_, block, next, taken, answer.symm, ?_⟩
        rw [if_neg valid]

/-- An allocation of a session, returned at once. -/
theorem Tracks.return_alloc {base : UInt64} {session : Session} {pool : Pool}
    (tracks : Tracks base session pool) (fits : base.toNat + 2 ^ pool.height * pageSize ≤ 2 ^ 64)
    (empty : ∀ rank, rank = 0 ∨ pool.height + 1 < rank → session.state.bucket rank = none)
    {rank : Int} {ptr : UInt64} {after : State}
    (call : allocPages session.state rank = .ok (.ok ptr, after)) :
    ∃ final, returnPages after ptr = .ok (ok, final) ∧ Restored session.state final := by
  obtain ⟨following, step, nextTracks, within, sameHeight⟩ :=
    @step_tracks _ _ _ (.allocPages rank) tracks trivial
  have isStep : session.step (.allocPages rank) =
      .ok (.pages ptr, ⟨after, session.live ++ [⟨ptr, rank.toNat⟩]⟩) := by
    simp only [Session.step, exec, call, ledger, ok_bind, pure_eq_ok]
  rw [isStep] at step
  simp only [Except.ok.injEq, Prod.mk.injEq] at step
  obtain ⟨answer, rfl⟩ := step
  obtain ⟨height, block, next, taken, rfl, isNext⟩ := Pool.exec_pages answer.symm
  rw [isNext] at nextTracks sameHeight
  obtain ⟨nextValid, -, -, -, nextLive⟩ :=
    Pool.alloc_eq_some tracks.valid tracks.canonical taken
  have live : block ∈ next.live := by simp [nextLive]
  have near := near_pageAddress (sameHeight.symm ▸ fits) nextTracks.represents.small
    (nextValid.inside (.inr live))
  have found := lookup_near nextValid nextTracks.represents.small (.inr live) near
  have basePtr : after.basePtr = base := nextTracks.basePtr
  have result := returnPages_represents nextValid nextTracks.represents
    (basePtr.symm ▸ nextTracks.past) (basePtr.symm ▸ near.measured)
  rw [basePtr, found, Option.filter_some, if_pos (by simpa using live)] at result
  obtain ⟨-, final, returned, represents, finalWithin⟩ := result
  rw [Pool.release_alloc tracks.valid tracks.canonical taken] at represents
  rw [sameHeight] at finalWithin
  exact ⟨final, returned, restored_of_represents tracks.valid tracks.represents represents
    (within.trans finalWithin) empty⟩

/-- `return_pages` undoes `alloc_pages`: statuses, counts and the order of every
bucket. -/
theorem return_undoes_alloc (base : UInt64) (pgcount : Nat) (positive : 1 ≤ pgcount)
    (bound : pgcount < 2 ^ 20) (fits : base.toNat + regionSize pgcount ≤ 2 ^ 64) (calls : List Call)
    (client : returnsLiveFrom base pgcount calls = true) :
    ∃ replies last, runFrom programStart base pgcount calls = .ok (replies, last) ∧
      ∀ (rank : Int) (ptr : UInt64) (after : State),
        allocPages last.state rank = .ok (.ok ptr, after) →
          ∃ final, returnPages after ptr = .ok (ok, final) ∧ Restored last.state final := by
  obtain ⟨replies, last, pool, run, tracks, height, outside⟩ :=
    clientRun_tracks base positive bound client
  refine ⟨replies, last, run, ?_⟩
  intro rank ptr after call
  rw [regionSize, ← height] at fits
  rw [← height] at outside
  exact tracks.return_alloc fits (fun rank beyond => (outside rank beyond).1) call

theorem return_undoes_alloc_of_three_pages :
    ∃ replies last, runFrom programStart 0x100000 11
        [.allocPages 1, .allocPages 3, .returnPages 0x100000] = .ok (replies, last) ∧
      ∀ (rank : Int) (ptr : UInt64) (after : State),
        allocPages last.state rank = .ok (.ok ptr, after) →
          ∃ final, returnPages after ptr = .ok (ok, final) ∧ Restored last.state final :=
  return_undoes_alloc 0x100000 11 (by decide) (by decide) (by decide)
    [.allocPages 1, .allocPages 3, .returnPages 0x100000] (by decide +kernel)

end OsPractices.Buddy
