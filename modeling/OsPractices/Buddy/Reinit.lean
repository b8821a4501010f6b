import OsPractices.Buddy.Properties

/-!
# Calling `init_page` again

`is_valid_ptr` admits the page after the region, whose record `init_page` does
not clear when the page count is a power of two. A second `init_page` is a full
reset exactly when that record was out of use, or the page has no address.
-/

set_option autoImplicit false

namespace OsPractices.Buddy

open Library

inductive Operation where
  | initPage (p : UInt64) (pgcount : Int)
  | call (call : Call)
  deriving DecidableEq, Repr

/-- The state after any earlier use of the allocator. -/
def runHistory (state : State) : List Operation → Except Fault State
  | [] => pure state
  | .initPage p pgcount :: history => do
      let (_, state) ← initPage state p pgcount
      runHistory state history
  | .call call :: history => do
      let (_, state) ← exec state call
      runHistory state history

/-- A call about an address at or beyond the end of the region. -/
def Call.Beyond (p : UInt64) (pgcount : Nat) : Call → Prop
  | .returnPages ptr => p.toNat + regionSize pgcount ≤ ptr.toNat
  | .queryRanks ptr => p.toNat + regionSize pgcount ≤ ptr.toNat
  | _ => False

/-- After `init_page` the calls are answered as after `init_page` from program
start. -/
def SameReplies (state : State) (p : UInt64) (pgcount : Nat) (calls : List Call) : Prop :=
  ∃ replies last fresh, runFrom state p pgcount calls = .ok (replies, last) ∧
    runFrom programStart p pgcount calls = .ok (replies, fresh)

/-- No call about an address beyond the region is accepted. -/
def RefusesBeyond (state : State) (p : UInt64) (pgcount : Nat) (calls : List Call) : Prop :=
  ∀ replies last, runFrom state p pgcount calls = .ok (replies, last) →
    ∀ answered ∈ calls.zip replies, answered.1.Beyond p pgcount →
      answered.2 = .status (-einval)

theorem lookup_beyond {base ptr : UInt64} {pool : Pool} (valid : pool.Valid)
    (beyond : base.toNat + 2 ^ pool.height * pageSize ≤ ptr.toNat) :
    pool.lookup base ptr = none := by
  cases found : pool.lookup base ptr with
  | none => rfl
  | some block =>
      obtain ⟨page, isPage, at_⟩ := Option.bind_eq_some_iff.mp found
      obtain ⟨member, start⟩ := valid.blockAt_eq_some.mp at_
      have inside := (valid.inside member).start_lt
      have address := pageOf_eq_some.mp isPage
      have positive : 0 < pageSize := by decide
      have before : page * pageSize < 2 ^ pool.height * pageSize :=
        Nat.mul_lt_mul_of_pos_right (start ▸ inside) positive
      omega

theorem exec_beyond {base : UInt64} {pool : Pool} (valid : pool.Valid) {pgcount : Nat}
    (height : pool.height = pgcount.log2) {call : Call} (beyond : call.Beyond base pgcount) :
    (pool.exec base call).1 = .status (-einval) := by
  cases call with
  | allocPages rank => cases beyond
  | returnPages p =>
      have absent := lookup_beyond valid (by rw [height]; exact beyond)
      simp only [Pool.exec, absent, Option.filter_none]
  | queryRanks p =>
      have absent := lookup_beyond valid (by rw [height]; exact beyond)
      simp only [Pool.exec, absent]
  | queryPageCounts rank => cases beyond

theorem run_beyond {base : UInt64} {session : Session} {pool : Pool} {calls : List Call}
    {pgcount : Nat} (tracks : Tracks base session pool) (height : pool.height = pgcount.log2)
    (measured : ∀ call ∈ calls, call.Passes (Measured base)) :
    ∀ answered ∈ calls.zip (pool.run base calls).1, answered.1.Beyond base pgcount →
      answered.2 = .status (-einval) := by
  induction calls generalizing session pool with
  | nil =>
      intro answered member
      cases member
  | cons call calls ih =>
      obtain ⟨next, _, nextTracks, _, sameHeight⟩ := step_tracks tracks (measured call (.head _))
      intro answered member beyond
      cases member with
      | head => exact exec_beyond tracks.valid height beyond
      | tail _ rest =>
          exact ih nextTracks (sameHeight.trans height)
            (fun other inRest => measured other (.tail _ inRest)) answered rest beyond

theorem toNat_pageAddress {base : UInt64} {page : Nat}
    (fits : base.toNat + page * pageSize < 2 ^ 64) :
    (pageAddress base page).toNat = base.toNat + page * pageSize := by
  rw [pageAddress, UInt64.toNat_add, UInt64.toNat_ofNat',
    Nat.mod_eq_of_lt (show page * pageSize < 2 ^ 64 by omega), Nat.mod_eq_of_lt fits]

/-- The record of the page after the region decides what `query_ranks` answers
there. -/
theorem queryRanks_atEnd (state : State) (p : UInt64) {pgcount : Nat} (positive : 1 ≤ pgcount)
    (bound : pgcount < 2 ^ 20) (inUse : ¬ EndRecordUnused state p pgcount) :
    ∃ rank last, runFrom state p pgcount [.queryRanks (pageAddress p pgcount)] =
      .ok ([.status (rank : Nat)], last) := by
  have power : 2 ^ heightOf pgcount = pgcount := by_contra fun other => inUse (.inl other)
  have used : (state.metaArray pgcount).status ≠ .undef := fun undef => inUse (.inr (.inl undef))
  have fits : p.toNat + pgcount * pageSize < 2 ^ 64 := by
    by_contra wraps
    exact inUse (.inr (.inr (by omega)))
  obtain ⟨next, init, base, rankNum, _, _, _, label⟩ := initPage_eq state p positive bound
  have small := heightOf_lt positive bound
  have status : (next.metaArray pgcount).status = (state.metaArray pgcount).status := by
    have atEnd := label pgcount
    rw [if_neg (by omega), if_neg (lt_irrefl _)] at atEnd
    exact congrArg Prod.fst atEnd
  have address := toNat_pageAddress fits
  have found : pageOf next.basePtr (pageAddress p pgcount) = some pgcount :=
    pageOf_eq_some.mpr (by rw [base, address])
  have measured : Measured next.basePtr (pageAddress p pgcount) := by
    left
    rw [base, address]
    unfold pageSize pageBits
    omega
  have test := @isValidPtr_eq next (Pool.initial (heightOf pgcount)) _ small rankNum measured
  have toPage := @ptrToPage_eq next (Pool.initial (heightOf pgcount)) _ _ small found power.ge
  refine ⟨(next.metaArray pgcount).rank, ⟨next, []⟩, ?_⟩
  have inArray : pgcount < maxPageNum := bound
  simp [runFrom, init, Session.run, Session.step, exec, queryRanks, test, found, toPage,
    State.getMeta_eq _ inArray, status, used, ledger, Pool.initial, power.ge]

/-- Whatever came before, a second `init_page` is a full reset for callers whose
pointers the code measures right exactly when the page after the region is
harmless. -/
theorem reinit_resets_iff (p : UInt64) (pgcount : Nat) (positive : 1 ≤ pgcount)
    (bound : pgcount < 2 ^ 20) (history : List Operation) (state : State) :
    runHistory programStart history = .ok state →
      ((∀ calls : List Call, (∀ call ∈ calls, call.Passes (Measured p)) →
          SameReplies state p pgcount calls ∧ RefusesBeyond state p pgcount calls) ↔
        EndRecordUnused state p pgcount) := by
  intro _
  constructor
  · intro reset
    by_contra inUse
    obtain ⟨rank, last, run⟩ := queryRanks_atEnd state p positive bound inUse
    have power : 2 ^ pgcount.log2 = pgcount := by_contra fun other => inUse (.inl other)
    have fits : p.toNat + pgcount * pageSize < 2 ^ 64 := by
      by_contra wraps
      exact inUse (.inr (.inr (by omega)))
    have address : (pageAddress p pgcount).toNat = p.toNat + pgcount * pageSize :=
      toNat_pageAddress fits
    have measured : ∀ call ∈ [Call.queryRanks (pageAddress p pgcount)],
        call.Passes (Measured p) := by
      intro call member
      rw [List.mem_singleton.mp member]
      left
      rw [address]
      unfold pageSize pageBits
      omega
    have refused := (reset _ measured).2 _ last run
      (.queryRanks (pageAddress p pgcount), .status (rank : Nat)) (.head _)
      (by rw [Call.Beyond, address, regionSize, power])
    simp [einval] at refused
  · intro unused calls measured
    obtain ⟨last, run, tracks, height, _⟩ := runFrom_tracks p positive bound unused measured
    obtain ⟨fresh, freshRun, _⟩ :=
      runFrom_tracks p positive bound (endRecordUnused_programStart p pgcount) measured
    refine ⟨⟨_, last, fresh, run, freshRun⟩, ?_⟩
    intro replies last' run'
    cases run.symm.trans run'
    obtain ⟨start, init, basePtr, _, pastEnd, represents⟩ :=
      initPage_represents state p positive bound
    have tracks : Tracks p ⟨start, []⟩ (Pool.initial (heightOf pgcount)) :=
      ⟨represents, basePtr, pastEnd.mpr unused, Pool.Valid.initial _, Pool.Canonical.initial _, rfl⟩
    exact run_beyond tracks rfl measured

/-- A page and a block of two pages are handed out and returned, so that nothing of
them is left on record. -/
theorem reinit_resets_after_returns :
    ∃ state, runHistory programStart
        [.initPage 0x100000 4, .call (.allocPages 1), .call (.allocPages 2),
          .call (.returnPages 0x102000), .call (.returnPages 0x100000)] = .ok state ∧
      ∀ calls : List Call, (∀ call ∈ calls, call.Passes (Measured 0x100000)) →
        SameReplies state 0x100000 2 calls ∧ RefusesBeyond state 0x100000 2 calls := by
  have returned : (do
      let state ← runHistory programStart
        [.initPage 0x100000 4, .call (.allocPages 1), .call (.allocPages 2),
          .call (.returnPages 0x102000), .call (.returnPages 0x100000)]
      pure (state.metaArray 2).status) = (.ok .undef : Except Fault Status) := rfl
  obtain ⟨state, reached, record⟩ := bind_eq_ok_iff.mp returned
  have unused : EndRecordUnused state 0x100000 2 := .inr (.inl (Except.ok.inj record))
  exact ⟨state, reached,
    (reinit_resets_iff 0x100000 2 (by decide) (by decide) _ state reached).mpr unused⟩

/-- Two pages, both handed out, and then a region of one page: the second page
is still on record as handed out and `return_pages` takes it back. -/
theorem reinit_keeps_stale_record :
    ∃ state, runHistory programStart
        [.initPage 0x100000 2, .call (.allocPages 1), .call (.allocPages 1)] = .ok state ∧
      (∃ last, runFrom state 0x100000 1 [.returnPages 0x101000] = .ok ([.status ok], last)) ∧
      ¬ SameReplies state 0x100000 1 [.returnPages 0x101000] ∧
      ¬ RefusesBeyond state 0x100000 1 [.returnPages 0x101000] := by
  have stale : (do
      let state ← runHistory programStart
        [.initPage 0x100000 2, .call (.allocPages 1), .call (.allocPages 1)]
      let ran ← runFrom state 0x100000 1 [.returnPages 0x101000]
      pure ran.1) = (.ok [.status ok] : Except Fault (List Reply)) := rfl
  have freshReplies : (do
      let ran ← runFrom programStart 0x100000 1 [.returnPages 0x101000]
      pure ran.1) = (.ok [.status (-einval)] : Except Fault (List Reply)) := rfl
  obtain ⟨state, reached, staleRun⟩ := bind_eq_ok_iff.mp stale
  obtain ⟨⟨replies, last⟩, run, accepted⟩ := bind_eq_ok_iff.mp staleRun
  obtain ⟨⟨refusals, fresh⟩, freshRun, refused⟩ := bind_eq_ok_iff.mp freshReplies
  cases accepted
  cases refused
  refine ⟨state, reached, ⟨last, run⟩, ?_, ?_⟩
  · intro ⟨replies, last', fresh', run', freshRun'⟩
    have accepts := congrArg Prod.fst (Except.ok.inj (run.symm.trans run'))
    have refuses := congrArg Prod.fst (Except.ok.inj (freshRun.symm.trans freshRun'))
    have equal : [Reply.status ok] = [Reply.status (-einval)] := accepts.trans refuses.symm
    exact absurd equal (by decide)
  · intro refuses
    have refused := refuses _ last run (.returnPages 0x101000, .status ok) (.head _)
      (show 0x100000 + regionSize 1 ≤ 0x101000 by decide)
    exact absurd refused (by decide)

/-- Pointers that are not measured right are a defect of their own: `2 ^ 63`
bytes above the base the signed distance is negative, and the code takes the
address for page `0`. -/
theorem queryRanks_far (p : UInt64) (pgcount : Nat) (positive : 1 ≤ pgcount)
    (bound : pgcount < 2 ^ 20) (low : p.toNat < 2 ^ 63) :
    ∃ last, runFrom programStart p pgcount [.queryRanks (p + 0x8000000000000000)] =
      .ok ([.status (heightOf pgcount + 1 : Nat)], last) := by
  obtain ⟨next, init, base, rankNum, _, _, _, label⟩ := initPage_eq programStart p positive bound
  have small := heightOf_lt positive bound
  have pages := @pageNum_eq _ next rankNum small
  have address : (p + 0x8000000000000000).toNat =
      p.toNat + 0x8000000000000000 := by
    rw [UInt64.toNat_add]
    exact Nat.mod_eq_of_lt (by simp; omega)
  have above : ¬ (p + 0x8000000000000000 < p) := by
    rw [UInt64.lt_iff_toNat_lt, address]
    omega
  have distance : ptrDiff (p + 0x8000000000000000) p =
      -0x8000000000000000 := by
    rw [ptrDiff, address, show ((p.toNat + 0x8000000000000000 : Nat) : Int) - p.toNat =
      0x8000000000000000 by omega]
    decide
  have test : isValidPtr next (p + 0x8000000000000000) = .ok true := by
    rw [isValidPtr, base, if_neg above, distance, if_neg (by decide), pages]
    have negative : (-0x8000000000000000 : Int).tdiv pageSize ≤ (2 ^ heightOf pgcount : Nat) :=
      le_trans (show _ ≤ (0 : Int) by decide) (Int.natCast_nonneg _)
    exact congrArg Except.ok (decide_eq_true negative)
  have page : ptrToPage next (p + 0x8000000000000000) = 0 := by
    rw [ptrToPage, base, distance]
    decide
  have record := label 0
  rw [if_pos rfl] at record
  simp only [State.label, Prod.mk.injEq] at record
  have inArray : 0 < maxPageNum := by decide
  have answer : queryRanks next (p + 0x8000000000000000) = .ok (heightOf pgcount + 1 : Nat) := by
    rw [queryRanks, test, ok_bind, page, State.getMeta_eq _ inArray, if_neg (by decide), ok_bind,
      record.1, record.2.1]
    rfl
  refine ⟨⟨next, []⟩, ?_⟩
  rw [runFrom, init, ok_bind]
  simp only [Session.run, Session.step, exec, answer, ok_bind, pure_eq_ok, ledger]

end OsPractices.Buddy
