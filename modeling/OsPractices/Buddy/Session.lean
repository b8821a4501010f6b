import OsPractices.Buddy.InitPage

/-!
# Sessions

A session is the memory together with the client's ledger: the blocks handed
out by `alloc_pages` and not yet returned with success. Every call on a state
that represents a pool answers as the pool does, so a whole run is determined
by the pool it starts from.
-/

set_option autoImplicit false

namespace OsPractices.Buddy

open Library

inductive Call where
  | allocPages (rank : Int)
  | returnPages (p : UInt64)
  | queryRanks (p : UInt64)
  | queryPageCounts (rank : Int)
  deriving DecidableEq, Repr

inductive Reply where
  | pages (ptr : UInt64)
  | failure (errno : Errno)
  | status (value : Int)
  deriving DecidableEq, Repr

def exec (state : State) : Call → Except Fault (Reply × State)
  | .allocPages rank => do
      match ← Buddy.allocPages state rank with
      | (.ok ptr, state) => pure (.pages ptr, state)
      | (.error errno, state) => pure (.failure errno, state)
  | .returnPages p => do
      let (value, state) ← Buddy.returnPages state p
      pure (.status value, state)
  | .queryRanks p => do
      let value ← Buddy.queryRanks state p
      pure (.status value, state)
  | .queryPageCounts rank => do
      let value ← Buddy.queryPageCounts state rank
      pure (.status value, state)

/-- Every pointer that a call passes satisfies `condition`. -/
def Call.Passes (condition : UInt64 → Prop) : Call → Prop
  | .returnPages p => condition p
  | .queryRanks p => condition p
  | _ => True

instance (condition : UInt64 → Prop) [DecidablePred condition] :
    (call : Call) → Decidable (call.Passes condition)
  | .allocPages _ => inferInstanceAs (Decidable True)
  | .returnPages p => inferInstanceAs (Decidable (condition p))
  | .queryRanks p => inferInstanceAs (Decidable (condition p))
  | .queryPageCounts _ => inferInstanceAs (Decidable True)

theorem Call.Passes.mono {weak strong : UInt64 → Prop} {call : Call} (passes : call.Passes strong)
    (implies : ∀ p, strong p → weak p) : call.Passes weak := by
  cases call with
  | allocPages rank => trivial
  | returnPages p => exact implies p passes
  | queryRanks p => exact implies p passes
  | queryPageCounts rank => trivial

/-- A block as the client knows it: its address and the rank it asked for. -/
structure Allocation where
  ptr : UInt64
  rank : Nat
  deriving DecidableEq, Repr

structure Session where
  state : State
  live : List Allocation

/-- The ledger after a call. -/
def ledger (live : List Allocation) : Call → Reply → List Allocation
  | .allocPages rank, .pages ptr => live ++ [⟨ptr, rank.toNat⟩]
  | .returnPages p, .status value => if value = ok then live.eraseP (·.ptr = p) else live
  | _, _ => live

def Session.step (session : Session) (call : Call) : Except Fault (Reply × Session) := do
  let (reply, state) ← exec session.state call
  pure (reply, ⟨state, ledger session.live call reply⟩)

def Session.run (session : Session) : List Call → Except Fault (List Reply × Session)
  | [] => pure ([], session)
  | call :: calls => do
      let (reply, session) ← session.step call
      let (replies, session) ← session.run calls
      pure (reply :: replies, session)

/-- `init_page` and then a sequence of calls. -/
def runFrom (state : State) (p : UInt64) (pgcount : Int) (calls : List Call) :
    Except Fault (List Reply × Session) := do
  let (_, state) ← initPage state p pgcount
  Session.run ⟨state, []⟩ calls

/-! ## The same calls on a pool -/

def Pool.exec (pool : Pool) (base : UInt64) : Call → Reply × Pool
  | .allocPages rank =>
      if rank < 1 ∨ pool.height + 1 < rank then (.failure .einval, pool)
      else
        match pool.alloc (rank.toNat - 1) with
        | none => (.failure .enospc, pool)
        | some (block, next) => (.pages (pageAddress base block.start), next)
  | .returnPages p =>
      match (pool.lookup base p).filter (· ∈ pool.live) with
      | none => (.status (-einval), pool)
      | some block => (.status ok, pool.release block)
  | .queryRanks p =>
      match pool.lookup base p with
      | none => (.status (-einval), pool)
      | some block => (.status (block.height + 1 : Nat), pool)
  | .queryPageCounts rank =>
      if rank < 1 ∨ pool.height + 1 < rank then (.status (-einval), pool)
      else (.status (pool.free (rank.toNat - 1)).length, pool)

def Pool.run (pool : Pool) (base : UInt64) : List Call → List Reply × Pool
  | [] => ([], pool)
  | call :: calls =>
      let (reply, next) := pool.exec base call
      let (replies, last) := next.run base calls
      (reply :: replies, last)

/-- The invariant of a session: what its memory represents and what the client
may rely on. -/
structure Tracks (base : UInt64) (session : Session) (pool : Pool) : Prop where
  represents : Represents session.state pool none
  basePtr : session.state.basePtr = base
  past : PastEnd base session.state pool.height
  valid : pool.Valid
  canonical : pool.Canonical
  live : session.live = pool.live.map fun block =>
    ⟨pageAddress base block.start, block.height + 1⟩

/-! ## Addresses -/

/-- The distance of an address from the base. -/
def offset (base ptr : UInt64) : Nat := (ptr - base).toNat

theorem offset_pageAddress {page : Nat} (base : UInt64) (bound : page < maxPageNum) :
    offset base (pageAddress base page) = page * pageSize := by
  have small : page * pageSize < 2 ^ 64 := by
    unfold maxPageNum maxRankNum at bound
    unfold pageSize pageBits
    omega
  rw [offset, pageAddress, UInt64.add_comm, UInt64.add_sub_cancel, UInt64.toNat_ofNat']
  exact Nat.mod_eq_of_lt small

theorem pageAddress_injective {left right : Nat} (base : UInt64) (leftBound : left < maxPageNum)
    (rightBound : right < maxPageNum) (same : pageAddress base left = pageAddress base right) :
    left = right := by
  have offsets := congrArg (offset base) same
  rw [offset_pageAddress base leftBound, offset_pageAddress base rightBound] at offsets
  exact Nat.eq_of_mul_eq_mul_right (by decide) offsets

/-- A near address that is looked up with success is the address of the block. -/
theorem lookup_address {pool : Pool} (valid : pool.Valid) {base ptr : UInt64} {block : DyadicBlock}
    (found : pool.lookup base ptr = some block) :
    block ∈ pool.blocks ∧ ptr = pageAddress base block.start := by
  obtain ⟨page, isPage, at_⟩ := Option.bind_eq_some_iff.mp found
  obtain ⟨member, start⟩ := valid.blockAt_eq_some.mp at_
  refine ⟨member, ?_⟩
  have toNat := pageOf_eq_some.mp isPage
  have small := ptr.toNat_lt
  apply UInt64.toNat_inj.mp
  rw [pageAddress, start, UInt64.toNat_add, UInt64.toNat_ofNat',
    Nat.mod_eq_of_lt (show _ < 2 ^ 64 by omega),
    Nat.mod_eq_of_lt (by omega), toNat]

/-! ## Every call keeps the invariant -/

/-- Returning a block takes its entry off the ledger. -/
theorem ledger_erase {base : UInt64} {live : List DyadicBlock} {block : DyadicBlock}
    (distinct : ∀ other ∈ live, pageAddress base other.start = pageAddress base block.start →
      other = block) (entry : DyadicBlock → Allocation)
    (address : ∀ other, (entry other).ptr = pageAddress base other.start) :
    (live.map entry).eraseP (·.ptr = pageAddress base block.start) =
      (live.erase block).map entry := by
  induction live with
  | nil => rfl
  | cons first rest ih =>
      by_cases same : first = block
      · subst same
        simp [address]
      · have different : pageAddress base first.start ≠ pageAddress base block.start :=
          fun equal => same (distinct first (.head _) equal)
        rw [List.erase_cons_tail (by simpa using same), List.map_cons, List.map_cons,
          List.eraseP_cons_of_neg (by simpa [address] using different),
          ih fun other member => distinct other (.tail _ member)]

theorem step_tracks {base : UInt64} {session : Session} {pool : Pool} {call : Call}
    (tracks : Tracks base session pool) (measured : call.Passes (Measured base)) :
    ∃ next, session.step call = .ok ((pool.exec base call).1, next) ∧
      Tracks base next (pool.exec base call).2 ∧
      Within pool.height session.state next.state ∧
      (pool.exec base call).2.height = pool.height := by
  have unchanged : Tracks base session pool ∧ Within pool.height session.state session.state ∧
      pool.height = pool.height := ⟨tracks, Within.refl _ _, rfl⟩
  have keepsPast : ∀ next : State, Within pool.height session.state next →
      PastEnd base next pool.height := by
    intro next within
    have status := congrArg Prod.fst (within.label _ le_rfl)
    exact tracks.past.imp_left fun undef => status.trans undef
  obtain ⟨represents, basePtr, past, valid, canonical, live⟩ := tracks
  cases call with
  | allocPages rank =>
      by_cases invalid : rank < 1 ∨ (pool.height : Int) + 1 < rank
      · have answer : pool.exec base (.allocPages rank) = (.failure .einval, pool) := by
          simp only [Pool.exec, invalid, ↓reduceIte]
        have result := allocPages_invalid represents invalid
        rw [answer]
        exact ⟨session, by simp [Session.step, exec, result, ledger], unchanged⟩
      · obtain ⟨h, rankEq⟩ : ∃ h : Nat, rank = (h + 1 : Nat) :=
          ⟨rank.toNat - 1, by omega⟩
        subst rankEq
        have bound : h ≤ pool.height := by omega
        have result := allocPages_represents valid represents bound
        have toHeight : ((h + 1 : Nat) : Int).toNat - 1 = h := by omega
        cases taken : pool.alloc h with
        | none =>
            have answer : pool.exec base (.allocPages (h + 1 : Nat)) =
                (.failure .enospc, pool) := by
              simp only [Pool.exec, if_neg invalid, toHeight, taken]
            simp only [taken] at result
            rw [answer]
            exact ⟨session, by simp only [Session.step, exec, result, ledger, ok_bind, pure_eq_ok],
              unchanged⟩
        | some found =>
            obtain ⟨block, next⟩ := found
            have answer : pool.exec base (.allocPages (h + 1 : Nat)) =
                (.pages (pageAddress base block.start), next) := by
              simp only [Pool.exec, if_neg invalid, toHeight, taken]
            simp only [taken] at result
            obtain ⟨after, alloc, nextRepresents, within⟩ := result
            obtain ⟨nextValid, nextCanonical, height, sameHeight, nextLive⟩ :=
              Pool.alloc_eq_some valid canonical taken
            rw [answer]
            refine ⟨⟨after, session.live ++ [⟨pageAddress base block.start, h + 1⟩]⟩, ?_,
              ⟨nextRepresents, within.basePtr.trans basePtr, sameHeight ▸ keepsPast after within,
                nextValid, nextCanonical, ?_⟩,
              within, sameHeight⟩
            · simp only [Session.step, exec, alloc, ledger, ok_bind, pure_eq_ok, basePtr,
                Int.toNat_natCast]
            · rw [nextLive, List.map_append, live, List.map_singleton, height]
  | returnPages p =>
      have result := returnPages_represents valid represents (basePtr ▸ past) (basePtr ▸ measured)
      rw [basePtr] at result
      cases found : (pool.lookup base p).filter (· ∈ pool.live) with
      | none =>
          have answer : pool.exec base (.returnPages p) = (.status (-einval), pool) := by
            simp only [Pool.exec, found]
          simp only [found] at result
          rw [answer]
          exact ⟨session, by simp [Session.step, exec, result, ledger, einval, ok], unchanged⟩
      | some block =>
          have answer : pool.exec base (.returnPages p) = (.status ok, pool.release block) := by
            simp only [Pool.exec, found]
          simp only [found] at result
          obtain ⟨inLive, after, release, nextRepresents, within⟩ := result
          obtain ⟨lookedUp, _⟩ := Option.filter_eq_some_iff.mp found
          obtain ⟨_, address⟩ := lookup_address valid lookedUp
          rw [answer]
          refine ⟨⟨after, session.live.eraseP (·.ptr = p)⟩, ?_,
            ⟨nextRepresents, within.basePtr.trans basePtr,
              (Pool.height_release pool block).symm ▸ keepsPast after within, valid.release inLive,
              canonical.release valid inLive, ?_⟩, within, Pool.height_release _ _⟩
          · simp [Session.step, exec, release, ledger]
          · rw [live, address, Pool.live_release]
            refine ledger_erase ?_ _ fun _ => rfl
            intro other member same
            have bound : ∀ tile ∈ pool.blocks, tile.start < maxPageNum :=
              fun tile inTiles => start_lt_maxPageNum represents.small (valid.inside inTiles)
            exact valid.tiles.eq_of_start (.inr member) (.inr inLive)
              (pageAddress_injective base (bound other (.inr member)) (bound block (.inr inLive))
                same)
  | queryRanks p =>
      have result := queryRanks_eq valid represents (basePtr ▸ past) (basePtr ▸ measured)
      rw [basePtr] at result
      cases found : pool.lookup base p with
      | none =>
          have answer : pool.exec base (.queryRanks p) = (.status (-einval), pool) := by
            simp only [Pool.exec, found]
          rw [answer]
          exact ⟨session, by simp [Session.step, exec, result, found, ledger], unchanged⟩
      | some block =>
          have answer : pool.exec base (.queryRanks p) =
              (.status (block.height + 1 : Nat), pool) := by
            simp only [Pool.exec, found]
          rw [answer]
          exact ⟨session, by simp [Session.step, exec, result, found, ledger], unchanged⟩
  | queryPageCounts rank =>
      have result := queryPageCounts_eq represents rank
      by_cases invalid : rank < 1 ∨ (pool.height : Int) + 1 < rank
      · have answer : pool.exec base (.queryPageCounts rank) = (.status (-einval), pool) := by
          simp only [Pool.exec, if_pos invalid]
        rw [answer]
        exact ⟨session, by simp [Session.step, exec, result, invalid, ledger], unchanged⟩
      · have answer : pool.exec base (.queryPageCounts rank) =
            (.status (pool.free (rank.toNat - 1)).length, pool) := by
          simp only [Pool.exec, if_neg invalid]
        rw [answer]
        exact ⟨session, by simp [Session.step, exec, result, invalid, ledger], unchanged⟩

/-- A run answers as the pool does and ends in what the pool ends in. -/
theorem run_tracks {base : UInt64} {session : Session} {pool : Pool} {calls : List Call}
    (tracks : Tracks base session pool) (measured : ∀ call ∈ calls, call.Passes (Measured base)) :
    ∃ last, session.run calls = .ok ((pool.run base calls).1, last) ∧
      Tracks base last (pool.run base calls).2 ∧
      Within pool.height session.state last.state ∧
      (pool.run base calls).2.height = pool.height := by
  induction calls generalizing session pool with
  | nil => exact ⟨session, rfl, tracks, Within.refl _ _, rfl⟩
  | cons call calls ih =>
      obtain ⟨next, step, nextTracks, nextWithin, sameHeight⟩ :=
        step_tracks tracks (measured call (.head _))
      obtain ⟨last, rest, lastTracks, lastWithin, lastHeight⟩ :=
        ih nextTracks fun other member => measured other (.tail _ member)
      rw [sameHeight] at lastWithin
      refine ⟨last, ?_, lastTracks, nextWithin.trans lastWithin, lastHeight.trans sameHeight⟩
      simp only [Session.run, step, ok_bind, rest, pure_eq_ok, Pool.run]

/-- A run after `init_page` is the pool's run from one free block. -/
theorem runFrom_tracks {state : State} {pgcount : Nat} {calls : List Call} (base : UInt64)
    (positive : 1 ≤ pgcount) (bound : pgcount < 2 ^ 20) (past : EndRecordUnused state base pgcount)
    (measured : ∀ call ∈ calls, call.Passes (Measured base)) :
    ∃ last, runFrom state base pgcount calls =
        .ok (((Pool.initial (heightOf pgcount)).run base calls).1, last) ∧
      Tracks base last ((Pool.initial (heightOf pgcount)).run base calls).2 ∧
      ((Pool.initial (heightOf pgcount)).run base calls).2.height = heightOf pgcount ∧
      ∀ rank, rank = 0 ∨ heightOf pgcount + 1 < rank →
        last.state.bucket rank = state.bucket rank ∧ last.state.count rank = state.count rank := by
  obtain ⟨start, init, basePtr, outside, pastEnd, represents⟩ :=
    initPage_represents state base positive bound
  have tracks : Tracks base ⟨start, []⟩ (Pool.initial (heightOf pgcount)) :=
    ⟨represents, basePtr, pastEnd.mpr past, Pool.Valid.initial _, Pool.Canonical.initial _, rfl⟩
  obtain ⟨last, run, lastTracks, within, sameHeight⟩ := run_tracks tracks measured
  refine ⟨last, ?_, lastTracks, sameHeight, ?_⟩
  · simp only [runFrom, init, ok_bind, run]
  · intro rank beyond
    exact ⟨(within.bucket rank beyond).trans (outside rank beyond).1,
      (within.count rank beyond).trans (outside rank beyond).2⟩

theorem endRecordUnused_programStart (p : UInt64) (pgcount : Nat) :
    EndRecordUnused programStart p pgcount :=
  .inr (.inl rfl)

/-! ## Clients that return only what they hold -/

/-- Each call is `alloc_pages` or passes the address of an allocation that is
live at the time. -/
def Session.returnsLive (session : Session) : List Call → Bool
  | [] => true
  | call :: calls =>
      decide (call.Passes (· ∈ session.live.map Allocation.ptr)) &&
        match session.step call with
        | .ok (_, next) => next.returnsLive calls
        | .error _ => true

/-- The same of the calls after `init_page` at program start. -/
def returnsLiveFrom (p : UInt64) (pgcount : Int) (calls : List Call) : Bool :=
  match initPage programStart p pgcount with
  | .ok (_, state) => Session.returnsLive ⟨state, []⟩ calls
  | .error _ => true

/-- The signed distance misleads nobody about a live allocation, not even in a
region that wraps around the address space. -/
theorem Tracks.measured {base : UInt64} {session : Session} {pool : Pool}
    (tracks : Tracks base session pool) {ptr : UInt64}
    (live : ptr ∈ session.live.map Allocation.ptr) : Measured base ptr := by
  obtain ⟨allocation, member, rfl⟩ := List.mem_map.mp live
  rw [tracks.live] at member
  obtain ⟨block, inLive, rfl⟩ := List.mem_map.mp member
  have bound := start_lt_maxPageNum tracks.represents.small (tracks.valid.inside (.inr inLive))
  have small : block.start * pageSize < 2 ^ 32 := by
    unfold maxPageNum maxRankNum at bound
    unfold pageSize pageBits
    omega
  left
  change (pageAddress base block.start).toNat < _
  rw [pageAddress, UInt64.toNat_add, UInt64.toNat_ofNat']
  have reduced := Nat.mod_le (base.toNat + block.start * pageSize % 2 ^ 64) (2 ^ 64)
  have offset := Nat.mod_le (block.start * pageSize) (2 ^ 64)
  omega

theorem Tracks.measured_of_returnsLive {base : UInt64} {session : Session} {pool : Pool}
    {calls : List Call} (tracks : Tracks base session pool)
    (client : session.returnsLive calls = true) :
    ∀ call ∈ calls, call.Passes (Measured base) := by
  induction calls generalizing session pool with
  | nil =>
      intro call member
      cases member
  | cons first rest ih =>
      simp only [Session.returnsLive, Bool.and_eq_true, decide_eq_true_eq] at client
      obtain ⟨passes, following⟩ := client
      have measured : first.Passes (Measured base) := passes.mono fun _ live => tracks.measured live
      obtain ⟨next, step, nextTracks, -⟩ := step_tracks tracks measured
      simp only [step] at following
      intro call member
      cases member with
      | head => exact measured
      | tail _ later => exact ih nextTracks following call later

/-- A client's run is the pool's run. -/
theorem clientRun_tracks {pgcount : Nat} {calls : List Call} (base : UInt64)
    (positive : 1 ≤ pgcount) (bound : pgcount < 2 ^ 20)
    (client : returnsLiveFrom base pgcount calls = true) :
    ∃ replies last pool, runFrom programStart base pgcount calls = .ok (replies, last) ∧
      Tracks base last pool ∧ pool.height = pgcount.log2 ∧
      ∀ rank, rank = 0 ∨ pgcount.log2 + 1 < rank →
        last.state.bucket rank = none ∧ last.state.count rank = 0 := by
  obtain ⟨start, init, basePtr, -, pastEnd, represents⟩ :=
    initPage_represents programStart base positive bound
  have unused := endRecordUnused_programStart base pgcount
  have tracks : Tracks base ⟨start, []⟩ (Pool.initial (heightOf pgcount)) :=
    ⟨represents, basePtr, pastEnd.mpr unused, Pool.Valid.initial _, Pool.Canonical.initial _, rfl⟩
  simp only [returnsLiveFrom, init] at client
  obtain ⟨last, run, lastTracks, height, beyond⟩ :=
    runFrom_tracks base positive bound unused (tracks.measured_of_returnsLive client)
  exact ⟨_, last, _, run, lastTracks, height, beyond⟩

end OsPractices.Buddy
