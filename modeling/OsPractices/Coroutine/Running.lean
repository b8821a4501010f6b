import OsPractices.Coroutine.Api
import OsPractices.Coroutine.Transfers

/-!
# `meta->running` names the executing routine

In every run, with the routines returning in any order.
-/

set_option autoImplicit false

namespace OsPractices.Coroutine

open Library

/-- The calls by which a routine gives up control and remains. -/
def Call.Yields (call : Call) : Prop := call = .coYield ∨ call = .yieldInPoll

instance (call : Call) : Decidable call.Yields := inferInstanceAs (Decidable (_ ∨ _))

/-! ## What a step does -/

/-- What a step of a tracked thread does. -/
inductive World.Acted (world : World) (tid : Nat) : Call → World → List Event → Prop where
  | started (user : (world.threads tid).doing = .user) :
      Acted world tid .start (world.start tid).1 [.assigned tid world.cinfo.length]
  | launched {cid : Nat} {info : ThreadInfo} {next : World}
      (starting : (world.threads tid).doing = .starting cid)
      (known : (world.threads tid).info = some info)
      (switched : Switched (world.launching tid cid info) next tid info.running (some cid)
        ⟨some cid, .entry⟩ .afterStart) :
      Acted world tid .launch next [.entered cid]
  | waited {call : Call} {doing : Doing} {readers : List Nat} {more : List Event}
      (passive : (∃ poll, call = .poll poll) ∨ call = .check ∨ call = .scan)
      (settled : ∀ cid, (world.threads tid).doing ≠ .starting cid)
      (idle : ∀ cid, doing ≠ .starting cid)
      (quiet : ∀ event ∈ more, ∃ owner poll value, event = .result owner poll value) :
      Acted world tid call ({ world with readers := readers }.setDoing tid doing) more
  | yielded {call : Call} {poll : Option Poll} {next : World} {more : List Event}
      (yields : call.Yields) (settled : ∀ cid, (world.threads tid).doing ≠ .starting cid)
      (yielded : world.Yielded tid poll next more) :
      Acted world tid call next more
  | finished {cid : Nat} {ret : Int} {info : ThreadInfo} {coro : Coro} {context : Context}
      (settled : ∀ cid, (world.threads tid).doing ≠ .starting cid)
      (executing : (world.threads tid).executing = some cid)
      (known : (world.threads tid).info = some info) (found : world.cinfo[cid]? = some coro)
      (own : coro.tid = tid) (owner : context.owner = coro.parent) :
      Acted world tid (.finish ret)
        { cinfo := world.cinfo.modify cid (Coro.finished ret)
          readers := world.readers
          threads := Function.update world.threads tid
            ⟨some { info with running := coro.parent }, coro.parent, context.point.doing⟩ }
        [.returned cid ret, context.event tid]

namespace World

variable {world next : World} {tid : Nat} {call : Call} {more : List Event}

theorem reads_acted {poll : Poll} (reads : world.Reads tid poll next more)
    (passive : call = .check ∨ call = .scan)
    (settled : ∀ cid, (world.threads tid).doing ≠ .starting cid) :
    world.Acted tid call next more := by
  obtain ⟨readers, doing, rfl, after, quiet⟩ := reads
  exact .waited (.inr passive) settled after.idle quiet

theorem yield_acted (tracks : Tracks world.cinfo tid (world.threads tid)) (yields : call.Yields)
    (settled : ∀ cid, (world.threads tid).doing ≠ .starting cid) {poll : Option Poll}
    (result : world.coYield tid poll = some (next, more)) : world.Acted tid call next more := by
  obtain ⟨next', more', result', yielded⟩ := coYield_yielded tracks settled poll
  cases result.symm.trans result'
  exact .yielded yields settled yielded

theorem step_acted (tracks : Tracks world.cinfo tid (world.threads tid))
    (stepped : world.step (tid, call) = some (next, more)) : world.Acted tid call next more := by
  cases step_cases stepped with
  | start user => exact .started user
  | launch starting known launched =>
      obtain ⟨next', launched', switched⟩ := launch_switched tracks starting known
      cases launched.symm.trans launched'
      exact .launched starting known switched
  | coYield user result => exact yield_acted tracks (.inl rfl) (by simp [user]) result
  | @poll poll user =>
      exact .waited (.inl ⟨poll, rfl⟩) (by simp [user]) (by simp) (by simp)
  | check checking checked =>
      exact reads_acted (check_reads checked) (.inl rfl) (by simp [checking])
  | scan scanning scanned =>
      exact reads_acted (scan_reads scanned) (.inr rfl) (by simp [scanning])
  | yieldInPoll yielding result =>
      exact yield_acted tracks (.inr rfl) (by simp [yielding]) result
  | @finish cid ret next more user executing result =>
      cases known : (world.threads tid).info with
      | none => exact nomatch executing.symm.trans (tracks.unregistered known).1
      | some info =>
          obtain ⟨coro, context, found, own, _, owner, _, result'⟩ :=
            finish_eq tracks executing known ret
          cases result.symm.trans result'
          exact .finished (by simp [user]) executing known found own owner

/-! ## Every run -/

/-- What a step leaves of the other threads and keeps of its own. -/
structure Moves (world next : World) (tid : Nat) : Prop where
  spares : Spares tid world.cinfo next.cinfo
  threads : ∀ other, other ≠ tid → next.threads other = world.threads other
  tracks : Tracks next.cinfo tid (next.threads tid)
  registered : (next.threads tid).info ≠ none ∨
    next.cinfo = world.cinfo ∧ (next.threads tid).info = (world.threads tid).info

theorem Switched.moves {suspend target : Option Nat} {context : Context} {point : Point}
    (switched : Switched world next tid suspend target context point)
    (owned : ∀ cid, suspend = some cid → Owned world.cinfo tid cid) : Moves world next tid where
  spares := by
    rw [switched.cinfo]
    cases suspend with
    | none => exact Spares.refl tid world.cinfo
    | some cid => exact Spares.modify (owned cid rfl) fun _ => rfl
  threads := switched.threads
  tracks := switched.tracks
  registered := .inl switched.registered

theorem setDoing_moves (tracks : Tracks world.cinfo tid (world.threads tid)) {doing : Doing}
    (readers : List Nat) (settled : ∀ cid, (world.threads tid).doing ≠ .starting cid)
    (idle : ∀ cid, doing ≠ .starting cid) :
    Moves world ({ world with readers := readers }.setDoing tid doing) tid where
  spares := Spares.refl tid world.cinfo
  threads other apart := Function.update_of_ne apart _ _
  tracks := by
    simp only [setDoing, setThread, Function.update_self]
    exact tracks.withDoing settled idle
  registered := .inr ⟨rfl, by simp [setDoing, setThread]⟩

theorem Moves.after {middle : World} (second : Moves middle next tid)
    (spares : Spares tid world.cinfo middle.cinfo)
    (threads : ∀ other, other ≠ tid → middle.threads other = world.threads other)
    (registered : (next.threads tid).info ≠ none) : Moves world next tid where
  spares := spares.trans second.spares
  threads other apart := (second.threads other apart).trans (threads other apart)
  tracks := second.tracks
  registered := .inl registered

theorem Acted.moves (acted : world.Acted tid call next more)
    (tracks : Tracks world.cinfo tid (world.threads tid)) : Moves world next tid := by
  cases acted with
  | started user =>
      constructor
      case spares => exact Spares.append world.cinfo rfl
      case threads => exact fun other apart => Function.update_of_ne apart _ _
      case tracks =>
        simp only [start, setThread, Function.update_self]
        exact tracks.start user
      case registered => exact .inl (by simp [start, setThread])
  | @launched cid info _ starting known switched =>
      have spares : Spares tid world.cinfo (world.launching tid cid info).cinfo :=
        Spares.modify (tracks.starting cid starting).1 fun _ => rfl
      apply (switched.moves fun older isOlder => ?_).after spares
        (fun other apart => Function.update_of_ne apart _ _) switched.registered
      exact spares.owned (tracks.executing older ((tracks.running info known).symm.trans isOlder))
  | waited _ settled idle => exact setDoing_moves tracks _ settled idle
  | yielded _ settled yielded =>
      cases yielded with
      | alone => exact setDoing_moves tracks world.readers settled (Point.doing_settled _).1
      | switched known _ switched =>
          apply (switched.moves fun older isOlder => ?_).after (Spares.refl tid world.cinfo)
            (fun other apart => Function.update_of_ne apart _ _) switched.registered
          exact tracks.executing older ((tracks.running _ known).symm.trans isOlder)
  | @finished _ ret _ _ context settled executing known found own owner =>
      constructor
      case spares => exact Spares.modify ⟨_, found, own⟩ fun _ => rfl
      case threads => exact fun other apart => Function.update_of_ne apart _ _
      case tracks =>
        simp only [Function.update_self]
        exact finish_tracks tracks executing settled known found own ret context.point
      case registered => exact .inl (by simp)

/-- Every thread is tracked, and one with coroutines has a record. -/
structure Tracked (world : World) : Prop where
  tracks : ∀ tid, Tracks world.cinfo tid (world.threads tid)
  registered : ∀ tid cid, Owned world.cinfo tid cid → (world.threads tid).info ≠ none

theorem create_tracked : create.Tracked where
  tracks tid := by
    constructor
    case unregistered => exact fun _ => ⟨rfl, nofun⟩
    all_goals simp [create]
  registered tid cid owned := by
    obtain ⟨coro, found, _⟩ := owned
    simp [create] at found

theorem Tracked.moves (tracked : world.Tracked) (moves : Moves world next tid) :
    next.Tracked where
  tracks other := by
    cases eq_or_ne other tid with
    | inl same => exact same ▸ moves.tracks
    | inr apart =>
        rw [moves.threads other apart]
        exact moves.spares.tracks apart (tracked.tracks other)
  registered other cid owned := by
    cases eq_or_ne other tid with
    | inl same =>
        subst same
        cases moves.registered with
        | inl present => exact present
        | inr still =>
            rw [still.1] at owned
            rw [still.2]
            exact tracked.registered other cid owned
    | inr apart =>
        obtain ⟨coro, found, own⟩ := owned
        rw [moves.threads other apart]
        exact tracked.registered other cid
          ⟨coro, (moves.spares.others cid coro (own ▸ apart)).mp found, own⟩

theorem Tracked.step (tracked : world.Tracked)
    (stepped : world.step (tid, call) = some (next, more)) : Moves world next tid :=
  (step_acted (tracked.tracks tid) stepped).moves (tracked.tracks tid)

end World

theorem tracked_of_run {allowed : World → Nat × Call → Prop} {actions : List (Nat × Call)}
    {events : List Event} {world : World}
    (run : Run World.step allowed World.create actions events world) : world.Tracked := by
  induction run with
  | nil => exact World.create_tracked
  | @snoc _ _ _ _ _ action _ _ stepped ih =>
      obtain ⟨tid, call⟩ := action
      exact ih.moves (ih.step stepped)

/-- A thread that called `co_start` has a record from then on. -/
theorem registered_of_start {allowed : World → Nat × Call → Prop} {actions : List (Nat × Call)}
    {events : List Event} {world : World} {tid : Nat}
    (run : Run World.step allowed World.create actions events world)
    (started : (tid, .start) ∈ actions) : (world.threads tid).info ≠ none := by
  induction run with
  | nil => simp at started
  | @snoc _ _ _ state next action earlier _ stepped ih =>
      obtain ⟨other, call⟩ := action
      have moves := (tracked_of_run earlier).step stepped
      cases List.mem_append.mp started with
      | inl before =>
          cases eq_or_ne tid other with
          | inl same =>
              subst same
              cases moves.registered with
              | inl present => exact present
              | inr still =>
                  rw [still.2]
                  exact ih before
          | inr apart =>
              rw [moves.threads tid apart]
              exact ih before
      | inr now =>
          cases List.mem_singleton.mp now
          cases World.step_cases stepped with
          | start => simp [World.start, World.setThread]

/-- After its first `co_start` the record of a thread names the routine that
executes, which is a coroutine of the thread or the main routine; `co_getid`
returns its id, and no other thread changes the record. -/
theorem running_names_executing {actions : List (Nat × Call)} {events : List Event}
    {world : World} (run : Run World.step (fun _ _ => True) World.create actions events world)
    (tid : Nat) :
    ((tid, .start) ∈ actions → ∃ info, (world.threads tid).info = some info ∧
      info.running = (world.threads tid).executing ∧
      world.getid tid = .ok (idOf (world.threads tid).executing)) ∧
    (∀ cid, (world.threads tid).executing = some cid →
      ∃ coro, world.cinfo[cid]? = some coro ∧ coro.tid = tid) ∧
    ∀ other call next more, other ≠ tid → world.step (other, call) = some (next, more) →
      (next.threads tid).info = (world.threads tid).info := by
  have tracked := tracked_of_run run
  have tracks := tracked.tracks tid
  refine ⟨fun started => ?_, fun cid executing => tracks.executing cid executing,
    fun other call next more apart stepped => ?_⟩
  · cases known : (world.threads tid).info with
    | none => exact absurd known (registered_of_start run started)
    | some info =>
        have running := tracks.running info known
        exact ⟨info, rfl, running, by simp [World.getid, World.getmeta, known, running]⟩
  · rw [(tracked.step stepped).threads tid apart.symm]

/-- Thread 1 starts a coroutine inside which a second one yields, and returns
before it; the second one then returns into the first. -/
theorem running_names_executing_after_return : ∃ events world,
    Run World.step (fun _ _ => True) World.create
      [(0, .start), (1, .start), (1, .launch), (1, .start), (0, .launch), (1, .launch),
        (1, .coYield), (1, .coYield), (1, .finish 7), (1, .coYield), (1, .finish 8)] events world ∧
    world.getid 1 = .ok 1 ∧ (world.threads 1).executing = some 1 := by
  have run : Run World.step (fun _ _ => True) World.create
      [(0, .start), (1, .start), (1, .launch), (1, .start), (0, .launch), (1, .launch),
        (1, .coYield), (1, .coYield), (1, .finish 7), (1, .coYield), (1, .finish 8)] _ _ :=
    Run.of_exec rfl
  obtain ⟨info, _, _, id⟩ := (running_names_executing run 1).1 (by simp)
  exact ⟨_, _, run, id, rfl⟩

end OsPractices.Coroutine
