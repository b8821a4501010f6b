import OsPractices.Coroutine.Transfers

/-!
# Polls of coroutines that exist

`co_wait` and `co_getret` keep a pointer to the coroutine that they ask for. It
is one of `_cinfo` as long as none of them began with another cid.
-/

set_option autoImplicit false

namespace OsPractices.Coroutine

def Poll.Inside (length : Nat) : Poll → Prop
  | .getret cid => cid < length
  | .wait cid => cid < length
  | .waitall => True

def Doing.Inside (length : Nat) : Doing → Prop
  | .checking poll => poll.Inside length
  | .yielding poll => poll.Inside length
  | _ => True

/-- The piece of a call that a thread goes on with. -/
def Doing.piece : Doing → Option Call
  | .user => none
  | .starting _ => some .launch
  | .checking _ => some .check
  | .scanning _ => some .scan
  | .yielding _ => some .yieldInPoll

theorem Doing.piece_later {doing : Doing} {call : Call} (due : doing.piece = some call) :
    doing ≠ .user ∧ call ≠ .coYield ∧ ∀ poll, call ≠ .poll poll := by
  cases doing with
  | user => cases due
  | _ =>
      cases due
      simp

theorem Doing.Inside.mono {length more : Nat} {doing : Doing} (inside : doing.Inside length)
    (le : length ≤ more) : doing.Inside more := by
  have polls : ∀ {poll : Poll}, poll.Inside length → poll.Inside more := by
    intro poll inside
    cases poll with
    | getret cid => exact Nat.lt_of_lt_of_le inside le
    | wait cid => exact Nat.lt_of_lt_of_le inside le
    | waitall => trivial
  cases doing with
  | checking poll => exact polls inside
  | yielding poll => exact polls inside
  | _ => trivial

namespace World

variable {world next : World} {tid : Nat} {more : List Event}

/-- Each poll that a thread is at or that a context continues. -/
structure Polls (world : World) : Prop where
  doing : ∀ tid, (world.threads tid).doing.Inside world.cinfo.length
  routine : ∀ (cid : Nat) (coro : Coro), world.cinfo[cid]? = some coro →
    coro.uc.point.doing.Inside world.cinfo.length
  main : ∀ tid info, (world.threads tid).info = some info →
    info.mainUc.point.doing.Inside world.cinfo.length

theorem create_polls : create.Polls := by
  constructor
  case doing => exact fun _ => trivial
  case routine => simp [create]
  case main => simp [create]

namespace Polls

theorem setThread (polls : world.Polls) {thread : Thread}
    (doing : thread.doing.Inside world.cinfo.length)
    (main : ∀ info, thread.info = some info →
      info.mainUc.point.doing.Inside world.cinfo.length) : (world.setThread tid thread).Polls := by
  constructor
  case doing =>
    intro other
    cases eq_or_ne other tid with
    | inl same => simpa [World.setThread, same] using doing
    | inr apart => simpa [World.setThread, apart] using polls.doing other
  case routine => exact polls.routine
  case main =>
    intro other info known
    cases eq_or_ne other tid with
    | inl same => exact main info (by simpa [World.setThread, same] using known)
    | inr apart => exact polls.main other info (by simpa [World.setThread, apart] using known)

theorem setDoing (polls : world.Polls) {doing : Doing} (inside : doing.Inside world.cinfo.length) :
    (world.setDoing tid doing).Polls := polls.setThread inside (polls.main tid)

theorem setInfo (polls : world.Polls) {info : ThreadInfo}
    (inside : info.mainUc.point.doing.Inside world.cinfo.length) :
    (world.setInfo tid info).Polls :=
  polls.setThread (polls.doing tid) fun _ known => Option.some.inj known ▸ inside

theorem setReaders (polls : world.Polls) (readers : List Nat) :
    { world with readers := readers }.Polls := ⟨polls.doing, polls.routine, polls.main⟩

theorem modify (polls : world.Polls) (cid : Nat) {change : Coro → Coro}
    (inside : ∀ coro, coro.uc.point.doing.Inside world.cinfo.length →
      (change coro).uc.point.doing.Inside world.cinfo.length) :
    { world with cinfo := world.cinfo.modify cid change }.Polls := by
  have length : (world.cinfo.modify cid change).length = world.cinfo.length :=
    List.length_modify ..
  constructor
  case doing => exact fun other => length.symm ▸ polls.doing other
  case routine =>
    intro other coro found
    obtain ⟨old, there, rfl⟩ := modify_cases cid found
    have before := polls.routine other old there
    rw [length]
    split
    case isTrue => exact inside old before
    case isFalse => exact before
  case main => exact fun other info known => length.symm ▸ polls.main other info known

theorem context (polls : world.Polls) {target : Option Nat} {context : Context}
    (loaded : world.context tid target = some context) :
    context.point.doing.Inside world.cinfo.length := by
  cases target with
  | none =>
      obtain ⟨info, known, rfl⟩ := Option.map_eq_some_iff.mp loaded
      exact polls.main tid info known
  | some cid =>
      obtain ⟨coro, found, rfl⟩ := Option.map_eq_some_iff.mp loaded
      exact polls.routine cid coro found

theorem saveContext (polls : world.Polls) {context : Context}
    (inside : context.point.doing.Inside world.cinfo.length) (place : Option Nat) :
    (world.saveContext tid context place).Polls ∧
      (world.saveContext tid context place).cinfo.length = world.cinfo.length := by
  cases place with
  | none =>
      cases known : (world.threads tid).info with
      | none => simpa [World.saveContext, known] using polls
      | some info =>
          simp only [World.saveContext, known]
          exact ⟨polls.setInfo inside, rfl⟩
  | some cid => exact ⟨polls.modify cid fun _ _ => inside, List.length_modify ..⟩

theorem resume (polls : world.Polls) {target : Option Nat} {context : Context}
    (loaded : world.context tid target = some context) : (world.resume tid context).1.Polls :=
  polls.setThread (polls.context loaded) (polls.main tid)

theorem swap (polls : world.Polls) {suspend target : Option Nat} {point : Point}
    (inside : point.doing.Inside world.cinfo.length)
    (swapped : world.swap tid suspend point target = some (next, more)) : next.Polls := by
  obtain ⟨context, loaded, resumed⟩ := Option.map_eq_some_iff.mp swapped
  cases resumed
  have saved :=
    (@saveContext world tid polls ⟨(world.threads tid).executing, point⟩ inside suspend).1
  exact saved.resume loaded

theorem start (polls : world.Polls) (tid : Nat) : (world.start tid).1.Polls := by
  have le : world.cinfo.length ≤ world.cinfo.length + 1 := Nat.le_succ _
  constructor
  case doing =>
    intro other
    simp only [World.start, World.setThread, List.length_append, List.length_singleton]
    cases eq_or_ne other tid with
    | inl same => simp [same, Doing.Inside]
    | inr apart => simpa [apart] using (polls.doing other).mono le
  case routine =>
    intro cid coro found
    simp only [World.start, World.setThread, List.length_append, List.length_singleton]
    cases append_cases found with
    | inl old => exact (polls.routine cid coro old).mono le
    | inr new => exact new.2 ▸ trivial
  case main =>
    intro other info known
    simp only [World.start, World.setThread, List.length_append, List.length_singleton]
    cases eq_or_ne other tid with
    | inr apart =>
        have before : (world.threads other).info = some info := by
          simpa [World.start, World.setThread, apart] using known
        exact (polls.main other info before).mono le
    | inl same =>
        subst same
        simp only [World.start, World.setThread, Function.update_self, Option.some.injEq] at known
        cases old : (world.threads other).info with
        | none =>
            rw [old] at known
            exact known ▸ trivial
        | some info =>
            rw [old] at known
            exact known ▸ (polls.main other info old).mono le

theorem coYield (polls : world.Polls) {poll : Option Poll}
    (inside : (Point.afterYield poll).doing.Inside world.cinfo.length)
    (yielded : world.coYield tid poll = some (next, more)) : next.Polls := by
  unfold World.coYield at yielded
  cases known : (world.threads tid).info with
  | none =>
      simp only [known, Option.some.injEq, Prod.mk.injEq] at yielded
      exact yielded.1 ▸ polls.setDoing inside
  | some info =>
      have named : ∀ target, (world.setInfo tid { info with running := target }).Polls :=
        fun target => polls.setInfo (polls.main tid info known)
      simp only [known] at yielded
      split at yielded
      case isTrue =>
        cases yielded
        exact (named _).setDoing inside
      case isFalse => exact (named _).swap inside yielded

theorem finish (polls : world.Polls) {cid : Nat} {ret : Int}
    (finished : world.finish tid cid ret = some (next, more)) : next.Polls := by
  unfold World.finish at finished
  split at finished
  case h_2 => cases finished
  case h_1 coro info found known =>
    obtain ⟨context, loaded, resumed⟩ := Option.map_eq_some_iff.mp finished
    cases resumed
    have ended := polls.modify cid fun (coro : Coro) (before : coro.uc.point.doing.Inside _) =>
      show (Coro.finished ret coro).uc.point.doing.Inside world.cinfo.length from before
    have named : (World.setInfo _ tid { info with running := coro.parent }).Polls :=
      ended.setInfo (ended.main tid info known)
    exact named.resume loaded

theorem reads (polls : world.Polls) {poll : Poll} (inside : poll.Inside world.cinfo.length)
    (reads : world.Reads tid poll next more) : next.Polls := by
  obtain ⟨readers, doing, rfl, after, _⟩ := reads
  apply (polls.setReaders readers).setDoing
  cases after with
  | user => trivial
  | yielding => exact inside
  | scanning index => trivial

theorem step (polls : world.Polls) {call : Call}
    (asked : ∀ poll, call = .poll poll → poll.Inside world.cinfo.length)
    (stepped : world.step (tid, call) = some (next, more)) : next.Polls := by
  have doing := polls.doing tid
  cases step_cases stepped with
  | start => exact polls.start tid
  | @launch cid info _ _ starting known launched =>
      have linked := polls.modify cid fun (coro : Coro) (_ : coro.uc.point.doing.Inside _) =>
        show (Coro.linkTo info.running cid coro).uc.point.doing.Inside _ from trivial
      have named : (world.launching tid cid info).Polls :=
        linked.setInfo (linked.main tid info known)
      exact named.swap (show Point.afterStart.doing.Inside _ from trivial) launched
  | coYield user yielded =>
      exact polls.coYield (show (Point.afterYield none).doing.Inside _ from trivial) yielded
  | poll user => exact polls.setDoing (asked _ rfl)
  | check checking checked =>
      rw [checking] at doing
      exact polls.reads doing (check_reads checked)
  | scan scanning scanned =>
      exact polls.reads (show Poll.waitall.Inside _ from trivial) (scan_reads scanned)
  | @yieldInPoll poll _ _ yielding yielded =>
      rw [yielding] at doing
      exact polls.coYield (show (Point.afterYield (some poll)).doing.Inside _ from doing) yielded
  | finish user executing finished => exact polls.finish finished

end Polls

/-- The next piece of a call that a thread is at can be taken. -/
theorem piece_steps (tracks : Tracks world.cinfo tid (world.threads tid)) (polls : world.Polls)
    {call : Call} (due : (world.threads tid).doing.piece = some call) :
    ∃ next more, world.step (tid, call) = some (next, more) := by
  have inside := polls.doing tid
  cases doing : (world.threads tid).doing with
  | user => simp [doing, Doing.piece] at due
  | starting cid =>
      rw [doing] at due
      cases due
      cases known : (world.threads tid).info with
      | none => exact absurd doing ((tracks.unregistered known).2 cid)
      | some info =>
          obtain ⟨next, launched, _⟩ := launch_switched tracks doing known
          exact ⟨next, _, by simpa [World.step, doing, known] using launched⟩
  | checking poll =>
      rw [doing] at due inside
      cases due
      have checked : ∃ result, world.check tid poll = some result := by
        cases poll with
        | getret cid => exact ⟨_, by simp [World.check, List.getElem?_eq_getElem inside]; rfl⟩
        | wait cid => exact ⟨_, by simp [World.check, List.getElem?_eq_getElem inside]; rfl⟩
        | waitall => exact ⟨_, rfl⟩
      obtain ⟨⟨next, more⟩, checked⟩ := checked
      exact ⟨next, more, by simpa [World.step, doing] using checked⟩
  | scanning index =>
      rw [doing] at due
      cases due
      exact ⟨(world.scan tid index).1, (world.scan tid index).2, by simp [World.step, doing]⟩
  | yielding poll =>
      rw [doing] at due
      cases due
      obtain ⟨next, more, yielded, _⟩ := coYield_yielded tracks (by simp [doing]) (some poll)
      exact ⟨next, more, by simpa [World.step, doing] using yielded⟩

end World

end OsPractices.Coroutine
