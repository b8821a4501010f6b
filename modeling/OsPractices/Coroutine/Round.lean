import OsPractices.Coroutine.Running
import OsPractices.Coroutine.Steps
import OsPractices.Library.Ascending

/-!
# A round of `co_yield`

From a `co_yield` of the main routine until it returns, when the coroutines that
are resumed do nothing but yield. Other threads may do anything meanwhile.
-/

set_option autoImplicit false

namespace OsPractices.Coroutine

open Library

/-- The running coroutines of a thread, the oldest first. -/
def World.runningOf (world : World) (tid : Nat) : List Nat :=
  (List.range world.cinfo.length).filter fun cid =>
    world.cinfo[cid]?.any fun coro => coro.tid = tid ∧ coro.status = .running

/-- The coroutines that a thread resumed. -/
def resumedOf (tid : Nat) (events : List Event) : List Nat :=
  events.filterMap fun
    | .resumed owner (some cid) => if owner = tid then some cid else none
    | _ => none

/-- How many calls of `co_yield` a thread makes. -/
def yieldsOf (tid : Nat) (actions : List (Nat × Call)) : Nat :=
  actions.countP fun action => action.1 = tid ∧ action.2.Yields

/-- The calls at which a routine neither starts another one nor returns. -/
def Call.Stays : Call → Prop
  | .start | .launch | .finish _ => False
  | _ => True

instance : DecidablePred Call.Stays
  | .start | .launch | .finish _ => isFalse id
  | .coYield | .poll _ | .check | .scan | .yieldInPoll => isTrue trivial

/-- The round ends for its thread when the main routine executes again. -/
def InRound (tid : Nat) (world : World) (action : Nat × Call) : Prop :=
  action.1 = tid → (world.threads tid).executing ≠ none ∧ action.2.Stays

instance (tid : Nat) (world : World) (action : Nat × Call) : Decidable (InRound tid world action) :=
  inferInstanceAs (Decidable (_ → _))

@[simp] theorem resumedOf_append (tid : Nat) (events more : List Event) :
    resumedOf tid (events ++ more) = resumedOf tid events ++ resumedOf tid more :=
  List.filterMap_append

theorem resumedOf_results {tid : Nat} {more : List Event}
    (quiet : ∀ event ∈ more, ∃ owner poll value, event = .result owner poll value) :
    resumedOf tid more = [] := by
  rw [resumedOf, List.filterMap_eq_nil_iff]
  intro event inside
  obtain ⟨owner, poll, value, rfl⟩ := quiet event inside
  rfl

namespace World

variable {world next : World} {tid : Nat} {call : Call} {more : List Event}

theorem mem_runningOf {cid : Nat} : cid ∈ world.runningOf tid ↔ Alive world.cinfo tid cid := by
  simp only [runningOf, List.mem_filter, List.mem_range, Option.any_eq_true, decide_eq_true_eq]
  constructor
  · intro ⟨_, coro, found, running⟩
    exact ⟨coro, found, running⟩
  · intro ⟨coro, found, running⟩
    exact ⟨(List.getElem?_eq_some_iff.mp found).1, coro, found, running⟩

theorem runningOf_ascending (world : World) (tid : Nat) :
    (world.runningOf tid).Pairwise (· < ·) := pairwise_filter_range _ _

theorem runningOf_of_alive
    (same : ∀ cid, Alive next.cinfo tid cid ↔ Alive world.cinfo tid cid) :
    next.runningOf tid = world.runningOf tid := by
  apply (next.runningOf_ascending tid).eq_of_mem_iff (world.runningOf_ascending tid)
  intro cid
  rw [mem_runningOf, mem_runningOf, same]

theorem runningOf_of_outcome
    (same : next.cinfo.map Coro.outcome = world.cinfo.map Coro.outcome) :
    next.runningOf tid = world.runningOf tid :=
  runningOf_of_alive fun _ =>
    ⟨fun alive => alive.outcome same.symm, fun alive => alive.outcome same⟩

theorem runningOf_of_spares {other : Nat} (spares : Spares tid world.cinfo next.cinfo)
    (apart : other ≠ tid) : next.runningOf other = world.runningOf other := by
  apply runningOf_of_alive
  intro cid
  constructor
  · intro ⟨coro, found, own, running⟩
    exact ⟨coro, (spares.others cid coro (own ▸ apart)).mp found, own, running⟩
  · intro ⟨coro, found, own, running⟩
    exact ⟨coro, (spares.others cid coro (own ▸ apart)).mpr found, own, running⟩

theorem nextRunning_eq (world : World) (tid bound : Nat) :
    world.nextRunning tid bound = (world.runningOf tid).find? fun cid => bound ≤ cid :=
  find?_range' _ bound world.cinfo.length

/-! ## One `co_yield` of the round -/

/-- The routine that executes after a number of the listed ones were resumed. -/
def Reached (order : List Nat) (executing : Option Nat) : Nat → Prop
  | 0 => executing = none
  | count + 1 => ∃ cid, order[count]? = some cid ∧ executing = some cid

theorem Reached.nextRunning {executing : Option Nat} {count : Nat}
    (reached : Reached (world.runningOf tid) executing count) :
    world.nextRunning tid (lowerBound executing) = (world.runningOf tid)[count]? := by
  rw [nextRunning_eq]
  cases count with
  | zero =>
      cases reached
      cases world.runningOf tid with
      | nil => rfl
      | cons first rest => simp [lowerBound]
  | succ count =>
      obtain ⟨cid, listed, rfl⟩ := reached
      exact find?_behind (world.runningOf_ascending tid) listed

/-- The next of the listed coroutines is resumed, or the main routine. -/
theorem Yielded.resumes {poll : Option Poll} (yielded : world.Yielded tid poll next more)
    (tracked : world.Tracked) {count : Nat}
    (reached : Reached (world.runningOf tid) (world.threads tid).executing count) :
    (next.threads tid).executing = (world.runningOf tid)[count]? ∧
      resumedOf tid more = (world.runningOf tid)[count]?.toList ∧
      next.cinfo.map Coro.outcome = world.cinfo.map Coro.outcome := by
  have tracks := tracked.tracks tid
  have found := reached.nextRunning
  cases yielded with
  | alone still =>
      have last : (world.threads tid).executing = none ∧ (world.runningOf tid)[count]? = none := by
        cases known : (world.threads tid).info with
        | none =>
            refine ⟨(tracks.unregistered known).1, List.getElem?_eq_none_iff.mpr ?_⟩
            have empty : world.runningOf tid = [] := by
              rw [List.eq_nil_iff_forall_not_mem]
              intro cid inside
              exact tracked.registered tid cid (mem_runningOf.mp inside).owned known
            simp [empty]
        | some info =>
            have same := still info known
            rw [tracks.running info known, found] at same
            cases executing : (world.threads tid).executing with
            | none => exact ⟨rfl, same.symm.trans executing⟩
            | some cid =>
                -- the search begins behind the routine that executes
                rw [executing] at same found
                have behind := (nextRunning_some (found.trans same.symm)).1
                exact absurd behind (Nat.not_succ_le_self cid)
      rw [last.2]
      exact ⟨by simp [setDoing, setThread, last.1], rfl, rfl⟩
  | @switched info target _ _ known isTarget switched =>
      rw [tracks.running info known, found] at isTarget
      subst isTarget
      refine ⟨switched.executing, ?_, ?_⟩
      · cases (world.runningOf tid)[count]? with
        | none => rfl
        | some cid => simp [resumedOf]
      · rw [switched.cinfo]
        exact map_saveIn (fun _ _ => rfl) world.cinfo _ _

end World

/-! ## The whole round -/

/-- Behind a number of calls of `co_yield` in a round through the listed
coroutines. -/
structure OnRound (world : World) (tid : Nat) (order : List Nat) (count : Nat)
    (resumed : List Nat) : Prop where
  tracked : world.Tracked
  same : world.runningOf tid = order
  executing : (world.threads tid).executing = order[count]?
  resumed : resumed = order.take (count + 1)

theorem Context.resumedOf_event {tid other : Nat} (apart : other ≠ tid) (context : Context) :
    resumedOf tid [context.event other] = [] := by
  obtain ⟨owner, point⟩ := context
  cases owner with
  | none => rfl
  | some cid => cases point <;> simp [Context.event, resumedOf, apart]

/-- A thread resumes its own coroutines only. -/
theorem World.Acted.resumedOf_other {world next : World} {tid other : Nat} {call : Call}
    {more : List Event} (acted : world.Acted other call next more) (apart : other ≠ tid) :
    resumedOf tid more = [] := by
  cases acted with
  | started => rfl
  | launched => rfl
  | waited _ _ _ quiet => exact resumedOf_results quiet
  | yielded _ _ yielded =>
      cases yielded with
      | alone => rfl
      | @switched _ target =>
          cases target with
          | none => rfl
          | some cid => simp [resumedOf, apart]
  | @finished _ _ _ _ context => exact context.resumedOf_event apart

@[simp] theorem yieldsOf_append (tid : Nat) (actions more : List (Nat × Call)) :
    yieldsOf tid (actions ++ more) = yieldsOf tid actions + yieldsOf tid more :=
  List.countP_append

namespace OnRound

variable {world next : World} {tid count : Nat} {order resumed : List Nat} {call : Call}
  {more : List Event}

theorem other (on : OnRound world tid order count resumed) {other : Nat} (apart : other ≠ tid)
    (stepped : world.step (other, call) = some (next, more)) :
    OnRound next tid order (count + yieldsOf tid [(other, call)])
      (resumed ++ resumedOf tid more) := by
  have moves := on.tracked.step stepped
  have silent := (World.step_acted (on.tracked.tracks other) stepped).resumedOf_other apart
  have zero : yieldsOf tid [(other, call)] = 0 := by simp [yieldsOf, apart]
  rw [silent, zero, List.append_nil, Nat.add_zero]
  constructor
  case tracked => exact on.tracked.moves moves
  case same => exact (World.runningOf_of_spares moves.spares apart.symm).trans on.same
  case executing => rw [moves.threads tid apart.symm, on.executing]
  case resumed => exact on.resumed

theorem own (on : OnRound world tid order count resumed)
    (busy : (world.threads tid).executing ≠ none) (stays : call.Stays)
    (stepped : world.step (tid, call) = some (next, more)) :
    OnRound next tid order (count + yieldsOf tid [(tid, call)])
      (resumed ++ resumedOf tid more) := by
  have tracked := on.tracked.moves (on.tracked.step stepped)
  cases World.step_acted (on.tracked.tracks tid) stepped with
  | started => exact stays.elim
  | launched => exact stays.elim
  | finished => exact stays.elim
  | waited passive _ _ quiet =>
      have zero : yieldsOf tid [(tid, call)] = 0 := by
        obtain ⟨poll, rfl⟩ | rfl | rfl := passive <;> simp [yieldsOf, Call.Yields]
      rw [resumedOf_results quiet, zero, List.append_nil]
      exact ⟨tracked, on.same, by simpa [World.setDoing, World.setThread] using on.executing,
        on.resumed⟩
  | yielded yields _ yielded =>
      have one : yieldsOf tid [(tid, call)] = 1 := by simp [yieldsOf, yields]
      have executing := on.executing
      cases listed : order[count]? with
      | none => exact absurd (executing.trans listed) busy
      | some cid =>
          have reached : World.Reached (world.runningOf tid) (world.threads tid).executing
              (count + 1) := ⟨cid, on.same ▸ listed, executing.trans listed⟩
          obtain ⟨executes, events, outcome⟩ := yielded.resumes on.tracked reached
          rw [on.same] at executes events
          rw [one, events]
          exact ⟨tracked, (World.runningOf_of_outcome outcome).trans on.same, executes, by
            rw [on.resumed, ← List.take_add_one]⟩

theorem run {actions : List (Nat × Call)} {last : World} {events : List Event}
    (on : OnRound world tid order count resumed)
    (run : Run World.step (InRound tid) world actions events last) :
    OnRound last tid order (count + yieldsOf tid actions) (resumed ++ resumedOf tid events) := by
  induction run with
  | nil => simpa [yieldsOf, resumedOf] using on
  | @snoc _ _ _ _ _ action _ inRound stepped ih =>
      obtain ⟨other, call⟩ := action
      rw [yieldsOf_append, resumedOf_append, ← Nat.add_assoc, ← List.append_assoc]
      cases eq_or_ne other tid with
      | inl same =>
          subst same
          obtain ⟨busy, stays⟩ := inRound rfl
          exact ih.own busy stays stepped
      | inr apart => exact ih.other apart stepped

end OnRound

/-- From a `co_yield` of the main routine on, the running coroutines of the
thread are resumed in ascending order, each once, and then the main routine. -/
theorem coYield_round {before actions : List (Nat × Call)} {earlier first later : List Event}
    {world next last : World} {tid : Nat} {call : Call}
    (reachable : Run World.step (fun _ _ => True) World.create before earlier world)
    (main : (world.threads tid).executing = none) (yields : call.Yields)
    (stepped : world.step (tid, call) = some (next, first))
    (round : Run World.step (InRound tid) next actions later last) :
    resumedOf tid (first ++ later) = (world.runningOf tid).take (yieldsOf tid actions + 1) ∧
      (last.threads tid).executing = (world.runningOf tid)[yieldsOf tid actions]? ∧
      ((last.threads tid).executing = none →
        resumedOf tid (first ++ later) = world.runningOf tid ∧
          ∀ info, (last.threads tid).info = some info → info.running = none) := by
  have tracked := tracked_of_run reachable
  have begun : OnRound next tid (world.runningOf tid) 0 (resumedOf tid first) := by
    have moved := tracked.moves (tracked.step stepped)
    cases World.step_acted (tracked.tracks tid) stepped with
    | started => exact absurd yields (by decide)
    | launched => exact absurd yields (by decide)
    | finished => exact absurd yields (by simp [Call.Yields])
    | waited passive =>
        obtain ⟨poll, rfl⟩ | rfl | rfl := passive <;> exact absurd yields (by simp [Call.Yields])
    | yielded _ _ yielded =>
        have reached : World.Reached (world.runningOf tid) (world.threads tid).executing 0 := main
        obtain ⟨executes, events, outcome⟩ := yielded.resumes tracked reached
        exact ⟨moved, World.runningOf_of_outcome outcome, executes, by
          rw [events, List.take_add_one, List.take_zero, List.nil_append]⟩
  have ended := begun.run round
  rw [Nat.zero_add, ← resumedOf_append] at ended
  refine ⟨ended.resumed, ended.executing, fun back => ?_⟩
  have all : (world.runningOf tid).length ≤ yieldsOf tid actions :=
    List.getElem?_eq_none_iff.mp (ended.executing.symm.trans back)
  refine ⟨?_, fun info known => ?_⟩
  · rw [ended.resumed, List.take_of_length_le (Nat.le_succ_of_le all)]
  · rw [(ended.tracked.tracks tid).running info known, back]

/-- Thread 0 has the coroutines 0 and 2. During its round, thread 1 starts a
coroutine behind them and its first one returns. -/
theorem coYield_round_two : ∃ world next last first later,
    Run World.step (fun _ _ => True) World.create
      [(0, .start), (0, .launch), (0, .coYield), (1, .start), (1, .launch), (0, .start),
        (0, .launch), (0, .coYield)]
      [.assigned 0 0, .entered 0, .resumed 0 none, .assigned 1 1, .entered 1, .assigned 0 2,
        .entered 2, .resumed 0 none] world ∧
    world.step (0, .coYield) = some (next, first) ∧
    Run World.step (InRound 0) next
      [(1, .finish 5), (0, .coYield), (1, .start), (0, .coYield), (1, .launch)] later last ∧
    resumedOf 0 (first ++ later) = [0, 2] := by
  obtain ⟨world, reachable, main, order, next, first, stepped, later, last, round, back⟩ :
      ∃ world, Run World.step (fun _ _ => True) World.create
        [(0, .start), (0, .launch), (0, .coYield), (1, .start), (1, .launch), (0, .start),
          (0, .launch), (0, .coYield)]
        [.assigned 0 0, .entered 0, .resumed 0 none, .assigned 1 1, .entered 1, .assigned 0 2,
          .entered 2, .resumed 0 none] world ∧
      (world.threads 0).executing = none ∧ world.runningOf 0 = [0, 2] ∧
      ∃ next first, world.step (0, .coYield) = some (next, first) ∧
      ∃ later last, Run World.step (InRound 0) next
        [(1, .finish 5), (0, .coYield), (1, .start), (0, .coYield), (1, .launch)] later last ∧
      (last.threads 0).executing = none :=
    ⟨_, Run.of_exec rfl, rfl, rfl, _, _, rfl, _, _, Run.of_exec_guarded rfl, rfl⟩
  have whole := ((coYield_round reachable main (.inl rfl) stepped round).2.2 back).1
  exact ⟨world, next, last, first, later, reachable, stepped, round, whole.trans order⟩

end OsPractices.Coroutine
