import OsPractices.Coroutine.Transfers

/-!
# When `co_start` fails

`getcontext` and `swapcontext` may fail, and `co_start` returns at once then. A
context that was never made is that of a main routine at its entry: behind it C
defines nothing, and the runs here go on as that routine would.
-/

set_option autoImplicit false

namespace OsPractices.Coroutine

open Library

/-- The call inside `co_start` that fails; `swapcontext` may have saved the
caller's context before. -/
inductive Failure where
  | getcontext
  | swapcontext (saved : Bool)
  deriving DecidableEq, Repr

/-- The context that the failed call leaves in the new record. -/
def Failure.context (cid : Nat) : Failure → Context
  | .getcontext => ⟨none, .entry⟩
  | .swapcontext _ => ⟨some cid, .entry⟩

/-- A piece of a call, or the rest of a `co_start` that fails. -/
inductive Attempt where
  | call (call : Call)
  | fail (failure : Failure)
  deriving DecidableEq, Repr

/-- `co_start` returned without an id, or another event. -/
inductive AttemptOutput where
  | event (event : Event)
  | failed (tid : Nat) (ret : Int)
  deriving DecidableEq, Repr

namespace World

/-- The rest of `co_start`, up to the call that fails. -/
def failStart (world : World) (tid cid : Nat) (info : ThreadInfo) (failure : Failure) : World :=
  let cinfo := world.cinfo.modify cid fun coro =>
    { coro with parent := info.running, link := info.running, uc := failure.context cid }
  let world := { world with cinfo := cinfo }.setInfo tid { info with running := some cid }
  let world :=
    if failure = .swapcontext true then
      world.saveContext tid ⟨(world.threads tid).executing, .afterStart⟩ info.running
    else world
  world.setDoing tid .user

def attempt (world : World) : Nat × Attempt → Option (World × List AttemptOutput)
  | (tid, .call call) =>
      (world.step (tid, call)).map fun (next, events) => (next, events.map .event)
  | (tid, .fail failure) =>
      match (world.threads tid).doing, (world.threads tid).info with
      | .starting cid, some info =>
          some (world.failStart tid cid info failure, [.failed tid (-1)])
      | _, _ => none

end World

/-! ## What is a thread's own -/

/-- The main routine, or a coroutine of the thread. -/
def Own (cinfo : List Coro) (tid : Nat) (routine : Option Nat) : Prop :=
  ∀ cid, routine = some cid → Owned cinfo tid cid

/-- Whatever fails, a thread and its records name the thread's own routines, and
the coroutine that it is about to enter waits. -/
structure Confined (cinfo : List Coro) (tid : Nat) (thread : Thread) : Prop where
  executing : Own cinfo tid thread.executing
  info : ∀ info, thread.info = some info →
    Own cinfo tid info.running ∧ Own cinfo tid info.mainUc.owner
  records : ∀ (cid : Nat) (coro : Coro), cinfo[cid]? = some coro → coro.tid = tid →
    Own cinfo tid coro.uc.owner ∧ Own cinfo tid coro.link ∧ Own cinfo tid coro.parent
  starting : ∀ cid, thread.doing = .starting cid → thread.executing ≠ some cid ∧
    ∃ coro, cinfo[cid]? = some coro ∧ coro.tid = tid ∧ coro.status = .running

theorem Own.none (cinfo : List Coro) (tid : Nat) : Own cinfo tid none := nofun

theorem Owned.own {cinfo : List Coro} {tid cid : Nat} (owned : Owned cinfo tid cid) :
    Own cinfo tid (some cid) := by
  intro other same
  cases same
  exact owned

theorem Spares.own {cinfo next : List Coro} {tid other : Nat} {routine : Option Nat}
    (spares : Spares tid cinfo next) (own : Own cinfo other routine) : Own next other routine :=
  fun cid same => spares.owned (own cid same)

/-- Another thread's steps leave a thread confined. -/
theorem Spares.confined {cinfo next : List Coro} {tid other : Nat} {thread : Thread}
    (spares : Spares tid cinfo next) (apart : other ≠ tid)
    (confined : Confined cinfo other thread) : Confined next other thread where
  executing := spares.own confined.executing
  info info known := (confined.info info known).imp spares.own spares.own
  records cid coro found own := by
    have before := (spares.others cid coro (own ▸ apart)).mp found
    obtain ⟨owner, link, parent⟩ := confined.records cid coro before own
    exact ⟨spares.own owner, spares.own link, spares.own parent⟩
  starting cid same := by
    obtain ⟨waits, coro, found, own, status⟩ := confined.starting cid same
    exact ⟨waits, coro, (spares.others cid coro (own ▸ apart)).mpr found, own, status⟩

namespace World

variable {world next : World} {tid : Nat} {more : List Event}

/-- A piece of a step: it works on the thread's own records, and leaves it confined. -/
structure Confines (world next : World) (tid : Nat) : Prop where
  spares : Spares tid world.cinfo next.cinfo
  threads : ∀ other, other ≠ tid → next.threads other = world.threads other
  confined : Confined next.cinfo tid (next.threads tid)

namespace Confines

theorem trans {middle : World} (first : Confines world middle tid)
    (second : Confines middle next tid) : Confines world next tid where
  spares := first.spares.trans second.spares
  threads other apart := (second.threads other apart).trans (first.threads other apart)
  confined := second.confined

theorem setReaders (confined : Confined world.cinfo tid (world.threads tid)) (readers : List Nat) :
    Confines world { world with readers := readers } tid :=
  ⟨Spares.refl tid world.cinfo, fun _ _ => rfl, confined⟩

theorem setThread (confined : Confined world.cinfo tid (world.threads tid)) {thread : Thread}
    (executing : Own world.cinfo tid thread.executing)
    (info : ∀ info, thread.info = some info →
      Own world.cinfo tid info.running ∧ Own world.cinfo tid info.mainUc.owner)
    (starting : ∀ cid, thread.doing = .starting cid →
      thread.executing = (world.threads tid).executing ∧
        (world.threads tid).doing = .starting cid) :
    Confines world (world.setThread tid thread) tid := by
  refine ⟨Spares.refl tid world.cinfo, fun other apart => Function.update_of_ne apart _ _, ?_⟩
  simp only [World.setThread, Function.update_self]
  refine ⟨executing, info, confined.records, fun cid same => ?_⟩
  obtain ⟨still, before⟩ := starting cid same
  exact still ▸ confined.starting cid before

theorem setDoing (confined : Confined world.cinfo tid (world.threads tid)) {doing : Doing}
    (idle : ∀ cid, doing ≠ .starting cid) : Confines world (world.setDoing tid doing) tid :=
  setThread confined confined.executing confined.info fun cid same => absurd same (idle cid)

theorem setInfo (confined : Confined world.cinfo tid (world.threads tid)) {info : ThreadInfo}
    (running : Own world.cinfo tid info.running)
    (main : Own world.cinfo tid info.mainUc.owner) :
    Confines world (world.setInfo tid info) tid := by
  have named : ∀ other, some info = some other →
      Own world.cinfo tid other.running ∧ Own world.cinfo tid other.mainUc.owner := by
    intro other same
    cases same
    exact ⟨running, main⟩
  exact setThread confined confined.executing named fun _ same => ⟨rfl, same⟩

theorem modify (confined : Confined world.cinfo tid (world.threads tid)) {cid : Nat}
    (owned : Owned world.cinfo tid cid) {change : Coro → Coro}
    (still : ∀ coro, (change coro).tid = coro.tid)
    (status : (world.threads tid).doing = .starting cid → ∀ coro,
      (change coro).status = coro.status)
    (own : ∀ coro, world.cinfo[cid]? = some coro → Own world.cinfo tid (change coro).uc.owner ∧
      Own world.cinfo tid (change coro).link ∧ Own world.cinfo tid (change coro).parent) :
    Confines world { world with cinfo := world.cinfo.modify cid change } tid := by
  have spares : Spares tid world.cinfo (world.cinfo.modify cid change) :=
    Spares.modify owned still
  refine ⟨spares, fun _ _ => rfl, ?_⟩
  constructor
  case executing => exact spares.own confined.executing
  case info => exact fun info known => (confined.info info known).imp spares.own spares.own
  case records =>
    intro other coro found shared
    have kept : Own world.cinfo tid coro.uc.owner ∧ Own world.cinfo tid coro.link ∧
        Own world.cinfo tid coro.parent := by
      obtain ⟨old, there, rfl⟩ := modify_cases cid found
      cases Decidable.em (cid = other) with
      | inl same =>
          subst same
          rw [if_pos rfl]
          exact own old there
      | inr different =>
          rw [if_neg different] at shared ⊢
          exact confined.records other old there shared
    exact ⟨spares.own kept.1, spares.own kept.2.1, spares.own kept.2.2⟩
  case starting =>
    intro fresh starting
    obtain ⟨waits, coro, found, shared, running⟩ := confined.starting fresh starting
    refine ⟨waits, if cid = fresh then change coro else coro, ?_, ?_, ?_⟩
    · simp [List.getElem?_modify, found]
    · split
      case isTrue => exact (still coro).trans shared
      case isFalse => exact shared
    · split
      case isTrue same => exact (status (same ▸ starting) coro).trans running
      case isFalse => exact running

theorem saveContext (confined : Confined world.cinfo tid (world.threads tid)) (point : Point)
    {place : Option Nat} (own : Own world.cinfo tid place) :
    Confines world (world.saveContext tid ⟨(world.threads tid).executing, point⟩ place) tid := by
  cases place with
  | none =>
      cases known : (world.threads tid).info with
      | none =>
          simp only [World.saveContext, known]
          exact setReaders confined world.readers
      | some info =>
          simp only [World.saveContext, known]
          exact setInfo confined (confined.info info known).1 confined.executing
  | some cid =>
      obtain ⟨coro, found, shared⟩ := own cid rfl
      refine modify confined ⟨coro, found, shared⟩ (fun _ => rfl) (fun _ _ => rfl) ?_
      intro coro' found'
      cases found.symm.trans found'
      exact ⟨confined.executing, (confined.records cid coro found shared).2⟩

theorem context_own (confined : Confined world.cinfo tid (world.threads tid))
    {target : Option Nat} (own : Own world.cinfo tid target) {context : Context}
    (loaded : world.context tid target = some context) : Own world.cinfo tid context.owner := by
  cases target with
  | none =>
      obtain ⟨info, known, rfl⟩ := Option.map_eq_some_iff.mp loaded
      exact (confined.info info known).2
  | some cid =>
      obtain ⟨coro, found, rfl⟩ := Option.map_eq_some_iff.mp loaded
      obtain ⟨record, there, shared⟩ := own cid rfl
      cases found.symm.trans there
      exact (confined.records cid coro found shared).1

theorem resume (confined : Confined world.cinfo tid (world.threads tid)) {context : Context}
    (owner : Own world.cinfo tid context.owner) :
    Confines world (world.resume tid context).1 tid :=
  setThread confined owner confined.info fun cid same =>
    absurd same (context.point.doing_settled.1 cid)

end Confines

/-- An entry that is reported is one of the thread's own. -/
def Enters (cinfo : List Coro) (tid : Nat) (more : List Event) : Prop :=
  ∀ cid, .entered cid ∈ more → Owned cinfo tid cid

theorem enters_event {cinfo : List Coro} {context : Context}
    (owner : Own cinfo tid context.owner) : Enters cinfo tid [context.event tid] := by
  intro cid entered
  obtain ⟨routine, point⟩ := context
  have event := List.mem_singleton.mp entered
  cases routine with
  | none => cases event
  | some other =>
      cases point with
      | entry =>
          cases event
          exact owner _ rfl
      | afterStart => cases event
      | afterYield poll => cases event

/-- A step of a thread other than the section of `co_start` under the locks. -/
structure Taken (world next : World) (tid : Nat) (more : List Event) : Prop where
  confines : Confines world next tid
  enters : Enters next.cinfo tid more
  settled : ∀ cid, (next.threads tid).doing ≠ .starting cid

theorem Taken.after {middle : World} (second : Taken middle next tid more)
    (first : Confines world middle tid) : Taken world next tid more :=
  ⟨first.trans second.confines, second.enters, second.settled⟩

theorem setDoing_taken (confined : Confined world.cinfo tid (world.threads tid)) {doing : Doing}
    (idle : ∀ cid, doing ≠ .starting cid) (quiet : ∀ cid, .entered cid ∉ more) :
    Taken world (world.setDoing tid doing) tid more :=
  ⟨Confines.setDoing confined idle, fun cid entered => absurd entered (quiet cid),
    by simpa [setDoing, setThread] using idle⟩

theorem resume_taken (confined : Confined world.cinfo tid (world.threads tid))
    {context : Context} (owner : Own world.cinfo tid context.owner) :
    Taken world (world.resume tid context).1 tid [context.event tid] :=
  ⟨Confines.resume confined owner, enters_event owner,
    by simpa [resume, setThread] using context.point.doing_settled.1⟩

theorem swap_taken (confined : Confined world.cinfo tid (world.threads tid))
    {suspend target : Option Nat} {point : Point} (before : Own world.cinfo tid suspend)
    (after : Own world.cinfo tid target)
    (swapped : world.swap tid suspend point target = some (next, more)) :
    Taken world next tid more := by
  obtain ⟨context, loaded, resumed⟩ := Option.map_eq_some_iff.mp swapped
  cases resumed
  have saved := Confines.saveContext confined point before
  have owner := Confines.context_own saved.confined (saved.spares.own after) loaded
  exact (resume_taken saved.confined owner).after saved

theorem start_confines (confined : Confined world.cinfo tid (world.threads tid)) :
    Confines world (world.start tid).1 tid := by
  have spares : Spares tid world.cinfo (world.start tid).1.cinfo := Spares.append world.cinfo rfl
  refine ⟨spares, fun other apart => Function.update_of_ne apart _ _, ?_⟩
  simp only [start, setThread, Function.update_self]
  constructor
  case executing => exact spares.own confined.executing
  case info =>
    intro info same
    cases same
    cases known : (world.threads tid).info with
    | none => exact ⟨Own.none _ tid, Own.none _ tid⟩
    | some info => exact (confined.info info known).imp spares.own spares.own
  case records =>
    intro cid coro found own
    cases append_cases found with
    | inl old =>
        obtain ⟨owner, link, parent⟩ := confined.records cid coro old own
        exact ⟨spares.own owner, spares.own link, spares.own parent⟩
    | inr new =>
        obtain ⟨rfl, rfl⟩ := new
        have itself : Owned (world.start tid).1.cinfo tid world.cinfo.length :=
          ⟨_, List.getElem?_concat_length, rfl⟩
        exact ⟨itself.own, Own.none _ tid, Own.none _ tid⟩
  case starting =>
    intro cid same
    cases same
    refine ⟨fun executing => ?_, _, List.getElem?_concat_length, rfl, rfl⟩
    obtain ⟨coro, found, _⟩ := confined.executing _ executing
    exact Nat.lt_irrefl _ (List.getElem?_eq_some_iff.mp found).1

/-- Up to the calls that can fail, with whatever context `co_start` gives to the record. -/
theorem publish_confines (confined : Confined world.cinfo tid (world.threads tid)) {cid : Nat}
    {info : ThreadInfo} {uc : Context} (starting : (world.threads tid).doing = .starting cid)
    (known : (world.threads tid).info = some info)
    (owner : ∀ routine, uc.owner = some routine → routine = cid) :
    Confines world ({ world with cinfo := world.cinfo.modify cid fun coro =>
      { coro with parent := info.running, link := info.running, uc := uc } }.setInfo tid
        { info with running := some cid }) tid := by
  obtain ⟨_, coro, found, shared, _⟩ := confined.starting cid starting
  have owned : Owned world.cinfo tid cid := ⟨coro, found, shared⟩
  have own : Own world.cinfo tid uc.owner := fun routine same => owner routine same ▸ owned
  have running := (confined.info info known).1
  have linked : Confines world { world with cinfo := world.cinfo.modify cid fun coro =>
      { coro with parent := info.running, link := info.running, uc := uc } } tid :=
    Confines.modify confined owned (fun _ => rfl) (fun _ _ => rfl)
      fun _ _ => ⟨own, running, running⟩
  exact linked.trans (Confines.setInfo linked.confined (linked.spares.own owned.own)
    (linked.spares.own (confined.info info known).2))

theorem launch_taken (confined : Confined world.cinfo tid (world.threads tid)) {cid : Nat}
    {info : ThreadInfo} (starting : (world.threads tid).doing = .starting cid)
    (known : (world.threads tid).info = some info)
    (launched : world.launch tid cid info = some (next, more)) : Taken world next tid more := by
  have published : Confines world (world.launching tid cid info) tid :=
    publish_confines confined starting known fun _ same => (Option.some.inj same).symm
  obtain ⟨_, coro, found, shared, _⟩ := confined.starting cid starting
  have owned : Owned world.cinfo tid cid := ⟨coro, found, shared⟩
  have taken := swap_taken published.confined
    (published.spares.own (confined.info info known).1) (published.spares.own owned.own) launched
  exact taken.after published

theorem coYield_taken (confined : Confined world.cinfo tid (world.threads tid))
    {poll : Option Poll} (yielded : world.coYield tid poll = some (next, more)) :
    Taken world next tid more := by
  have idle := (Point.afterYield poll).doing_settled.1
  unfold coYield at yielded
  cases known : (world.threads tid).info with
  | none =>
      simp only [known, Option.some.injEq, Prod.mk.injEq] at yielded
      obtain ⟨rfl, rfl⟩ := yielded
      exact setDoing_taken confined idle (by simp)
  | some info =>
      obtain ⟨running, main⟩ := confined.info info known
      have target : Own world.cinfo tid (world.nextRunning tid (lowerBound info.running)) := by
        intro cid isTarget
        obtain ⟨coro, found, own, _⟩ := (nextRunning_some isTarget).2
        exact ⟨coro, found, own⟩
      have named : Confines world (world.setInfo tid
          { info with running := world.nextRunning tid (lowerBound info.running) }) tid :=
        Confines.setInfo confined target main
      simp only [known] at yielded
      split at yielded
      case isTrue =>
        cases yielded
        exact (setDoing_taken named.confined idle (by simp)).after named
      case isFalse =>
        exact (swap_taken named.confined (named.spares.own running) (named.spares.own target)
          yielded).after named

theorem finish_taken (confined : Confined world.cinfo tid (world.threads tid)) {cid : Nat}
    {ret : Int} (user : (world.threads tid).doing = .user)
    (executing : (world.threads tid).executing = some cid)
    (finished : world.finish tid cid ret = some (next, more)) : Taken world next tid more := by
  unfold finish at finished
  split at finished
  case h_2 => cases finished
  case h_1 coro info found known =>
    obtain ⟨context, loaded, resumed⟩ := Option.map_eq_some_iff.mp finished
    cases resumed
    obtain ⟨record, there, shared⟩ := confined.executing cid executing
    cases found.symm.trans there
    obtain ⟨_, link, parent⟩ := confined.records cid coro found shared
    have ended : Confines world
        { world with cinfo := world.cinfo.modify cid (Coro.finished ret) } tid := by
      refine Confines.modify confined ⟨coro, found, shared⟩ (fun _ => rfl) (by simp [user]) ?_
      intro other found'
      cases found.symm.trans found'
      exact confined.records cid coro found shared
    have named : Confines world ({ world with
        cinfo := world.cinfo.modify cid (Coro.finished ret) }.setInfo tid
          { info with running := coro.parent }) tid :=
      ended.trans (Confines.setInfo ended.confined (ended.spares.own parent)
        (ended.spares.own (confined.info info known).2))
    have owner := Confines.context_own named.confined (named.spares.own link) loaded
    have taken := (resume_taken named.confined owner).after named
    refine ⟨taken.confines, fun other entered => ?_, taken.settled⟩
    exact taken.enters other (by simpa using entered)

theorem reads_taken (confined : Confined world.cinfo tid (world.threads tid)) {poll : Poll}
    (reads : world.Reads tid poll next more) : Taken world next tid more := by
  obtain ⟨readers, doing, rfl, after, quiet⟩ := reads
  have read := Confines.setReaders confined readers
  apply (setDoing_taken read.confined after.idle ?_).after read
  intro cid entered
  obtain ⟨owner, poll, value, event⟩ := quiet _ entered
  cases event

theorem step_taken (confined : Confined world.cinfo tid (world.threads tid)) {call : Call}
    (later : call ≠ .start) (stepped : world.step (tid, call) = some (next, more)) :
    Taken world next tid more := by
  cases step_cases stepped with
  | start => exact absurd rfl later
  | launch starting known launched => exact launch_taken confined starting known launched
  | coYield _ yielded => exact coYield_taken confined yielded
  | poll => exact setDoing_taken confined (by simp) (by simp)
  | check _ checked => exact reads_taken confined (check_reads checked)
  | scan _ scanned => exact reads_taken confined (scan_reads scanned)
  | yieldInPoll _ yielded => exact coYield_taken confined yielded
  | finish user executing finished => exact finish_taken confined user executing finished

theorem failStart_taken (confined : Confined world.cinfo tid (world.threads tid)) {cid : Nat}
    {info : ThreadInfo} (starting : (world.threads tid).doing = .starting cid)
    (known : (world.threads tid).info = some info) (failure : Failure) :
    Taken world (world.failStart tid cid info failure) tid [] := by
  have owner : ∀ routine, (failure.context cid).owner = some routine → routine = cid := by
    intro routine same
    cases failure with
    | getcontext => cases same
    | swapcontext => exact (Option.some.inj same).symm
  have published := publish_confines confined starting known owner
  unfold failStart
  split
  case isFalse => exact (setDoing_taken published.confined (by simp) (by simp)).after published
  case isTrue =>
    have saved := published.trans (Confines.saveContext published.confined .afterStart
      (published.spares.own (confined.info info known).1))
    exact (setDoing_taken saved.confined (by simp) (by simp)).after saved

/-! ## Every run -/

/-- The threads are confined, the coroutines that were entered exist, and those
that a `co_start` is about to enter were not. -/
structure Attempted (world : World) (outputs : List AttemptOutput) : Prop where
  confined : ∀ tid, Confined world.cinfo tid (world.threads tid)
  entered : ∀ cid, .event (.entered cid) ∈ outputs → ∃ tid, Owned world.cinfo tid cid
  waiting : ∀ tid cid, (world.threads tid).doing = .starting cid →
    .event (.entered cid) ∉ outputs

theorem create_attempted : create.Attempted [] := by
  constructor
  case confined =>
    exact fun tid => ⟨Own.none _ tid, by simp [create], by simp [create], by simp [create]⟩
  case entered => simp
  case waiting => simp

theorem owned_unique {cinfo : List Coro} {tid other cid : Nat} (first : Owned cinfo tid cid)
    (second : Owned cinfo other cid) : tid = other := by
  obtain ⟨coro, found, own⟩ := first
  obtain ⟨coro', found', own'⟩ := second
  cases found.symm.trans found'
  exact own.symm.trans own'

theorem Confines.all (confines : Confines world next tid) {outputs : List AttemptOutput}
    (attempted : world.Attempted outputs) (other : Nat) :
    Confined next.cinfo other (next.threads other) := by
  cases eq_or_ne other tid with
  | inl same => exact same ▸ confines.confined
  | inr apart =>
      rw [confines.threads other apart]
      exact confines.spares.confined apart (attempted.confined other)

variable {outputs : List AttemptOutput}

theorem Attempted.taken (attempted : world.Attempted outputs) (taken : Taken world next tid more)
    {added : List AttemptOutput}
    (reports : ∀ cid, .event (.entered cid) ∈ added → .entered cid ∈ more) :
    next.Attempted (outputs ++ added) := by
  constructor
  case confined => exact taken.confines.all attempted
  case entered =>
    intro cid entered
    cases List.mem_append.mp entered with
    | inl before =>
        obtain ⟨other, owned⟩ := attempted.entered cid before
        exact ⟨other, taken.confines.spares.owned owned⟩
    | inr now => exact ⟨tid, taken.enters cid (reports cid now)⟩
  case waiting =>
    intro other cid starting entered
    cases eq_or_ne other tid with
    | inl same =>
        subst same
        exact taken.settled cid starting
    | inr apart =>
        obtain ⟨_, coro, found, own, _⟩ := (taken.confines.all attempted other).starting cid starting
        rw [taken.confines.threads other apart] at starting
        cases List.mem_append.mp entered with
        | inl before => exact attempted.waiting other cid starting before
        | inr now =>
            exact apart (owned_unique ⟨coro, found, own⟩ (taken.enters cid (reports cid now)))

theorem Attempted.start (attempted : world.Attempted outputs) (tid : Nat) :
    (world.start tid).1.Attempted
      (outputs ++ [.event (.assigned tid world.cinfo.length)]) := by
  have confines := start_confines (attempted.confined tid)
  have still : ∀ cid, .event (.entered cid) ∈
      outputs ++ [.event (.assigned tid world.cinfo.length)] →
        .event (.entered cid) ∈ outputs := by
    intro cid entered
    simpa using entered
  constructor
  case confined => exact confines.all attempted
  case entered =>
    intro cid entered
    obtain ⟨other, owned⟩ := attempted.entered cid (still cid entered)
    exact ⟨other, confines.spares.owned owned⟩
  case waiting =>
    intro other cid starting entered
    have before := still cid entered
    cases eq_or_ne other tid with
    | inl same =>
        subst same
        have fresh : world.cinfo.length = cid := by
          simpa [World.start, World.setThread] using starting
        obtain ⟨_, coro, found, _⟩ := attempted.entered cid before
        exact Nat.lt_irrefl _ (fresh ▸ (List.getElem?_eq_some_iff.mp found).1)
    | inr apart =>
        rw [confines.threads other apart] at starting
        exact attempted.waiting other cid starting before

end World

theorem attempted_of_run {actions : List (Nat × Attempt)} {outputs : List AttemptOutput}
    {world : World}
    (run : Run World.attempt (fun _ _ => True) World.create actions outputs world) :
    world.Attempted outputs := by
  induction run with
  | nil => exact World.create_attempted
  | @snoc _ outputs _ state next action _ _ stepped ih =>
      obtain ⟨tid, attempt⟩ := action
      cases attempt with
      | call call =>
          obtain ⟨⟨world, events⟩, moved, same⟩ := Option.map_eq_some_iff.mp stepped
          cases same
          cases Decidable.em (call = .start) with
          | inl starts =>
              subst starts
              cases World.step_cases moved with
              | start => exact ih.start tid
          | inr later =>
              exact ih.taken (World.step_taken (ih.confined tid) later moved) (by simp)
      | fail failure =>
          simp only [World.attempt] at stepped
          split at stepped
          case h_2 => cases stepped
          case h_1 cid info starting known =>
            cases stepped
            exact ih.taken (World.failStart_taken (ih.confined tid) starting known failure)
              (by simp)

/-! ## What a failure leaves behind -/

namespace World

variable {world next : World} {tid cid : Nat} {info : ThreadInfo}

/-- `meta->running` names the routine that executes. -/
def NamesCaller (world : World) (tid : Nat) : Prop :=
  ∀ info, (world.threads tid).info = some info → info.running = (world.threads tid).executing

/-- A coroutine that is RUNNING was entered, or a `co_start` is about to enter it. -/
def AllEntered (world : World) (outputs : List AttemptOutput) : Prop :=
  ∀ (cid : Nat) (coro : Coro), world.cinfo[cid]? = some coro → coro.status = .running →
    .event (.entered cid) ∈ outputs ∨ ∃ other, (world.threads other).doing = .starting cid

/-- The new coroutine is left current and RUNNING. -/
structure LeftBehind (world next : World) (tid cid : Nat) : Prop where
  info : ∃ info, (next.threads tid).info = some info ∧ info.running = some cid
  executing : (next.threads tid).executing = (world.threads tid).executing
  entry : ∃ coro, next.cinfo[cid]? = some coro ∧ coro.tid = tid ∧ coro.status = .running

theorem LeftBehind.saveContext (left : LeftBehind world next tid cid) (context : Context)
    (place : Option Nat) : LeftBehind world (next.saveContext tid context place) tid cid := by
  obtain ⟨⟨info, known, running⟩, executing, coro, found, own, status⟩ := left
  rw [saveContext_eq known]
  constructor
  case info => exact ⟨info.saveIn context place, by simp, by simp [running]⟩
  case executing => simpa using executing
  case entry =>
    cases place with
    | none => exact ⟨coro, found, own, status⟩
    | some other =>
        refine ⟨if other = cid then { coro with uc := context } else coro, ?_, ?_, ?_⟩
        · simp [Coroutine.saveIn, List.getElem?_modify, found]
        · split <;> exact own
        · split <;> exact status

theorem LeftBehind.setDoing (left : LeftBehind world next tid cid) (doing : Doing) :
    LeftBehind world (next.setDoing tid doing) tid cid := by
  obtain ⟨⟨info, known, running⟩, executing, entry⟩ := left
  exact ⟨⟨info, by simpa [World.setDoing, setThread] using known, running⟩,
    by simpa [World.setDoing, setThread] using executing, entry⟩

theorem failStart_leaves (confined : Confined world.cinfo tid (world.threads tid))
    (starting : (world.threads tid).doing = .starting cid) (info : ThreadInfo)
    (failure : Failure) :
    LeftBehind world (world.failStart tid cid info failure) tid cid := by
  obtain ⟨_, coro, found, own, status⟩ := confined.starting cid starting
  have published : LeftBehind world ({ world with cinfo := world.cinfo.modify cid fun coro =>
      { coro with parent := info.running, link := info.running, uc := failure.context cid }
        }.setInfo tid { info with running := some cid }) tid cid := by
    constructor
    case info => exact ⟨{ info with running := some cid }, by simp [setInfo, setThread], rfl⟩
    case executing => simp [setInfo, setThread]
    case entry =>
      exact ⟨{ coro with parent := info.running, link := info.running, uc := failure.context cid },
        by simp [setInfo, setThread, found], own, status⟩
  unfold failStart
  split
  case isFalse => exact published.setDoing .user
  case isTrue => exact (published.saveContext _ _).setDoing .user

/-- The next `co_yield` saves the caller's context in the record of the coroutine
that was not entered. -/
theorem LeftBehind.coYield (left : LeftBehind world next tid cid) :
    ∃ after events, next.coYield tid none = some (after, events) ∧
      after.cinfo =
        saveIn next.cinfo ⟨(world.threads tid).executing, .afterYield none⟩ (some cid) := by
  obtain ⟨⟨info, known, running⟩, executing, _⟩ := left
  have different : some cid ≠ next.nextRunning tid (cid + 1) := by
    intro same
    exact absurd (nextRunning_some same.symm).1 (Nat.not_succ_le_self cid)
  have loaded : ∃ context, (next.setInfo tid
      { info with running := next.nextRunning tid (cid + 1) }).context tid
        (next.nextRunning tid (cid + 1)) = some context := by
    cases target : next.nextRunning tid (cid + 1) with
    | none => exact ⟨info.mainUc, by simp [World.context, setInfo, setThread]⟩
    | some other =>
        obtain ⟨coro, found, _⟩ := (nextRunning_some target).2
        exact ⟨coro.uc, by simp [context_some, setInfo_cinfo, found]⟩
  obtain ⟨context, loaded⟩ := loaded
  have named : ((next.setInfo tid
      { info with running := next.nextRunning tid (cid + 1) }).threads tid).info =
        some { info with running := next.nextRunning tid (cid + 1) } := by
    simp [setInfo, setThread]
  have swapped : (next.setInfo tid
      { info with running := next.nextRunning tid (cid + 1) }).swap tid (some cid)
        (.afterYield none) (next.nextRunning tid (cid + 1)) = some _ :=
    swap_eq named different loaded
  refine ⟨_, _, by simpa [World.coYield, known, running, lowerBound, different] using swapped, ?_⟩
  simp [setInfo, setThread, executing]

theorem LeftBehind.not_namesCaller (left : LeftBehind world next tid cid)
    (waits : (world.threads tid).executing ≠ some cid) : ¬ next.NamesCaller tid := by
  obtain ⟨⟨info, known, running⟩, executing, _⟩ := left
  intro names
  exact waits (executing.symm.trans ((names info known).symm.trans running))

theorem LeftBehind.not_allEntered (left : LeftBehind world next tid cid)
    {outputs : List AttemptOutput} (unentered : .event (.entered cid) ∉ outputs)
    (unawaited : ∀ other, (next.threads other).doing ≠ .starting cid) :
    ¬ next.AllEntered outputs := by
  obtain ⟨coro, found, _, status⟩ := left.entry
  intro entered
  cases entered cid coro found status with
  | inl known => exact unentered known
  | inr awaited =>
      obtain ⟨other, starting⟩ := awaited
      exact unawaited other starting

end World

theorem fail_cases {world next : World} {tid : Nat} {failure : Failure}
    {more : List AttemptOutput}
    (failed : world.attempt (tid, .fail failure) = some (next, more)) :
    ∃ cid info, (world.threads tid).doing = .starting cid ∧
      (world.threads tid).info = some info ∧ next = world.failStart tid cid info failure ∧
      more = [.failed tid (-1)] := by
  simp only [World.attempt] at failed
  split at failed
  case h_1 cid info starting known =>
    cases failed
    exact ⟨cid, info, starting, known, rfl, rfl⟩
  case h_2 => cases failed

/-- In every run, also behind earlier failures: a `co_start` that fails leaves
`meta->running` at a coroutine that was never entered and that stays RUNNING, and
the caller's next `co_yield` saves into its record. -/
theorem failed_start_unclean {actions : List (Nat × Attempt)} {outputs more : List AttemptOutput}
    {world next : World} {tid : Nat} {failure : Failure}
    (run : Run World.attempt (fun _ _ => True) World.create actions outputs world)
    (failed : world.attempt (tid, .fail failure) = some (next, more)) :
    more = [.failed tid (-1)] ∧ ¬ next.NamesCaller tid ∧ ¬ next.AllEntered (outputs ++ more) ∧
    ∃ cid after events, .event (.entered cid) ∉ outputs ++ more ∧
      (next.cinfo[cid]?.map Coro.status = some .running) ∧
      next.coYield tid none = some (after, events) ∧
      after.cinfo[cid]?.map Coro.uc = some ⟨(next.threads tid).executing, .afterYield none⟩ := by
  have attempted := attempted_of_run run
  obtain ⟨cid, info, starting, known, rfl, rfl⟩ := fail_cases failed
  have confined := attempted.confined tid
  have left := World.failStart_leaves confined starting info failure
  have taken := World.failStart_taken confined starting known failure
  have unentered : .event (.entered cid) ∉ outputs ++ [.failed tid (-1)] := by
    simpa using attempted.waiting tid cid starting
  obtain ⟨coro, found, own, status⟩ := left.entry
  have unawaited : ∀ other,
      ((world.failStart tid cid info failure).threads other).doing ≠ .starting cid := by
    intro other awaits
    obtain ⟨_, record, there, own', _⟩ := (taken.confines.all attempted other).starting cid awaits
    cases World.owned_unique ⟨coro, found, own⟩ ⟨record, there, own'⟩
    exact taken.settled cid awaits
  obtain ⟨after, events, yielded, saved⟩ := left.coYield
  refine ⟨rfl, left.not_namesCaller (confined.starting cid starting).1,
    left.not_allEntered unentered unawaited, cid, after, events, unentered, ?_, yielded, ?_⟩
  · simp [found, status]
  · simp [saved, saveIn, found, left.executing]

/-- Inside coroutine 0 a second `co_start` fails at `swapcontext`. -/
theorem failed_start_unclean_nested : ∃ outputs world next,
    Run World.attempt (fun _ _ => True) World.create
      [(0, .call .start), (0, .call .launch), (0, .call .start)] outputs world ∧
    world.attempt (0, .fail (.swapcontext true)) = some (next, [.failed 0 (-1)]) ∧
    ¬ next.NamesCaller 0 ∧ ¬ next.AllEntered (outputs ++ [.failed 0 (-1)]) := by
  obtain ⟨outputs, world, next, run, failed⟩ : ∃ outputs world next,
      Run World.attempt (fun _ _ => True) World.create
        [(0, .call .start), (0, .call .launch), (0, .call .start)] outputs world ∧
      world.attempt (0, .fail (.swapcontext true)) = some (next, [.failed 0 (-1)]) :=
    ⟨_, _, _, Run.of_exec rfl, rfl⟩
  obtain ⟨_, caller, entered, _⟩ := failed_start_unclean run failed
  exact ⟨outputs, world, next, run, failed, caller, entered⟩

/-- `getcontext` fails in the first `co_start` of the main routine: `co_waitall`
finds coroutine 0 RUNNING, and the `co_yield` in its loop saves into it and goes
to a context of the main routine that nothing has saved. -/
theorem first_start_unclean : ∃ world next last,
    Run World.attempt (fun _ _ => True) World.create [(0, .call .start)]
      [.event (.assigned 0 0)] world ∧
    world.attempt (0, .fail .getcontext) = some (next, [.failed 0 (-1)]) ∧
    ¬ next.NamesCaller 0 ∧ ¬ next.AllEntered [.event (.assigned 0 0), .failed 0 (-1)] ∧
    Run World.attempt (fun _ _ => True) next
      [(0, .call (.poll .waitall)), (0, .call .check), (0, .call .scan),
        (0, .call .yieldInPoll)] [.event (.resumed 0 none)] last ∧
    last.cinfo[0]?.map Coro.uc = some ⟨none, .afterYield (some .waitall)⟩ := by
  have unawaited : ∀ (info : ThreadInfo) other,
      (((World.create.start 0).1.failStart 0 0 info .getcontext).threads other).doing ≠
        .starting 0 := by
    intro info other
    cases eq_or_ne other 0 with
    | inl same => simp [same, World.failStart, World.setDoing, World.setThread]
    | inr apart =>
        simp [apart, World.failStart, World.setDoing, World.setThread, World.setInfo, World.start,
          World.create]
  have waits : ((World.create.start 0).1.threads 0).executing ≠ some 0 := by
    simp [World.start, World.setThread, World.create]
  have left : World.LeftBehind (World.create.start 0).1
      ((World.create.start 0).1.failStart 0 0 ⟨none, ⟨none, .entry⟩⟩ .getcontext) 0 0 :=
    ⟨⟨_, rfl, rfl⟩, rfl, _, rfl, rfl, rfl⟩
  exact ⟨_, _, _, Run.of_exec rfl, rfl, left.not_namesCaller waits,
    left.not_allEntered (by simp) (unawaited _), Run.of_exec rfl, rfl⟩

end OsPractices.Coroutine
