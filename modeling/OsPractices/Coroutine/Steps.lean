import OsPractices.Coroutine.Coherent
import OsPractices.Coroutine.Transfers

/-!
# What the steps of a thread do

One lemma for each call: a coherent thread stays coherent, the records of the
other threads stay as they are, and control goes to a routine that still runs.
-/

set_option autoImplicit false

namespace OsPractices.Coroutine

/-- Whose a coroutine is, and how it ended. -/
def Coro.outcome (coro : Coro) : Nat × Status × Int := (coro.tid, coro.status, coro.ret)

theorem Alive.outcome {cinfo next : List Coro} {tid cid : Nat} (alive : Alive cinfo tid cid)
    (same : next.map Coro.outcome = cinfo.map Coro.outcome) : Alive next tid cid := by
  apply alive.keeps_status
  intro coro found
  obtain ⟨coro', found', outcome⟩ := map_origin same.symm found
  simp only [Coro.outcome, Prod.mk.injEq] at outcome
  exact ⟨coro', found', outcome.1, outcome.2.1⟩

/-- Control goes to a routine that was begun, or a poll returns. -/
def Event.Plain : Event → Prop
  | .resumed _ _ => True
  | .result _ _ _ => True
  | _ => False

/-- What a step of a thread does, with the events of it. -/
structure Works (world next : World) (tid : Nat) (more : List Event) : Prop where
  keeps : Keeps tid world.cinfo next.cinfo
  origin : ∀ (cid : Nat) (coro : Coro), next.cinfo[cid]? = some coro →
    (coro.tid = tid ∧ (next.threads tid).doing = .starting cid ∧ coro.status = .running) ∨
      ∃ old, world.cinfo[cid]? = some old ∧ old.tid = coro.tid ∧
        (coro.status = .finished →
          old.status = .finished ∧ old.ret = coro.ret ∨ .returned cid coro.ret ∈ more)
  threads : ∀ other, other ≠ tid → next.threads other = world.threads other
  readers : ∀ other, other ≠ tid → other ∈ world.readers → other ∈ next.readers
  coherent : Coherent next.cinfo next.readers tid (next.threads tid)
  assigned : ∀ owner cid, .assigned owner cid ∈ more →
    ∃ coro, next.cinfo[cid]? = some coro ∧ coro.tid = owner
  entered : ∀ cid, .entered cid ∈ more ↔
    (world.threads tid).doing = .starting cid ∧ (next.threads tid).doing ≠ .starting cid
  returned : ∀ cid ret, .returned cid ret ∈ more →
    ∃ coro, next.cinfo[cid]? = some coro ∧ coro.status = .finished ∧ coro.ret = ret
  fresh : ∀ cid, (next.threads tid).doing = .starting cid →
    (world.threads tid).doing = .starting cid ∨ world.cinfo[cid]? = none

namespace World

variable {world : World} {tid : Nat} {info : ThreadInfo}

/-- A step of a thread that leaves the outcomes alone. -/
structure Shifts (world next : World) (tid : Nat) : Prop where
  keeps : Keeps tid world.cinfo next.cinfo
  same : next.cinfo.map Coro.outcome = world.cinfo.map Coro.outcome
  threads : ∀ other, other ≠ tid → next.threads other = world.threads other
  readers : ∀ other, other ≠ tid → other ∈ world.readers → other ∈ next.readers

theorem Shifts.trans {middle next : World} (first : Shifts world middle tid)
    (second : Shifts middle next tid) : Shifts world next tid where
  keeps := first.keeps.trans second.keeps
  same := second.same.trans first.same
  threads other apart := (second.threads other apart).trans (first.threads other apart)
  readers other apart reading := second.readers other apart (first.readers other apart reading)

theorem Shifts.origin {next : World} (shifts : Shifts world next tid) {cid : Nat} {coro : Coro}
    (found : next.cinfo[cid]? = some coro) :
    ∃ old, world.cinfo[cid]? = some old ∧ old.tid = coro.tid ∧
      (coro.status = .finished → old.status = .finished ∧ old.ret = coro.ret) := by
  obtain ⟨old, there, outcome⟩ := map_origin shifts.same found
  simp only [Coro.outcome, Prod.mk.injEq] at outcome
  exact ⟨old, there, outcome.1, fun ended => ⟨outcome.2.1.trans ended, outcome.2.2⟩⟩

/-- A step at which no routine begins or ends. -/
theorem Shifts.works {next : World} {more : List Event} (shifts : Shifts world next tid)
    (coherent : Coherent next.cinfo next.readers tid (next.threads tid))
    (plain : ∀ event ∈ more, event.Plain)
    (settled : ∀ cid, (world.threads tid).doing ≠ .starting cid)
    (settled' : ∀ cid, (next.threads tid).doing ≠ .starting cid) :
    Works world next tid more where
  keeps := shifts.keeps
  origin cid coro found := by
    obtain ⟨old, there, own, ended⟩ := shifts.origin found
    exact .inr ⟨old, there, own, fun finished => .inl (ended finished)⟩
  threads := shifts.threads
  readers := shifts.readers
  coherent := coherent
  assigned _ _ inside := (plain _ inside).elim
  entered cid := ⟨fun inside => (plain _ inside).elim, fun begun => (settled cid begun.1).elim⟩
  returned _ _ inside := (plain _ inside).elim
  fresh cid starting := absurd starting (settled' cid)

section

variable {next : World} {suspend target : Option Nat} {context : Context} {point : Point}

theorem Switched.shifts (switched : Switched world next tid suspend target context point)
    (owned : ∀ cid, suspend = some cid → Owned world.cinfo tid cid) : Shifts world next tid where
  keeps := by
    rw [switched.cinfo]
    cases suspend with
    | none => exact Keeps.refl tid world.cinfo
    | some cid =>
        obtain ⟨coro, found, own⟩ := owned cid rfl
        exact Keeps.modify found own (fun _ => rfl) fun ended => ⟨ended, rfl⟩
  same := by
    rw [switched.cinfo]
    exact map_saveIn (fun _ _ => rfl) world.cinfo _ suspend
  threads := switched.threads
  readers other apart reading := by
    rw [switched.readers]
    exact reading

theorem Switched.coherent (switched : Switched world next tid suspend target context point)
    (alive : ∀ cid, target = some cid → Alive world.cinfo tid cid) :
    Coherent next.cinfo next.readers tid (next.threads tid) := by
  have settled := context.point.doing_settled
  constructor
  case toTracks => exact switched.tracks
  case executingAlive =>
    intro cid same
    apply (alive cid (switched.executing.symm.trans same)).outcome
    rw [switched.cinfo]
    exact map_saveIn (fun _ _ => rfl) world.cinfo _ suspend
  case startingAlive =>
    exact fun cid same => absurd (switched.doing.symm.trans same) (settled.1 cid)
  case scanning =>
    exact fun index same => absurd (switched.doing.symm.trans same) (settled.2 index)

end

theorem setDoing_works (coherent : Coherent world.cinfo world.readers tid (world.threads tid))
    {doing : Doing} (readers : List Nat) {more : List Event}
    (settled : ∀ cid, (world.threads tid).doing ≠ .starting cid)
    (idle : ∀ cid, doing ≠ .starting cid)
    (scanning : ∀ index, doing = .scanning index →
      tid ∈ readers ∧ ∀ cid < index, Ended world.cinfo cid)
    (kept : ∀ other, other ≠ tid → other ∈ world.readers → other ∈ readers)
    (plain : ∀ event ∈ more, event.Plain) :
    Works world ({ world with readers := readers }.setDoing tid doing) tid more := by
  have shifts : Shifts world ({ world with readers := readers }.setDoing tid doing) tid :=
    ⟨Keeps.refl tid world.cinfo, rfl, fun other apart => Function.update_of_ne apart _ _, kept⟩
  refine shifts.works ?_ plain settled (by simpa [setDoing, setThread] using idle)
  simp only [setDoing, setThread, Function.update_self]
  exact coherent.withDoing settled idle scanning

theorem start_works (coherent : Coherent world.cinfo world.readers tid (world.threads tid))
    (user : (world.threads tid).doing = .user) :
    Works world (world.start tid).1 tid [.assigned tid world.cinfo.length] where
  keeps := Keeps.append world.cinfo rfl
  origin cid coro found := by
    cases append_cases found with
    | inl old => exact .inr ⟨coro, old, rfl, fun ended => .inl ⟨ended, rfl⟩⟩
    | inr new =>
        obtain ⟨rfl, rfl⟩ := new
        exact .inl ⟨rfl, by simp [World.start, setThread], rfl⟩
  threads other apart := Function.update_of_ne apart _ _
  readers _ _ reading := reading
  coherent := by
    simp only [World.start, setThread, Function.update_self]
    exact coherent.start user
  assigned owner cid inside := by
    simp only [List.mem_singleton, Event.assigned.injEq] at inside
    obtain ⟨rfl, rfl⟩ := inside
    exact ⟨_, List.getElem?_concat_length, rfl⟩
  entered cid := by simp [user]
  returned cid ret inside := by simp at inside
  fresh cid starting := by
    simp only [World.start, setThread, Function.update_self, Doing.starting.injEq] at starting
    exact .inr (List.getElem?_eq_none (Nat.le_of_eq starting))

theorem launching_shifts {cid : Nat} (alive : Alive world.cinfo tid cid) :
    Shifts world (world.launching tid cid info) tid where
  keeps := by
    obtain ⟨coro, found, own, _⟩ := alive
    exact Keeps.modify found own (fun _ => rfl) fun ended => ⟨ended, rfl⟩
  same := map_modify cid fun _ => rfl
  threads other apart := Function.update_of_ne apart _ _
  readers _ _ reading := reading

theorem launch_works (coherent : Coherent world.cinfo world.readers tid (world.threads tid))
    {cid : Nat} (starting : (world.threads tid).doing = .starting cid)
    (known : (world.threads tid).info = some info) :
    ∃ next, world.launch tid cid info = some (next, [.entered cid]) ∧
      Works world next tid [.entered cid] := by
  have alive := coherent.startingAlive cid starting
  obtain ⟨next, launched, switched⟩ := launch_switched coherent.toTracks starting known
  have launching : Shifts world (world.launching tid cid info) tid := launching_shifts alive
  have shifts := launching.trans (switched.shifts fun older isOlder =>
    launching.keeps.toSpares.owned
      (coherent.executing older ((coherent.running info known).symm.trans isOlder)))
  have doing : (next.threads tid).doing = .user := switched.doing
  refine ⟨next, launched, shifts.keeps, ?_, shifts.threads, shifts.readers, ?_, by simp, ?_, by simp,
    by simp [doing]⟩
  · intro other coro found
    obtain ⟨old, there, own, ended⟩ := shifts.origin found
    exact .inr ⟨old, there, own, fun finished => .inl (ended finished)⟩
  · apply switched.coherent
    intro target isTarget
    cases isTarget
    exact alive.outcome launching.same
  · intro other
    rw [starting, doing]
    simp [eq_comm]

theorem nextRunning_alive {bound cid : Nat} (next : world.nextRunning tid bound = some cid) :
    Alive world.cinfo tid cid := (nextRunning_some next).2

theorem setInfo_shifts (info : ThreadInfo) : Shifts world (world.setInfo tid info) tid where
  keeps := Keeps.refl tid world.cinfo
  same := rfl
  threads _ apart := Function.update_of_ne apart _ _
  readers _ _ reading := reading

theorem yield_works (coherent : Coherent world.cinfo world.readers tid (world.threads tid))
    (settled : ∀ cid, (world.threads tid).doing ≠ .starting cid) (poll : Option Poll) :
    ∃ next more, world.coYield tid poll = some (next, more) ∧ Works world next tid more ∧
      (more = [] ∨ ∃ owner, more = [.resumed tid owner] ∧
        ∀ cid, owner = some cid → Alive world.cinfo tid cid) := by
  obtain ⟨next, more, result, yielded⟩ := coYield_yielded coherent.toTracks settled poll
  refine ⟨next, more, result, ?_⟩
  cases yielded with
  | alone =>
      refine ⟨?_, .inl rfl⟩
      exact setDoing_works coherent world.readers settled (Point.afterYield poll).doing_settled.1
        (fun index scanning => absurd scanning ((Point.afterYield poll).doing_settled.2 index))
        (fun _ _ reading => reading) (by simp)
  | @switched info target _ context known found switched =>
      have alive : ∀ cid, target = some cid → Alive world.cinfo tid cid :=
        fun cid isTarget => nextRunning_alive (found.trans isTarget)
      have shifts := (setInfo_shifts _).trans (switched.shifts fun cid isOlder =>
        coherent.executing cid ((coherent.running info known).symm.trans isOlder))
      exact ⟨shifts.works (switched.coherent alive) (by simp [Event.Plain]) settled
        (switched.doing ▸ context.point.doing_settled.1), .inr ⟨target, rfl, alive⟩⟩

theorem finish_works (coherent : Coherent world.cinfo world.readers tid (world.threads tid))
    {cid : Nat} (executing : (world.threads tid).executing = some cid)
    (user : (world.threads tid).doing = .user)
    (known : (world.threads tid).info = some info) (ret : Int)
    (nested : ∀ coro parent, world.cinfo[cid]? = some coro → coro.parent = some parent →
      ¬ Ended world.cinfo parent) :
    ∃ next parent, world.finish tid cid ret =
        some (next, [.returned cid ret, .resumed tid parent]) ∧
      Works world next tid [.returned cid ret, .resumed tid parent] ∧
      ∀ older, parent = some older → older ≠ cid ∧ Alive world.cinfo tid older := by
  obtain ⟨coro, context, found, own, linked, owner, loaded, finished⟩ :=
    finish_eq coherent.toTracks executing known ret
  have alive : ∀ parent, coro.parent = some parent →
      parent ≠ cid ∧ Alive world.cinfo tid parent := by
    intro parent isParent
    obtain ⟨below, record, there, shared⟩ := linked.parent parent isParent
    refine ⟨Nat.ne_of_lt below, record, there, shared.trans own, ?_⟩
    cases status : record.status with
    | running => rfl
    | finished => exact absurd ⟨record, there, status⟩ (nested coro parent found isParent)
  have event : context.event tid = .resumed tid coro.parent := by
    apply event_of_saved owner
    intro parent isParent
    obtain ⟨apart, record, there, shared, status⟩ := alive parent isParent
    rw [isParent, context_some, there] at loaded
    cases loaded
    exact coherent.saved parent record there shared status
      (by simpa [executing] using apart.symm) (by simp [user])
  have keeps : Keeps tid world.cinfo (world.cinfo.modify cid (Coro.finished ret)) := by
    refine Keeps.modify found own (fun _ => rfl) fun ended => ?_
    obtain ⟨same, there, _, status⟩ := coherent.executingAlive cid executing
    cases found.symm.trans there
    rw [status] at ended
    cases ended
  refine ⟨_, coro.parent, event ▸ finished, ?_, alive⟩
  constructor
  case keeps => exact keeps
  case origin =>
    intro other record there
    obtain ⟨old, before, rfl⟩ := modify_cases _ there
    refine .inr ⟨old, before, ?_⟩
    cases Decidable.em (cid = other) with
    | inl same =>
        subst same
        rw [if_pos rfl]
        exact ⟨rfl, fun _ => .inr List.mem_cons_self⟩
    | inr different =>
        rw [if_neg different]
        exact ⟨rfl, fun ended => .inl ⟨ended, rfl⟩⟩
  case threads => exact fun other apart => Function.update_of_ne apart _ _
  case readers => exact fun _ _ reading => reading
  case coherent =>
    simp only [Function.update_self]
    constructor
    case toTracks =>
      exact finish_tracks coherent.toTracks executing (by simp [user]) known found own ret
        context.point
    case executingAlive =>
      intro parent isParent
      obtain ⟨apart, record, there, shared, status⟩ := alive parent isParent
      exact ⟨record, by simp [apart.symm, there], shared, status⟩
    case startingAlive =>
      exact fun other same => absurd same (context.point.doing_settled.1 other)
    case scanning => exact fun index same => absurd same (context.point.doing_settled.2 index)
  case assigned => simp
  case entered => simp [user]
  case returned =>
    intro other value inside
    simp only [List.mem_cons, Event.returned.injEq, reduceCtorEq, List.not_mem_nil, or_self,
      or_false] at inside
    obtain ⟨rfl, rfl⟩ := inside
    exact ⟨coro.finished value, by simp [found], rfl, rfl⟩
  case fresh =>
    intro other starting
    simp only [Function.update_self] at starting
    exact absurd starting (context.point.doing_settled.1 other)

end World

end OsPractices.Coroutine
