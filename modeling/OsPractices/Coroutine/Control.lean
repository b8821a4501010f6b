import OsPractices.Coroutine.Steps

/-!
# Control of coroutines and their results

The events of a run, read back from the records, as long as no coroutine returns
after its parent: control never enters a routine that returned, and a poll
answers with what a routine returned.
-/

set_option autoImplicit false

namespace OsPractices.Coroutine

open Library

/-- No coroutine returns after its parent has returned. -/
def Nested (world : World) : Nat × Call → Prop
  | (tid, .finish _) => ∀ cid ∈ (world.threads tid).executing, ∀ coro ∈ world.cinfo[cid]?,
      ∀ parent ∈ coro.parent, ¬ Ended world.cinfo parent
  | _ => True

instance (cinfo : List Coro) (cid : Nat) : Decidable (Ended cinfo cid) :=
  inferInstanceAs (Decidable (∃ coro ∈ cinfo[cid]?, coro.status = .finished))

instance (world : World) : (action : Nat × Call) → Decidable (Nested world action)
  | (tid, .finish _) =>
      inferInstanceAs (Decidable (∀ cid ∈ (world.threads tid).executing,
        ∀ coro ∈ world.cinfo[cid]?, ∀ parent ∈ coro.parent, ¬ Ended world.cinfo parent))
  | (_, .start) | (_, .launch) | (_, .coYield) | (_, .poll _) | (_, .check) | (_, .scan)
  | (_, .yieldInPoll) => isTrue trivial

/-- A routine is entered once, returns once and then has no control any more;
every answer of `co_getret` for it is the same. -/
def ControlLaw (before : List Event) : Event → Prop
  | .entered cid => .entered cid ∉ before ∧ ∀ ret, .returned cid ret ∉ before
  | .resumed _ (some cid) => ∀ ret, .returned cid ret ∉ before
  | .returned cid _ => .entered cid ∈ before ∧ ∀ ret, .returned cid ret ∉ before
  | .result _ (.getret cid) value =>
      ∀ tid other, .result tid (.getret cid) other ∈ before → other = value
  | _ => True

/-- A cid is assigned once; the polls return after the routines they wait for,
`co_getret` with the value that the routine returned. -/
def ResultLaw (before : List Event) : Event → Prop
  | .assigned _ cid => ∀ tid, .assigned tid cid ∉ before
  | .result _ (.getret cid) value => .returned cid value ∈ before
  | .result _ (.wait cid) _ => ∃ ret, .returned cid ret ∈ before
  | .result _ .waitall _ =>
      ∀ tid cid, .assigned tid cid ∈ before → ∃ ret, .returned cid ret ∈ before
  | _ => True

def Lawful (before : List Event) (event : Event) : Prop :=
  ControlLaw before event ∧ ResultLaw before event

/-- The records of a world agree with the events of the run to it. -/
structure World.Consistent (world : World) (events : List Event) : Prop where
  coherent : ∀ tid, Coherent world.cinfo world.readers tid (world.threads tid)
  assigned : ∀ tid cid, .assigned tid cid ∈ events →
    ∃ coro, world.cinfo[cid]? = some coro ∧ coro.tid = tid
  entered : ∀ cid, .entered cid ∈ events ↔ ∃ coro, world.cinfo[cid]? = some coro ∧
    (world.threads coro.tid).doing ≠ .starting cid
  returned : ∀ cid ret, .returned cid ret ∈ events ↔ ∃ coro, world.cinfo[cid]? = some coro ∧
    coro.status = .finished ∧ coro.ret = ret
  results : ∀ tid cid value, .result tid (.getret cid) value ∈ events →
    .returned cid value ∈ events

namespace World

variable {world next : World} {tid : Nat} {events more : List Event}

theorem create_consistent : create.Consistent [] where
  coherent tid := by
    refine ⟨⟨fun _ => ⟨rfl, nofun⟩, ?_, ?_, ?_, ?_, ?_, ?_⟩, ?_, ?_, ?_⟩
    all_goals simp [create]
  assigned := by simp
  entered := by simp [create]
  returned := by simp [create]
  results := by simp

theorem Consistent.works (consistent : world.Consistent events) (works : Works world next tid more)
    (results : ∀ tid cid value, .result tid (.getret cid) value ∈ more →
      .returned cid value ∈ events) :
    next.Consistent (events ++ more) where
  coherent other := by
    cases eq_or_ne other tid with
    | inl same => exact same ▸ works.coherent
    | inr apart =>
        rw [works.threads other apart]
        exact works.keeps.coherent apart (works.readers other apart) (consistent.coherent other)
  assigned owner cid inside := by
    cases List.mem_append.mp inside with
    | inl old =>
        obtain ⟨coro, found, own⟩ := consistent.assigned owner cid old
        obtain ⟨coro', found', same⟩ := works.keeps.each cid coro found
        exact ⟨coro', found', same.trans own⟩
    | inr new => exact works.assigned owner cid new
  entered cid := by
    rw [List.mem_append, consistent.entered, works.entered]
    constructor
    · rintro (⟨coro, found, begun⟩ | ⟨starting, begun⟩)
      · obtain ⟨coro', found', same⟩ := works.keeps.each cid coro found
        refine ⟨coro', found', ?_⟩
        rw [same]
        cases eq_or_ne coro.tid tid with
        | inl own =>
            rw [own] at begun ⊢
            intro again
            cases works.fresh cid again with
            | inl before => exact begun before
            | inr missing => simp [found] at missing
        | inr apart => rwa [works.threads _ apart]
      · obtain ⟨coro, found, own, _⟩ := (consistent.coherent tid).startingAlive cid starting
        obtain ⟨coro', found', same⟩ := works.keeps.each cid coro found
        exact ⟨coro', found', by rwa [same, own]⟩
    · rintro ⟨coro, found, begun⟩
      rcases works.origin cid coro found with ⟨own, starting, _⟩ | ⟨old, there, same, _⟩
      · exact absurd starting (own ▸ begun)
      · cases Decidable.em ((world.threads coro.tid).doing = .starting cid) with
        | inl starting =>
            cases eq_or_ne coro.tid tid with
            | inl own => exact .inr ⟨own ▸ starting, own ▸ begun⟩
            | inr apart =>
                rw [works.threads _ apart] at begun
                exact absurd starting begun
        | inr settled => exact .inl ⟨old, there, same ▸ settled⟩
  returned cid ret := by
    rw [List.mem_append, consistent.returned]
    constructor
    · rintro (⟨coro, found, ended, rfl⟩ | new)
      · exact works.keeps.finished cid coro found ended
      · exact works.returned cid ret new
    · rintro ⟨coro, found, ended, rfl⟩
      rcases works.origin cid coro found with ⟨_, _, running⟩ | ⟨old, there, _, origin⟩
      · exact nomatch ended.symm.trans running
      · cases origin ended with
        | inl before => exact .inl ⟨old, there, before⟩
        | inr now => exact .inr now
  results owner cid value inside := by
    cases List.mem_append.mp inside with
    | inl old => exact List.mem_append_left _ (consistent.results owner cid value old)
    | inr new => exact List.mem_append_left _ (results owner cid value new)

namespace Consistent

theorem running_of_alive (consistent : world.Consistent events) {cid : Nat}
    (alive : Alive world.cinfo tid cid) (ret : Int) : .returned cid ret ∉ events := by
  intro inside
  obtain ⟨coro, found, ended, _⟩ := (consistent.returned cid ret).mp inside
  obtain ⟨same, there, _, running⟩ := alive
  cases found.symm.trans there
  cases ended.symm.trans running

theorem resumed_lawful (consistent : world.Consistent events) {owner : Option Nat}
    (alive : ∀ cid, owner = some cid → Alive world.cinfo tid cid) :
    Lawful events (.resumed tid owner) := by
  cases owner with
  | none => exact ⟨trivial, trivial⟩
  | some cid => exact ⟨consistent.running_of_alive (alive cid rfl), trivial⟩

theorem assigned_lawful (consistent : world.Consistent events) :
    Lawful events (.assigned tid world.cinfo.length) := by
  refine ⟨trivial, fun owner inside => ?_⟩
  obtain ⟨coro, found, _⟩ := consistent.assigned owner _ inside
  simp at found

theorem entered_lawful (consistent : world.Consistent events) {cid : Nat}
    (starting : (world.threads tid).doing = .starting cid) : Lawful events (.entered cid) := by
  have alive := (consistent.coherent tid).startingAlive cid starting
  refine ⟨⟨fun inside => ?_, consistent.running_of_alive alive⟩, trivial⟩
  obtain ⟨coro, found, begun⟩ := (consistent.entered cid).mp inside
  obtain ⟨same, there, own, _⟩ := alive
  cases found.symm.trans there
  rw [own] at begun
  exact begun starting

theorem returned_lawful (consistent : world.Consistent events) {cid : Nat} {ret : Int}
    (executing : (world.threads tid).executing = some cid)
    (user : (world.threads tid).doing = .user) : Lawful events (.returned cid ret) := by
  have alive := (consistent.coherent tid).executingAlive cid executing
  refine ⟨⟨?_, consistent.running_of_alive alive⟩, trivial⟩
  obtain ⟨coro, found, own, _⟩ := alive
  exact (consistent.entered cid).mpr ⟨coro, found, by simp [own, user]⟩

theorem getret_lawful (consistent : world.Consistent events) {cid : Nat} {coro : Coro}
    (found : world.cinfo[cid]? = some coro) (ended : coro.status = .finished) :
    Lawful events (.result tid (.getret cid) coro.ret) := by
  refine ⟨fun owner other inside => ?_,
    (consistent.returned cid coro.ret).mpr ⟨coro, found, ended, rfl⟩⟩
  obtain ⟨same, there, _, ret⟩ :=
    (consistent.returned cid other).mp (consistent.results owner cid other inside)
  cases found.symm.trans there
  exact ret.symm

theorem wait_lawful (consistent : world.Consistent events) {cid : Nat}
    (ended : Ended world.cinfo cid) : Lawful events (.result tid (.wait cid) 0) := by
  obtain ⟨coro, found, status⟩ := ended
  exact ⟨trivial, coro.ret, (consistent.returned cid coro.ret).mpr ⟨coro, found, status, rfl⟩⟩

theorem waitall_lawful (consistent : world.Consistent events)
    (ended : ∀ cid < world.cinfo.length, Ended world.cinfo cid) :
    Lawful events (.result tid .waitall 0) := by
  refine ⟨trivial, fun owner cid inside => ?_⟩
  obtain ⟨coro, found, _⟩ := consistent.assigned owner cid inside
  obtain ⟨same, there, status⟩ := ended cid (List.getElem?_eq_some_iff.mp found).1
  exact ⟨same.ret, (consistent.returned cid same.ret).mpr ⟨same, there, status, rfl⟩⟩

end Consistent

/-- The next world continues the history, and lawfully. -/
def Follows (next : World) (events more : List Event) : Prop :=
  next.Consistent (events ++ more) ∧
    (Explained Lawful events → Explained Lawful (events ++ more))

namespace Consistent

theorem silent (consistent : world.Consistent events) (works : Works world next tid []) :
    Follows next events [] :=
  ⟨consistent.works works (by simp), fun explained => by simpa using explained⟩

theorem single (consistent : world.Consistent events) {event : Event}
    (works : Works world next tid [event]) (lawful : Lawful events event) :
    Follows next events [event] := by
  refine ⟨consistent.works works ?_, fun explained => Explained.snoc.mpr ⟨explained, lawful⟩⟩
  intro owner cid value inside
  cases List.mem_singleton.mp inside
  exact lawful.2

theorem yield (consistent : world.Consistent events)
    (settled : ∀ cid, (world.threads tid).doing ≠ .starting cid) {poll : Option Poll}
    (yielded : world.coYield tid poll = some (next, more)) : Follows next events more := by
  obtain ⟨next', more', yielded', works, shape⟩ :=
    yield_works (consistent.coherent tid) settled poll
  cases yielded.symm.trans yielded'
  cases shape with
  | inl none =>
      subst none
      exact consistent.silent works
  | inr resumed =>
      obtain ⟨owner, rfl, alive⟩ := resumed
      exact consistent.single works (consistent.resumed_lawful alive)

theorem check (consistent : world.Consistent events) {poll : Poll}
    (checking : (world.threads tid).doing = .checking poll)
    (checked : world.check tid poll = some (next, more)) : Follows next events more := by
  have works : ∀ {doing : Doing} {more : List Event}, (∀ cid, doing ≠ .starting cid) →
      (∀ index, doing ≠ .scanning index) → (∀ event ∈ more, event.Plain) →
      Works world (world.setDoing tid doing) tid more := fun idle calm plain =>
    setDoing_works (consistent.coherent tid) world.readers (by simp [checking]) idle
      (fun index scanning => absurd scanning (calm index)) (fun _ _ reading => reading) plain
  cases poll with
  | getret cid =>
      obtain ⟨coro, found, answer⟩ := Option.map_eq_some_iff.mp checked
      split at answer
      case isTrue ended =>
        cases answer
        exact consistent.single (works (by simp) (by simp) (by simp [Event.Plain]))
          (consistent.getret_lawful found ended)
      case isFalse =>
        cases answer
        exact consistent.silent (works (by simp) (by simp) (by simp))
  | wait cid =>
      obtain ⟨coro, found, answer⟩ := Option.map_eq_some_iff.mp checked
      split at answer
      case isTrue ended =>
        cases answer
        exact consistent.single (works (by simp) (by simp) (by simp [Event.Plain]))
          (consistent.wait_lawful ⟨coro, found, ended⟩)
      case isFalse =>
        cases answer
        exact consistent.silent (works (by simp) (by simp) (by simp))
  | waitall =>
      cases checked
      apply consistent.silent
      apply setDoing_works (consistent.coherent tid) _ (by simp [checking]) (by simp) ?_
        (fun _ _ reading => List.mem_cons_of_mem _ reading) (by simp)
      rintro _ ⟨⟩
      exact ⟨List.mem_cons_self, fun cid below => absurd below (Nat.not_lt_zero cid)⟩

theorem scan (consistent : world.Consistent events) {index : Nat}
    (scanning : (world.threads tid).doing = .scanning index)
    (scanned : world.scan tid index = (next, more)) : Follows next events more := by
  obtain ⟨reading, ended⟩ := (consistent.coherent tid).scanning index scanning
  have unlocked : ∀ other, other ≠ tid → other ∈ world.readers →
      other ∈ world.readers.erase tid := fun _ apart reading =>
    (List.mem_erase_of_ne apart).mpr reading
  unfold World.scan at scanned
  split at scanned
  case h_1 coro found =>
    split at scanned
    case isTrue status =>
      cases scanned
      apply consistent.silent
      apply setDoing_works (consistent.coherent tid) world.readers (by simp [scanning]) (by simp)
        ?_ (fun _ _ reading => reading) (by simp)
      rintro _ ⟨⟩
      refine ⟨reading, fun cid below => ?_⟩
      cases Nat.lt_succ_iff_lt_or_eq.mp below with
      | inl before => exact ended cid before
      | inr last => exact ⟨coro, last ▸ found, status⟩
    case isFalse =>
      cases scanned
      exact consistent.silent (setDoing_works (consistent.coherent tid) _ (by simp [scanning])
        (by simp) (by simp) unlocked (by simp))
  case h_2 missing =>
    cases scanned
    apply consistent.single
    case works =>
      exact setDoing_works (consistent.coherent tid) _ (by simp [scanning]) (by simp) (by simp)
        unlocked (by simp [Event.Plain])
    case lawful =>
      apply consistent.waitall_lawful
      intro cid inside
      exact ended cid (Nat.lt_of_lt_of_le inside (List.getElem?_eq_none_iff.mp missing))

theorem finish (consistent : world.Consistent events) {cid : Nat} {ret : Int}
    (nested : Nested world (tid, .finish ret))
    (user : (world.threads tid).doing = .user)
    (executing : (world.threads tid).executing = some cid)
    (finished : world.finish tid cid ret = some (next, more)) : Follows next events more := by
  cases known : (world.threads tid).info with
  | none => exact nomatch executing.symm.trans ((consistent.coherent tid).unregistered known).1
  | some info =>
      obtain ⟨next', parent, finished', works, alive⟩ := finish_works (consistent.coherent tid)
        executing user known ret fun coro parent found => nested cid executing coro found parent
      cases finished.symm.trans finished'
      refine ⟨consistent.works works (by simp), fun explained => ?_⟩
      have lawful : Lawful (events ++ [.returned cid ret]) (.resumed tid parent) := by
        cases parent with
        | none => exact ⟨trivial, trivial⟩
        | some older =>
            obtain ⟨apart, running⟩ := alive older rfl
            refine ⟨fun value inside => ?_, trivial⟩
            cases List.mem_append.mp inside with
            | inl before => exact consistent.running_of_alive running value before
            | inr now => simp [apart] at now
      have longer := Explained.snoc.mpr
        ⟨Explained.snoc.mpr ⟨explained, consistent.returned_lawful executing user⟩, lawful⟩
      simpa using longer

theorem step (consistent : world.Consistent events) {call : Call}
    (nested : Nested world (tid, call)) (stepped : world.step (tid, call) = some (next, more)) :
    Follows next events more := by
  cases step_cases stepped with
  | start user =>
      exact consistent.single (start_works (consistent.coherent tid) user)
        consistent.assigned_lawful
  | launch starting known launched =>
      obtain ⟨next', launched', works⟩ :=
        launch_works (consistent.coherent tid) starting known
      cases launched.symm.trans launched'
      exact consistent.single works (consistent.entered_lawful starting)
  | coYield user yielded => exact consistent.yield (by simp [user]) yielded
  | poll user =>
      exact consistent.silent (setDoing_works (consistent.coherent tid) world.readers
        (by simp [user]) (by simp) (by simp) (fun _ _ reading => reading) (by simp))
  | check checking checked => exact consistent.check checking checked
  | scan scanning scanned => exact consistent.scan scanning scanned
  | yieldInPoll yielding yielded => exact consistent.yield (by simp [yielding]) yielded
  | finish user executing finished => exact consistent.finish nested user executing finished

/-- A routine that returns after its parent resumes it. -/
theorem nested_of_lawful (consistent : world.Consistent events) {call : Call}
    (stepped : world.step (tid, call) = some (next, more))
    (explained : Explained ControlLaw (events ++ more)) : Nested world (tid, call) := by
  cases step_cases stepped with
  | @finish cid ret next more user executing finished =>
      intro cid' executing' coro' found parent isParent ended
      cases executing.symm.trans executing'
      cases known : (world.threads tid).info with
      | none => exact nomatch executing.symm.trans ((consistent.coherent tid).unregistered known).1
      | some info =>
          obtain ⟨coro, context, found', _, _, owner, _, finished'⟩ :=
            finish_eq (consistent.coherent tid).toTracks executing known ret
          cases found.symm.trans found'
          cases finished.symm.trans finished'
          obtain ⟨record, there, status⟩ := ended
          have returned : .returned parent record.ret ∈ events ++ [.returned cid ret] :=
            List.mem_append_left _ ((consistent.returned _ _).mpr ⟨record, there, status, rfl⟩)
          have law := explained (events ++ [.returned cid ret]) (context.event tid) [] (by simp)
          obtain ⟨owner', point⟩ := context
          cases owner.trans isParent
          cases point with
          | entry => exact law.2 _ returned
          | afterStart => exact law _ returned
          | afterYield poll => exact law _ returned
  | _ => trivial

end Consistent

end World

theorem nested_follows {actions : List (Nat × Call)} {events : List Event} {world : World}
    (run : Run World.step Nested World.create actions events world) :
    world.Consistent events ∧ Explained Lawful events := by
  induction run with
  | nil => exact ⟨World.create_consistent, Explained.nil⟩
  | @snoc _ _ _ _ _ action _ nested stepped ih =>
      obtain ⟨consistent, explained⟩ := ih
      obtain ⟨tid, call⟩ := action
      obtain ⟨next, longer⟩ := consistent.step nested stepped
      exact ⟨next, longer explained⟩

/-- Control enters no finished routine in a run exactly if no coroutine of it
returns after its parent. -/
theorem control_iff_nested {actions : List (Nat × Call)} {events : List Event} {world : World}
    (run : Run World.step (fun _ _ => True) World.create actions events world) :
    Explained ControlLaw events ↔ Run World.step Nested World.create actions events world := by
  constructor
  · intro explained
    induction run with
    | nil => exact .nil
    | snoc _ _ stepped ih =>
        have nested := ih explained.prefix_of_append
        have consistent := (nested_follows nested).1
        exact nested.snoc (consistent.nested_of_lawful stepped explained) stepped
  · intro nested
    exact (nested_follows nested).2.mono fun _ _ lawful => lawful.1

/-- A starts B. Both yield and are resumed; B returns to A, and A to the main routine. -/
theorem control_iff_nested_two : ∃ events world,
    Run World.step Nested World.create [(0, .start), (0, .launch), (0, .start), (0, .launch),
      (0, .coYield), (0, .coYield), (0, .coYield), (0, .finish 8), (0, .finish 7)] events world ∧
    [.returned 1 8, .resumed 0 (some 0), .returned 0 7].Sublist events ∧
    Explained ControlLaw events := by
  have run : Run World.step Nested World.create [(0, .start), (0, .launch), (0, .start),
      (0, .launch), (0, .coYield), (0, .coYield), (0, .coYield), (0, .finish 8),
      (0, .finish 7)] _ _ := Run.of_exec_guarded rfl
  refine ⟨_, _, run, by decide, ?_⟩
  exact (control_iff_nested (run.mono fun _ _ _ => trivial)).mpr run

/-- A starts B, which yields; A and then B return: control enters A again. -/
theorem finished_routine_resumed :
    ¬ ∀ events world, Run World.step (fun _ _ => True) World.create
        [(0, .start), (0, .launch), (0, .start), (0, .launch), (0, .coYield), (0, .coYield),
          (0, .finish 7), (0, .coYield), (0, .finish 8)] events world →
      Explained ControlLaw events := by
  intro always
  have explained := always _ _ (Run.of_exec rfl)
  have law := explained
    [.assigned 0 0, .entered 0, .assigned 0 1, .entered 1, .resumed 0 none, .resumed 0 (some 0),
      .returned 0 7, .resumed 0 none, .resumed 0 (some 1), .returned 1 8]
    (.resumed 0 (some 0)) [] rfl
  exact law 7 (by decide)

/-- Across threads: a cid is given once and its record stays that coroutine's,
the polls return after the routines they wait for, and `co_getret` with the
value that the routine returned. -/
theorem results_across_threads {actions : List (Nat × Call)} {events : List Event}
    {world : World} (run : Run World.step Nested World.create actions events world) :
    Explained ResultLaw events ∧ ∀ tid cid, .assigned tid cid ∈ events →
      ∃ coro, world.cinfo[cid]? = some coro ∧ coro.tid = tid ∧ coro.uc.owner = some cid ∧
        ∀ ret, .returned cid ret ∈ events ↔ coro.status = .finished ∧ coro.ret = ret := by
  obtain ⟨consistent, explained⟩ := nested_follows run
  refine ⟨explained.mono fun _ _ lawful => lawful.2, fun tid cid inside => ?_⟩
  obtain ⟨coro, found, own⟩ := consistent.assigned tid cid inside
  have linked := (consistent.coherent tid).linked cid coro found own
  refine ⟨coro, found, own, linked.owner, fun ret => (consistent.returned cid ret).trans ?_⟩
  constructor
  · rintro ⟨same, there, ended⟩
    cases found.symm.trans there
    exact ended
  · exact fun ended => ⟨coro, found, ended⟩

/-- Thread 1 polls for the coroutine of thread 0 before and after it returns. -/
theorem results_across_threads_two : ∃ events world,
    Run World.step Nested World.create [(0, .start), (0, .launch), (0, .coYield),
      (1, .poll (.getret 0)), (1, .check), (1, .yieldInPoll), (0, .coYield), (0, .finish 7),
      (1, .check), (1, .poll .waitall), (1, .check), (1, .scan), (1, .scan)] events world ∧
    .result 1 (.getret 0) 7 ∈ events ∧ .result 1 .waitall 0 ∈ events ∧
    Explained ResultLaw events := by
  have run : Run World.step Nested World.create [(0, .start), (0, .launch), (0, .coYield),
      (1, .poll (.getret 0)), (1, .check), (1, .yieldInPoll), (0, .coYield), (0, .finish 7),
      (1, .check), (1, .poll .waitall), (1, .check), (1, .scan), (1, .scan)] _ _ :=
    Run.of_exec_guarded rfl
  exact ⟨_, _, run, by decide, by decide, (results_across_threads run).1⟩

end OsPractices.Coroutine
