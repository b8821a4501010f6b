import OsPractices.Coroutine.Tracks

/-!
# How control goes over

`swapcontext` between two records, and the three calls that move control: the
rest of `co_start`, `co_yield`, and the return of a routine. Each leaves the
thread tracked.
-/

set_option autoImplicit false

namespace OsPractices.Coroutine

/-- The array after a context was saved in the record of a routine. -/
def saveIn (cinfo : List Coro) (context : Context) : Option Nat → List Coro
  | none => cinfo
  | some cid => cinfo.modify cid fun coro => { coro with uc := context }

def ThreadInfo.saveIn (info : ThreadInfo) (context : Context) : Option Nat → ThreadInfo
  | none => { info with mainUc := context }
  | some _ => info

@[simp] theorem ThreadInfo.saveIn_running (info : ThreadInfo) (context : Context)
    (place : Option Nat) : (info.saveIn context place).running = info.running := by
  cases place <;> rfl

theorem map_saveIn {Value : Type} {read : Coro → Value}
    (still : ∀ coro context, read { coro with uc := context } = read coro) (cinfo : List Coro)
    (context : Context) (place : Option Nat) :
    (Coroutine.saveIn cinfo context place).map read = cinfo.map read := by
  cases place with
  | none => rfl
  | some cid => exact map_modify cid fun coro => still coro context

theorem saveIn_cases {cinfo : List Coro} {context : Context} {place : Option Nat} {cid : Nat}
    {coro : Coro} (found : (Coroutine.saveIn cinfo context place)[cid]? = some coro) :
    ∃ old, cinfo[cid]? = some old ∧
      coro = if place = some cid then { old with uc := context } else old := by
  cases place with
  | none => exact ⟨coro, found, rfl⟩
  | some saved =>
      obtain ⟨old, there, same⟩ := modify_cases _ found
      exact ⟨old, there, by simpa using same⟩

/-- What `co_start` writes into the record behind its locked section. -/
def Coro.linkTo (parent : Option Nat) (cid : Nat) (coro : Coro) : Coro :=
  { coro with parent := parent, link := parent, uc := ⟨some cid, .entry⟩ }

def Coro.finished (ret : Int) (coro : Coro) : Coro :=
  { coro with status := .finished, ret := ret }

namespace World

variable {world : World} {tid : Nat} {info : ThreadInfo}

theorem context_some (cid : Nat) : world.context tid (some cid) = world.cinfo[cid]?.map Coro.uc :=
  rfl

theorem setInfo_cinfo : (world.setInfo tid info).cinfo = world.cinfo := rfl

theorem saveContext_eq (known : (world.threads tid).info = some info) (context : Context)
    (place : Option Nat) :
    world.saveContext tid context place =
      { cinfo := Coroutine.saveIn world.cinfo context place
        readers := world.readers
        threads := Function.update world.threads tid
          { world.threads tid with info := some (info.saveIn context place) } } := by
  cases place with
  | none => simp [saveContext, known, setInfo, setThread, Coroutine.saveIn, ThreadInfo.saveIn]
  | some cid =>
      have same : { world.threads tid with info := some info } = world.threads tid := by
        rw [← known]
      simp only [saveContext, Coroutine.saveIn, ThreadInfo.saveIn, same, Function.update_eq_self]

/-- `swapcontext` between two records. -/
theorem swap_eq (known : (world.threads tid).info = some info) {suspend target : Option Nat}
    {point : Point} {context : Context} (different : suspend ≠ target)
    (loaded : world.context tid target = some context) :
    world.swap tid suspend point target = some
      ({ cinfo := Coroutine.saveIn world.cinfo ⟨(world.threads tid).executing, point⟩ suspend
         readers := world.readers
         threads := Function.update world.threads tid
           ⟨some (info.saveIn ⟨(world.threads tid).executing, point⟩ suspend), context.owner,
             context.point.doing⟩ },
        [context.event tid]) := by
  have still : (world.saveContext tid ⟨(world.threads tid).executing, point⟩ suspend).context
      tid target = some context := by
    rw [saveContext_eq known]
    cases target with
    | none =>
        cases suspend with
        | none => exact absurd rfl different
        | some cid => simpa [World.context, ThreadInfo.saveIn, known] using loaded
    | some cid =>
        cases suspend with
        | none => exact loaded
        | some other =>
            have apart : other ≠ cid := fun same => different (congrArg some same)
            simpa [World.context, Coroutine.saveIn, List.getElem?_modify, apart] using loaded
  unfold swap
  simp only [still, Option.map_some]
  rw [saveContext_eq known]
  simp [resume, setThread]

theorem event_of_saved {context : Context} {owner : Option Nat} (owned : context.owner = owner)
    (saved : ∀ cid, owner = some cid → context.point ≠ .entry) :
    context.event tid = .resumed tid owner := by
  obtain ⟨owner', point⟩ := context
  cases owned
  cases owner' with
  | none => rfl
  | some cid =>
      cases point with
      | entry => exact absurd rfl (saved cid rfl)
      | afterStart => rfl
      | afterYield poll => rfl

/-- The executing routine `suspend` is about to leave control to `target`, which
`running` names already. -/
structure Switch (world : World) (tid : Nat) (suspend target : Option Nat) : Prop where
  executing : (world.threads tid).executing = suspend
  running : ∃ info, (world.threads tid).info = some info ∧ info.running = target ∧
    (suspend ≠ none → info.mainUc.owner = none)
  different : suspend ≠ target
  owned : ∀ cid, suspend = some cid ∨ target = some cid → Owned world.cinfo tid cid
  saved : ∀ (cid : Nat) (coro : Coro), world.cinfo[cid]? = some coro → coro.tid = tid →
    coro.status = .running → suspend ≠ some cid → target ≠ some cid → coro.Saved
  linked : ∀ (cid : Nat) (coro : Coro), world.cinfo[cid]? = some coro → coro.tid = tid →
    coro.Linked world.cinfo cid

/-- What `swapcontext` leaves: the suspended routine's context is saved behind
the call, and the target executes. -/
structure Switched (world next : World) (tid : Nat) (suspend target : Option Nat)
    (context : Context) (point : Point) : Prop where
  cinfo : next.cinfo = saveIn world.cinfo ⟨suspend, point⟩ suspend
  readers : next.readers = world.readers
  threads : ∀ other, other ≠ tid → next.threads other = world.threads other
  registered : (next.threads tid).info ≠ none
  executing : (next.threads tid).executing = target
  doing : (next.threads tid).doing = context.point.doing
  tracks : Tracks next.cinfo tid (next.threads tid)

namespace Switch

variable {suspend target : Option Nat}

theorem spares (switch : Switch world tid suspend target) (context : Context) :
    Spares tid world.cinfo (saveIn world.cinfo context suspend) := by
  cases suspend with
  | none => exact Spares.refl tid world.cinfo
  | some cid => exact Spares.modify (switch.owned cid (.inl rfl)) fun _ => rfl

/-- The record of the target holds a context of the target. -/
theorem loaded (switch : Switch world tid suspend target) :
    ∃ context, world.context tid target = some context ∧ context.owner = target := by
  cases target with
  | none =>
      obtain ⟨info, known, _, main⟩ := switch.running
      exact ⟨info.mainUc, by simp [World.context, known], main switch.different⟩
  | some cid =>
      obtain ⟨coro, found, own⟩ := switch.owned cid (.inr rfl)
      exact ⟨coro.uc, by simp [World.context, found], (switch.linked cid coro found own).owner⟩

theorem swap (switch : Switch world tid suspend target) (point : Point) (after : point ≠ .entry)
    {context : Context} (loaded : world.context tid target = some context) :
    ∃ next, world.swap tid suspend point target = some (next, [context.event tid]) ∧
      Switched world next tid suspend target context point := by
  obtain ⟨same, there, owner⟩ := switch.loaded
  cases loaded.symm.trans there
  have spares := switch.spares ⟨suspend, point⟩
  obtain ⟨executing, ⟨info, known, running, main⟩, different, owned, saved, linked⟩ := switch
  refine ⟨_, swap_eq known different loaded, ?_⟩
  rw [executing, owner]
  refine ⟨rfl, rfl, fun other apart => Function.update_of_ne apart _ _, by simp, by simp, by simp,
    ?_⟩
  simp only [Function.update_self]
  apply Tracks.of_target
  case named => simp [running]
  case owned => exact fun cid same' => spares.owned (owned cid (.inr same'))
  case main =>
    intro busy
    cases suspend with
    | none => rfl
    | some cid => exact main (by simp)
  case saved =>
    intro cid coro found own status other
    obtain ⟨old, there, rfl⟩ := saveIn_cases found
    cases Decidable.em (suspend = some cid) with
    | inl suspended => simpa [suspended, Coro.Saved] using after
    | inr waiting =>
        simp only [waiting, if_false] at own status ⊢
        exact saved cid old there own status waiting other
  case linked =>
    intro cid coro found own
    obtain ⟨old, there, rfl⟩ := saveIn_cases found
    cases Decidable.em (suspend = some cid) with
    | inl suspended =>
        rw [if_pos suspended] at own ⊢
        have before := linked cid old there own
        exact spares.linked before (suspended.trans before.owner.symm) rfl rfl rfl
    | inr waiting =>
        simp only [waiting, if_false] at own ⊢
        exact spares.linked (linked cid old there own) rfl rfl rfl rfl

end Switch

/-! ## The calls -/

/-- The world in which `co_start` calls `swapcontext`. -/
def launching (world : World) (tid cid : Nat) (info : ThreadInfo) : World :=
  { world with cinfo := world.cinfo.modify cid (Coro.linkTo info.running cid) }.setInfo tid
    { info with running := some cid }

theorem launching_switch {cid : Nat} (tracks : Tracks world.cinfo tid (world.threads tid))
    (starting : (world.threads tid).doing = .starting cid)
    (known : (world.threads tid).info = some info) :
    Switch (world.launching tid cid info) tid info.running (some cid) := by
  have running := tracks.running info known
  obtain ⟨owned, younger⟩ := tracks.starting cid starting
  have spares : Spares tid world.cinfo (world.launching tid cid info).cinfo :=
    Spares.modify owned fun _ => rfl
  constructor
  case executing => simp [launching, setInfo, setThread, running]
  case running =>
    exact ⟨{ info with running := some cid }, by simp [launching, setInfo, setThread], rfl,
      fun busy => tracks.main info known (running ▸ busy)⟩
  case different =>
    exact fun same => Nat.lt_irrefl cid (younger cid (running.symm.trans same))
  case owned =>
    intro other named
    cases named with
    | inl older => exact spares.owned (tracks.executing other (running.symm.trans older))
    | inr fresh =>
        cases fresh
        exact spares.owned owned
  case saved =>
    intro other record found own status apart fresh
    obtain ⟨old, there, rfl⟩ := modify_cases cid found
    have distinct : cid ≠ other := fun same => fresh (congrArg some same)
    rw [if_neg distinct] at own status ⊢
    exact tracks.saved other old there own status (running ▸ apart)
      (by simpa [starting] using distinct)
  case linked =>
    intro other record found own
    obtain ⟨old, there, rfl⟩ := modify_cases cid found
    cases Decidable.em (cid = other) with
    | inl fresh =>
        subst fresh
        rw [if_pos rfl] at own ⊢
        refine ⟨rfl, rfl, fun parent isParent => ?_⟩
        have executing := running.symm.trans isParent
        obtain ⟨record, there, shared⟩ := spares.owned (tracks.executing parent executing)
        exact ⟨younger parent executing, record, there, shared.trans own.symm⟩
    | inr distinct =>
        rw [if_neg distinct] at own ⊢
        exact spares.linked (tracks.linked other old there own) rfl rfl rfl rfl

theorem launch_switched {cid : Nat} (tracks : Tracks world.cinfo tid (world.threads tid))
    (starting : (world.threads tid).doing = .starting cid)
    (known : (world.threads tid).info = some info) :
    ∃ next, world.launch tid cid info = some (next, [.entered cid]) ∧
      Switched (world.launching tid cid info) next tid info.running (some cid)
        ⟨some cid, .entry⟩ .afterStart := by
  obtain ⟨coro, found, _⟩ := (tracks.starting cid starting).1
  have loaded : (world.launching tid cid info).context tid (some cid) =
      some ⟨some cid, .entry⟩ := by
    simp [World.context, launching, setInfo, setThread, found, Coro.linkTo]
  exact (launching_switch tracks starting known).swap .afterStart nofun loaded

theorem nextRunning_some {bound cid : Nat} (next : world.nextRunning tid bound = some cid) :
    bound ≤ cid ∧
      ∃ coro, world.cinfo[cid]? = some coro ∧ coro.tid = tid ∧ coro.status = .running := by
  unfold nextRunning at next
  have found := List.find?_some next
  have range := List.mem_of_find?_eq_some next
  rw [List.mem_range'_1] at range
  refine ⟨range.1, ?_⟩
  cases there : world.cinfo[cid]? with
  | none => simp [there] at found
  | some coro =>
      simp only [there, Option.any_some, decide_eq_true_eq] at found
      exact ⟨coro, rfl, found⟩

/-- What `co_yield` does: it returns to its caller, or control goes to the
routine that `nextRunning` found. -/
inductive Yielded (world : World) (tid : Nat) (poll : Option Poll) : World → List Event → Prop where
  | alone (found : ∀ info, (world.threads tid).info = some info →
        info.running = world.nextRunning tid (lowerBound info.running)) :
      Yielded world tid poll (world.setDoing tid (Point.afterYield poll).doing) []
  | switched {info : ThreadInfo} {target : Option Nat} {next : World} {context : Context}
      (known : (world.threads tid).info = some info)
      (found : world.nextRunning tid (lowerBound info.running) = target)
      (switched : Switched (world.setInfo tid { info with running := target }) next tid
        info.running target context (.afterYield poll)) :
      Yielded world tid poll next [.resumed tid target]

theorem yield_switch (tracks : Tracks world.cinfo tid (world.threads tid))
    (settled : ∀ cid, (world.threads tid).doing ≠ .starting cid)
    (known : (world.threads tid).info = some info) {target : Option Nat}
    (found : world.nextRunning tid (lowerBound info.running) = target)
    (different : info.running ≠ target) :
    Switch (world.setInfo tid { info with running := target }) tid info.running target := by
  have running := tracks.running info known
  constructor
  case executing => simp [setInfo, setThread, running]
  case running =>
    exact ⟨{ info with running := target }, by simp [setInfo, setThread], rfl,
      fun busy => tracks.main info known (running ▸ busy)⟩
  case different => exact different
  case owned =>
    intro cid named
    cases named with
    | inl executing => exact tracks.executing cid (running.symm.trans executing)
    | inr isTarget =>
        obtain ⟨coro, there, own, _⟩ := (nextRunning_some (found.trans isTarget)).2
        exact ⟨coro, there, own⟩
  case saved =>
    intro cid coro there own status apart _
    exact tracks.saved cid coro there own status (running ▸ apart) (settled cid)
  case linked => exact tracks.linked

theorem coYield_yielded (tracks : Tracks world.cinfo tid (world.threads tid))
    (settled : ∀ cid, (world.threads tid).doing ≠ .starting cid) (poll : Option Poll) :
    ∃ next more, world.coYield tid poll = some (next, more) ∧
      world.Yielded tid poll next more := by
  cases known : (world.threads tid).info with
  | none => exact ⟨_, [], by simp [coYield, known], .alone (by simp [known])⟩
  | some info =>
      cases Decidable.em (info.running = world.nextRunning tid (lowerBound info.running)) with
      | inl same =>
          have still : world.setInfo tid { info with running := info.running } = world := by
            simp [setInfo, setThread, ← known]
          refine ⟨_, [], by simp only [coYield, known, ← same, still, if_true], .alone ?_⟩
          intro info' known'
          cases known.symm.trans known'
          exact same
      | inr different =>
          have switch := yield_switch tracks settled known rfl different
          obtain ⟨context, loaded, owner⟩ := switch.loaded
          obtain ⟨next, swapped, switched⟩ := switch.swap (.afterYield poll) nofun loaded
          have event : context.event tid =
              .resumed tid (world.nextRunning tid (lowerBound info.running)) := by
            apply event_of_saved owner
            intro cid isTarget
            obtain ⟨coro, there, own, status⟩ := (nextRunning_some isTarget).2
            have saved := tracks.saved cid coro there own status
              (fun executing => different
                ((tracks.running info known).trans (executing.trans isTarget.symm)))
              (settled cid)
            rw [isTarget, context_some, setInfo_cinfo, there] at loaded
            cases loaded
            exact saved
          rw [event] at swapped
          exact ⟨next, _, by simpa [coYield, known, different] using swapped,
            .switched known rfl switched⟩

/-- A routine returns to the context in the record of its parent. -/
theorem finish_eq (tracks : Tracks world.cinfo tid (world.threads tid)) {cid : Nat}
    (executing : (world.threads tid).executing = some cid)
    (known : (world.threads tid).info = some info) (ret : Int) :
    ∃ coro context, world.cinfo[cid]? = some coro ∧ coro.tid = tid ∧
      coro.Linked world.cinfo cid ∧
      context.owner = coro.parent ∧ world.context tid coro.parent = some context ∧
      world.finish tid cid ret = some
        ({ cinfo := world.cinfo.modify cid (Coro.finished ret)
           readers := world.readers
           threads := Function.update world.threads tid
             ⟨some { info with running := coro.parent }, coro.parent, context.point.doing⟩ },
          [.returned cid ret, context.event tid]) := by
  obtain ⟨coro, found, own⟩ := tracks.executing cid executing
  have linked := tracks.linked cid coro found own
  have target : ∃ context : Context, context.owner = coro.parent ∧
      world.context tid coro.parent = some context ∧
      ({ world with cinfo := world.cinfo.modify cid (Coro.finished ret) }.setInfo tid
        { info with running := coro.parent }).context tid coro.parent = some context := by
    cases parent : coro.parent with
    | none =>
        exact ⟨info.mainUc, tracks.main info known (by simp [executing]),
          by simp [World.context, known], by simp [World.context, setInfo, setThread]⟩
    | some older =>
        obtain ⟨below, record, there, shared⟩ := linked.parent older parent
        refine ⟨record.uc, (tracks.linked older record there (shared.trans own)).owner,
          by simp [World.context, there], ?_⟩
        simp [context_some, setInfo_cinfo, Nat.ne_of_gt below, there]
  obtain ⟨context, owner, loaded, loaded'⟩ := target
  refine ⟨coro, context, found, own, linked, owner, loaded, ?_⟩
  simp only [World.finish, found, known, linked.link]
  change Option.map _ (({ world with cinfo := world.cinfo.modify cid (Coro.finished ret) }.setInfo
    tid { info with running := coro.parent }).context tid coro.parent) = _
  rw [loaded']
  simp only [resume, setInfo, setThread, owner, Option.map_some, Function.update_self,
    Function.update_idem]
  rfl

theorem finish_tracks (tracks : Tracks world.cinfo tid (world.threads tid)) {cid : Nat}
    {coro : Coro} (executing : (world.threads tid).executing = some cid)
    (settled : ∀ cid, (world.threads tid).doing ≠ .starting cid)
    (known : (world.threads tid).info = some info) (found : world.cinfo[cid]? = some coro)
    (own : coro.tid = tid) (ret : Int) (point : Point) :
    Tracks (world.cinfo.modify cid (Coro.finished ret)) tid
      ⟨some { info with running := coro.parent }, coro.parent, point.doing⟩ := by
  have spares : Spares tid world.cinfo (world.cinfo.modify cid (Coro.finished ret)) :=
    Spares.modify ⟨coro, found, own⟩ fun _ => rfl
  have linked := tracks.linked cid coro found own
  apply Tracks.of_target
  case named => rfl
  case owned =>
    intro parent isParent
    obtain ⟨_, record, there, shared⟩ := linked.parent parent isParent
    exact spares.owned ⟨record, there, shared.trans own⟩
  case main => exact fun _ => tracks.main info known (by simp [executing])
  case saved =>
    intro other record there shared status _
    obtain ⟨old, before, rfl⟩ := modify_cases _ there
    cases Decidable.em (cid = other) with
    | inl same =>
        rw [if_pos same] at status
        cases status
    | inr different =>
        rw [if_neg different] at shared status ⊢
        exact tracks.saved other old before shared status (by simpa [executing] using different)
          (settled other)
  case linked =>
    intro other record there shared
    obtain ⟨old, before, rfl⟩ := modify_cases _ there
    have same : ∀ coro : Coro, (if cid = other then Coro.finished ret coro else coro).tid =
        coro.tid := fun coro => by split <;> rfl
    have before := tracks.linked other old before ((same old).symm.trans shared)
    cases Decidable.em (cid = other) with
    | inl same => exact if_pos same ▸ spares.linked before rfl rfl rfl rfl
    | inr different => exact if_neg different ▸ spares.linked before rfl rfl rfl rfl

end World

/-! ## Steps -/

/-- A step that was taken. -/
inductive Stepped (world : World) (tid : Nat) : Call → World → List Event → Prop where
  | start : (world.threads tid).doing = .user →
      Stepped world tid .start (world.start tid).1 [.assigned tid world.cinfo.length]
  | launch {cid : Nat} {info : ThreadInfo} {next : World} {more : List Event} :
      (world.threads tid).doing = .starting cid → (world.threads tid).info = some info →
      world.launch tid cid info = some (next, more) → Stepped world tid .launch next more
  | coYield {next : World} {more : List Event} : (world.threads tid).doing = .user →
      world.coYield tid none = some (next, more) → Stepped world tid .coYield next more
  | poll {poll : Poll} : (world.threads tid).doing = .user →
      Stepped world tid (.poll poll) (world.setDoing tid (.checking poll)) []
  | check {poll : Poll} {next : World} {more : List Event} :
      (world.threads tid).doing = .checking poll →
      world.check tid poll = some (next, more) → Stepped world tid .check next more
  | scan {index : Nat} {next : World} {more : List Event} :
      (world.threads tid).doing = .scanning index →
      world.scan tid index = (next, more) → Stepped world tid .scan next more
  | yieldInPoll {poll : Poll} {next : World} {more : List Event} :
      (world.threads tid).doing = .yielding poll →
      world.coYield tid (some poll) = some (next, more) →
      Stepped world tid .yieldInPoll next more
  | finish {cid : Nat} {ret : Int} {next : World} {more : List Event} :
      (world.threads tid).doing = .user → (world.threads tid).executing = some cid →
      world.finish tid cid ret = some (next, more) → Stepped world tid (.finish ret) next more

theorem World.step_cases {world next : World} {tid : Nat} {call : Call} {more : List Event}
    (stepped : world.step (tid, call) = some (next, more)) :
    Stepped world tid call next more := by
  simp only [World.step] at stepped
  split at stepped
  case h_1 user =>
    obtain ⟨_, started⟩ := Option.ite_none_right_eq_some.mp stepped
    cases started
    exact .start user
  case h_2 cid starting =>
    obtain ⟨info, known, launched⟩ := Option.bind_eq_some_iff.mp stepped
    exact .launch starting known launched
  case h_3 user => exact .coYield user stepped
  case h_4 poll user =>
    cases stepped
    exact .poll user
  case h_5 poll checking => exact .check checking stepped
  case h_6 index scanning => exact .scan scanning (Option.some.inj stepped)
  case h_7 poll yielding => exact .yieldInPoll yielding stepped
  case h_8 ret user =>
    obtain ⟨cid, executing, finished⟩ := Option.bind_eq_some_iff.mp stepped
    exact .finish user executing finished
  case h_9 => cases stepped

/-- What a thread is at after it read a status for a poll: back in the code of
the user, in front of its `co_yield`, or in the loop of `co_waitall`. -/
inductive Doing.AfterRead (poll : Poll) : Doing → Prop where
  | user : AfterRead poll .user
  | yielding : AfterRead poll (.yielding poll)
  | scanning (index : Nat) : AfterRead poll (.scanning index)

theorem Doing.AfterRead.idle {poll : Poll} {doing : Doing} (after : doing.AfterRead poll)
    (cid : Nat) : doing ≠ .starting cid := by
  cases after with
  | user => simp
  | yielding => simp
  | scanning index => simp

/-- A step that only reads a status and goes on with its own thread. -/
def World.Reads (world : World) (tid : Nat) (poll : Poll) (next : World) (more : List Event) :
    Prop :=
  ∃ readers doing, next = { world with readers := readers }.setDoing tid doing ∧
    doing.AfterRead poll ∧ ∀ event ∈ more, ∃ owner poll value, event = .result owner poll value

theorem World.check_reads {world next : World} {tid : Nat} {poll : Poll} {more : List Event}
    (checked : world.check tid poll = some (next, more)) : world.Reads tid poll next more := by
  cases poll with
  | getret cid =>
      obtain ⟨coro, _, answer⟩ := Option.map_eq_some_iff.mp checked
      split at answer
      case isTrue =>
        cases answer
        exact ⟨world.readers, _, rfl, .user, by simp⟩
      case isFalse =>
        cases answer
        exact ⟨world.readers, _, rfl, .yielding, by simp⟩
  | wait cid =>
      obtain ⟨coro, _, answer⟩ := Option.map_eq_some_iff.mp checked
      split at answer
      case isTrue =>
        cases answer
        exact ⟨world.readers, _, rfl, .user, by simp⟩
      case isFalse =>
        cases answer
        exact ⟨world.readers, _, rfl, .yielding, by simp⟩
  | waitall =>
      cases checked
      exact ⟨_, _, rfl, .scanning 0, by simp⟩

theorem World.scan_reads {world next : World} {tid index : Nat} {more : List Event}
    (scanned : world.scan tid index = (next, more)) : world.Reads tid .waitall next more := by
  unfold World.scan at scanned
  split at scanned
  case h_1 coro found =>
    split at scanned
    case isTrue =>
      cases scanned
      exact ⟨world.readers, _, rfl, .scanning (index + 1), by simp⟩
    case isFalse =>
      cases scanned
      exact ⟨_, _, rfl, .yielding, by simp⟩
  case h_2 =>
    cases scanned
    exact ⟨_, _, rfl, .user, by simp⟩

end OsPractices.Coroutine
