import OsPractices.Coroutine.Ancestry
import OsPractices.Coroutine.Polls

/-!
# Calls without a fault

Which calls use a bad pointer or index, in every state that is reached without
one: before the first `co_start`, from threads without a coroutine, for any cid.
-/

set_option autoImplicit false

namespace OsPractices.Coroutine

open Library

namespace World

variable {world : World} {tid : Nat}

/-! ## The loops stay inside -/

theorem search_eq {left index : Nat} (inside : left = 0 ∨ index + left ≤ world.cinfo.length) :
    world.search tid left index = .ok ((List.range' index left).find? fun cid =>
      world.cinfo[cid]?.any fun coro => coro.tid = tid ∧ coro.status = .running) := by
  induction left generalizing index with
  | zero => rfl
  | succ left ih =>
      have below : index < world.cinfo.length := by omega
      have found : world.cinfo[index]? = some world.cinfo[index] :=
        List.getElem?_eq_getElem below
      rw [search, arrayGet_of_found found, ok_bind, ih (.inr (by omega)), List.range'_succ]
      split
      case isTrue passes => rw [List.find?_cons_of_pos (by simpa [found] using passes)]
      case isFalse fails => rw [List.find?_cons_of_neg (by simpa [found] using fails)]

/-- The search of `co_yield` indexes `_cinfo` below its length only. -/
theorem yield_eq (world : World) (tid : Nat) (poll : Option Poll) :
    world.yield tid poll = .ok (world.coYield tid poll) := by
  unfold yield coYield getmeta
  cases (world.threads tid).info with
  | none => rfl
  | some info =>
      have inside : world.cinfo.length - lowerBound info.running = 0 ∨
          lowerBound info.running + (world.cinfo.length - lowerBound info.running) ≤
            world.cinfo.length := by omega
      simp only [search_eq inside, ok_bind]
      rfl

/-- So does the loop of `co_waitall`. -/
theorem scanTurn_eq (world : World) (tid index : Nat) :
    world.scanTurn tid index = .ok (world.scan tid index) := by
  unfold scanTurn scan
  cases found : world.cinfo[index]? with
  | none => rw [if_neg (Nat.not_lt.mpr (List.getElem?_eq_none_iff.mp found))]
  | some coro =>
      rw [if_pos (List.getElem?_eq_some_iff.mp found).1, arrayGet_of_found found]
      rfl

/-- The array is read at a valid index exactly. -/
theorem arrayGet_cases (cinfo : List Coro) (index : Int) :
    (0 ≤ index ∧ index < cinfo.length ∧
      ∃ coro, cinfo[index.toNat]? = some coro ∧ arrayGet cinfo index = .ok coro) ∨
    (¬ (0 ≤ index ∧ index < cinfo.length) ∧
      arrayGet cinfo index = .error (.outOfBounds index)) := by
  unfold arrayGet
  cases Decidable.em (index < 0) with
  | inl negative => exact .inr ⟨by omega, if_pos negative⟩
  | inr positive =>
      rw [if_neg positive]
      cases found : cinfo[index.toNat]? with
      | none =>
          have beyond := List.getElem?_eq_none_iff.mp found
          exact .inr ⟨by omega, rfl⟩
      | some coro =>
          have below := (List.getElem?_eq_some_iff.mp found).1
          exact .inl ⟨by omega, by omega, coro, rfl, rfl⟩

theorem status_outside {fuel : Nat} {cid : Int}
    (outside : cid < 0 ∨ (world.cinfo.length : Int) < cid) :
    world.status fuel tid cid = .ok unauthorized := if_pos outside

theorem status_at_length (world : World) (fuel tid : Nat) :
    world.status fuel tid world.cinfo.length = .error (.outOfBounds world.cinfo.length) := by
  unfold status
  rw [if_neg (by omega)]
  cases arrayGet_cases world.cinfo world.cinfo.length with
  | inl inside => exact absurd inside.2.1 (Int.lt_irrefl _)
  | inr outside => rw [outside.2, error_bind]

theorem status_inside (tracked : world.Tracked) (tid : Nat) {cid fuel : Nat} {coro : Coro}
    (found : world.cinfo[cid]? = some coro) (enough : world.cinfo.length < fuel) :
    ∃ status, world.status fuel tid cid = .ok status := by
  have below := (List.getElem?_eq_some_iff.mp found).1
  rw [status_of_found found]
  cases world.getmeta tid with
  | none => exact ⟨_, rfl⟩
  | some info =>
      cases Decidable.em (coro.tid = tid) with
      | inr foreign => exact ⟨unauthorized, by simp [foreign]⟩
      | inl own =>
          simp only [own, if_true]
          cases info.running with
          | none => exact ⟨_, rfl⟩
          | some running =>
              have parents : ∀ (cid : Nat) (coro : Coro), world.cinfo[cid]? = some coro →
                  coro.tid = tid → ∀ parent, (∃ record, world.cinfo[cid]? = some record ∧
                    record.parent = some parent) ↔ coro.parent = some parent :=
                fun cid coro there _ parent => by simp [there]
              obtain ⟨met, walked, _⟩ := walk_above (tracked.tracks tid) parents running
                ⟨coro, found, own⟩ (show cid + 2 ≤ fuel by omega)
              simp only [walked, ok_bind]
              exact ⟨_, rfl⟩

end World

/-! ## Every reachable state -/

namespace Process

variable {process next : Process} {tid : Nat} {outputs : List ProcessOutput}

theorem deref_eq_ok_iff {world : World} :
    process.deref = .ok world ↔ process.scheduler = true ∧ process.world = world := by
  unfold deref
  split
  case isTrue set => simp [set]
  case isFalse unset => simp [unset]

theorem step_eq_some_iff {action : Nat × ProcessAction} :
    process.step action = some (next, outputs) ↔
      process.act action = .ok (some (next, outputs)) := by
  unfold step
  cases process.act action with
  | error fault => simp [Except.toOption]
  | ok result => simp [Except.toOption]

/-- A step leaves the world alone, or is one of the world and leaves the scheduler set. -/
inductive Moved (process : Process) (tid : Nat) (next : Process) : Prop where
  | stayed (same : next.world = process.world) (set : next = process ∨ next.scheduler = true)
  | stepped {call : Call} {more : List Event}
      (stepped : process.world.step (tid, call) = some (next.world, more))
      (asked : ∀ poll, call = .poll poll → poll.Inside process.world.cinfo.length)
      (set : next.scheduler = true)

theorem request_yield (process : Process) (tid : Nat) : process.request tid .yield =
    .ok ((process.world.coYield tid none).map process.init.entered) := by
  change (do
    let next ← process.world.yield tid none
    .ok (next.map process.init.entered)) = _
  rw [World.yield_eq, ok_bind]

theorem request_status (process : Process) (tid : Nat) (cid : Int) :
    process.request tid (.status cid) =
      process.world.status (process.world.cinfo.length + 1) tid cid >>= fun status =>
        .ok (some (process.init, [.value tid (.status cid) status])) := rfl

theorem waitFor_eq (process : Process) (tid : Nat) (cid : Int) (poll : Nat → Poll) :
    process.waitFor tid cid poll = arrayGet process.world.cinfo cid >>= fun _ =>
      .ok (some (process.init.entered
        (process.world.setDoing tid (.checking (poll cid.toNat)), []))) := rfl

theorem polled_moved (user : (process.world.threads tid).doing = .user) {poll : Poll}
    (inside : poll.Inside process.world.cinfo.length) :
    process.Moved tid
      (process.init.entered (process.world.setDoing tid (.checking poll), [])).1 := by
  have polled : process.world.step (tid, .poll poll) =
      some (process.world.setDoing tid (.checking poll), []) := by simp [World.step, user]
  exact .stepped polled (fun _ same => Call.poll.inj same ▸ inside) rfl

theorem waitFor_moved (user : (process.world.threads tid).doing = .user) {cid : Int}
    {poll : Nat → Poll} (inside : ∀ {length cid}, cid < length → (poll cid).Inside length)
    (stepped : process.waitFor tid cid poll = .ok (some (next, outputs))) :
    process.Moved tid next := by
  rw [waitFor_eq] at stepped
  obtain ⟨coro, got, stepped⟩ := bind_eq_ok_iff.mp stepped
  cases stepped
  cases World.arrayGet_cases process.world.cinfo cid with
  | inl valid => exact polled_moved user (inside (by omega))
  | inr invalid => cases got.symm.trans invalid.2

theorem request_moved {request : Request} (user : (process.world.threads tid).doing = .user)
    (stepped : process.request tid request = .ok (some (next, outputs))) :
    process.Moved tid next := by
  cases request with
  | getid =>
      obtain ⟨world, _, stepped⟩ := bind_eq_ok_iff.mp stepped
      obtain ⟨id, _, stepped⟩ := bind_eq_ok_iff.mp stepped
      cases stepped
      exact .stayed rfl (.inl rfl)
  | yield =>
      rw [request_yield, Except.ok.injEq] at stepped
      obtain ⟨⟨world, events⟩, yielded, same⟩ := Option.map_eq_some_iff.mp stepped
      cases same
      have moved : process.world.step (tid, .coYield) = some (world, events) := by
        simpa [World.step, user] using yielded
      exact .stepped moved (by simp) rfl
  | status cid =>
      rw [request_status] at stepped
      obtain ⟨status, _, stepped⟩ := bind_eq_ok_iff.mp stepped
      cases stepped
      exact .stayed rfl (.inr rfl)
  | getret cid => exact waitFor_moved user id stepped
  | wait cid => exact waitFor_moved user id stepped
  | waitall =>
      cases stepped
      exact polled_moved user (show Poll.waitall.Inside _ from trivial)

/-- What holds in every state that is reached without a fault. -/
structure Safe (process : Process) : Prop where
  tracked : process.world.Tracked
  polls : process.world.Polls
  untouched : process.scheduler = false → process.world = World.create

/-- A thread that has called found the scheduler, or made it. -/
theorem Safe.set_of_called (safe : process.Safe) (tid : Nat)
    (called : (process.world.threads tid).info ≠ none ∨
      (process.world.threads tid).doing ≠ .user) : process.scheduler = true := by
  cases set : process.scheduler with
  | true => rfl
  | false => simp [safe.untouched set, World.create] at called

/-- With a scheduler each later piece is one of the world. -/
theorem goOn_eq (set : process.scheduler = true) (tid : Nat) {call : Call}
    (later : call ≠ .coYield ∧ ∀ poll, call ≠ .poll poll) :
    process.goOn tid call = .ok ((process.world.step (tid, call)).map process.entered) := by
  have inited : process.init = process := by simp [init, ← set]
  have there : process.deref = .ok process.world := deref_eq_ok_iff.mpr ⟨set, rfl⟩
  cases call with
  | start => rw [goOn, inited]
  | launch => rfl
  | coYield => exact absurd rfl later.1
  | poll poll => exact absurd rfl (later.2 poll)
  | check =>
      simp only [goOn, there, ok_bind]
      split
      case h_1 => rfl
      case h_2 => rfl
  | scan =>
      simp only [goOn, World.step]
      cases (process.world.threads tid).doing with
      | scanning index =>
          simp only [there, ok_bind, World.scanTurn_eq]
          rfl
      | _ => rfl
  | yieldInPoll =>
      simp only [goOn, World.step]
      cases (process.world.threads tid).doing with
      | yielding poll => simp only [inited, there, ok_bind, World.yield_eq]
      | _ => rfl
  | finish ret =>
      cases executing : (process.world.threads tid).executing with
      | some cid => simp only [goOn, executing, there, ok_bind]
      | none =>
          have refused : process.world.step (tid, .finish ret) = none := by
            cases doing : (process.world.threads tid).doing <;>
              simp [World.step, doing, executing]
          rw [refused]
          simp [goOn, executing]

/-- Before the scheduler is there, a thread can only begin. -/
theorem goOn_untouched (untouched : process.world = World.create) (tid : Nat) {call : Call}
    (later : call ≠ .start) : process.goOn tid call = .ok none := by
  cases call with
  | start => exact absurd rfl later
  | _ => simp [goOn, untouched, World.create, World.step]

theorem goOn_moved (safe : process.Safe) {call : Call}
    (stepped : process.goOn tid call = .ok (some (next, outputs))) : process.Moved tid next := by
  cases Decidable.em (call = .start) with
  | inl starts =>
      subst starts
      obtain ⟨⟨world, events⟩, moved, same⟩ := Option.map_eq_some_iff.mp (Except.ok.inj stepped)
      cases same
      exact .stepped moved (by simp) rfl
  | inr later =>
      cases set : process.scheduler with
      | false =>
          rw [goOn_untouched (safe.untouched set) tid later] at stepped
          cases stepped
      | true =>
          have goes : call ≠ .coYield ∧ ∀ poll, call ≠ .poll poll := by
            constructor
            · intro same
              rw [same] at stepped
              cases stepped
            · intro poll same
              rw [same] at stepped
              cases stepped
          rw [goOn_eq set tid goes] at stepped
          obtain ⟨⟨world, events⟩, moved, same⟩ :=
            Option.map_eq_some_iff.mp (Except.ok.inj stepped)
          cases same
          exact .stepped moved (fun poll same => absurd same (goes.2 poll)) set

theorem step_moved (safe : process.Safe) {action : ProcessAction}
    (stepped : process.step (tid, action) = some (next, outputs)) : process.Moved tid next := by
  have acted := step_eq_some_iff.mp stepped
  cases action with
  | goOn call => exact goOn_moved safe acted
  | call request =>
      cases Decidable.em ((process.world.threads tid).doing = .user) with
      | inl user => exact request_moved user (by simpa [act, user] using acted)
      | inr busy => simp [act, busy] at acted

theorem Safe.moved (safe : process.Safe) (moved : process.Moved tid next) : next.Safe := by
  cases moved with
  | stayed same set =>
      constructor
      case tracked => exact same ▸ safe.tracked
      case polls => exact same ▸ safe.polls
      case untouched =>
        intro unset
        cases set with
        | inl equal => exact equal ▸ safe.untouched (equal ▸ unset)
        | inr set => cases set.symm.trans unset
  | stepped stepped asked set =>
      exact ⟨safe.tracked.moves (safe.tracked.step stepped), safe.polls.step asked stepped,
        fun unset => nomatch set.symm.trans unset⟩

theorem safe_of_run {actions : List (Nat × ProcessAction)}
    (run : Run Process.step (fun _ _ => True) Process.create actions outputs process) :
    process.Safe := by
  induction run with
  | nil => exact ⟨World.create_tracked, World.create_polls, fun _ => rfl⟩
  | @snoc _ _ _ _ _ action _ _ stepped ih =>
      obtain ⟨tid, action⟩ := action
      exact ih.moved (step_moved ih stepped)

/-! ## Which calls are safe -/

/-- What is promised of an id outside any coroutine and of a cid outside `_cinfo`. -/
def Right (process : Process) (tid : Nat) : Request → List ProcessOutput → Prop
  | .getid, outputs =>
      (process.world.threads tid).executing = none → outputs = [.value tid .getid (-1)]
  | .status cid, outputs => cid < 0 ∨ process.world.cinfo.length ≤ cid →
      outputs = [.value tid (.status cid) unauthorized]
  | _, _ => True

/-- The call meets no fault and gives out what is promised. -/
def Answers (process : Process) (tid : Nat) (request : Request) : Prop :=
  ∃ next outputs, process.act (tid, .call request) = .ok (some (next, outputs)) ∧
    process.Right tid request outputs

/-- The thread has called `co_start` before `co_getid`; `co_status` is not asked
for the next cid; `co_wait` and `co_getret` are asked for a cid that was given. -/
def Allows (process : Process) (tid : Nat) : Request → Prop
  | .getid => (process.world.threads tid).info ≠ none
  | .yield => True
  | .status cid => cid ≠ process.world.cinfo.length
  | .getret cid => 0 ≤ cid ∧ cid < process.world.cinfo.length
  | .wait cid => 0 ≤ cid ∧ cid < process.world.cinfo.length
  | .waitall => True

theorem act_call (user : (process.world.threads tid).doing = .user) (request : Request) :
    process.act (tid, .call request) = process.request tid request := if_pos user

theorem getid_answers_iff (safe : process.Safe)
    (user : (process.world.threads tid).doing = .user) :
    process.Answers tid .getid ↔ process.Allows tid .getid := by
  unfold Answers
  rw [act_call user]
  cases known : (process.world.threads tid).info with
  | none =>
      refine iff_of_false ?_ (by simp [Allows, known])
      intro answered
      obtain ⟨next, outputs, answered, _⟩ := answered
      obtain ⟨world, there, answered⟩ := bind_eq_ok_iff.mp answered
      obtain ⟨_, rfl⟩ := deref_eq_ok_iff.mp there
      simp [World.getid, World.getmeta, known] at answered
  | some info =>
      refine iff_of_true ⟨process, [.value tid .getid (idOf info.running)], ?_, ?_⟩
        (by simp [Allows, known])
      · have there := deref_eq_ok_iff.mpr ⟨safe.set_of_called tid (.inl (by simp [known])), rfl⟩
        simp [request, there, World.getid, World.getmeta, known]
      · intro outside
        rw [(safe.tracked.tracks tid).running info known, outside]
        rfl

theorem yield_answers (safe : process.Safe) (user : (process.world.threads tid).doing = .user) :
    process.Answers tid .yield := by
  obtain ⟨world, events, yielded, _⟩ :=
    World.coYield_yielded (safe.tracked.tracks tid) (by simp [user]) none
  have answered : process.act (tid, .call .yield) =
      .ok (some (process.init.entered (world, events))) := by
    rw [act_call user, request_yield, yielded]
    rfl
  exact ⟨_, _, answered, trivial⟩

theorem status_answers_iff (safe : process.Safe)
    (user : (process.world.threads tid).doing = .user) (cid : Int) :
    process.Answers tid (.status cid) ↔ process.Allows tid (.status cid) := by
  unfold Answers
  rw [act_call user, request_status]
  cases Decidable.em (cid = process.world.cinfo.length) with
  | inl last =>
      refine iff_of_false ?_ (fun other => other last)
      intro answered
      obtain ⟨next, outputs, answered, _⟩ := answered
      rw [last, World.status_at_length] at answered
      cases answered
  | inr other =>
      refine iff_of_true ?_ other
      cases World.arrayGet_cases process.world.cinfo cid with
      | inr outside =>
          rw [World.status_outside (by omega)]
          exact ⟨_, _, rfl, fun _ => rfl⟩
      | inl inside =>
          obtain ⟨positive, below, coro, found, _⟩ := inside
          obtain ⟨status, answered⟩ :=
            World.status_inside safe.tracked tid found (Nat.lt_succ_self _)
          rw [Int.toNat_of_nonneg positive] at answered
          rw [answered]
          exact ⟨_, _, rfl, fun beyond => by omega⟩

theorem waitFor_returns_iff {cid : Int} {poll : Nat → Poll} :
    (∃ next outputs, process.waitFor tid cid poll = .ok (some (next, outputs))) ↔
      0 ≤ cid ∧ cid < process.world.cinfo.length := by
  rw [waitFor_eq]
  cases World.arrayGet_cases process.world.cinfo cid with
  | inl inside =>
      obtain ⟨positive, below, coro, _, got⟩ := inside
      rw [got]
      exact iff_of_true ⟨_, _, rfl⟩ ⟨positive, below⟩
  | inr outside =>
      rw [outside.2]
      exact iff_of_false nofun outside.1

theorem answers_iff (safe : process.Safe) (user : (process.world.threads tid).doing = .user)
    (request : Request) : process.Answers tid request ↔ process.Allows tid request := by
  cases request with
  | getid => exact getid_answers_iff safe user
  | yield => exact iff_of_true (yield_answers safe user) trivial
  | status cid => exact status_answers_iff safe user cid
  | getret cid =>
      unfold Answers
      rw [act_call user]
      simp only [Right, and_true]
      exact waitFor_returns_iff
  | wait cid =>
      unfold Answers
      rw [act_call user]
      simp only [Right, and_true]
      exact waitFor_returns_iff
  | waitall =>
      have answered : process.act (tid, .call .waitall) = .ok (some
          (process.init.entered (process.world.setDoing tid (.checking .waitall), []))) :=
        act_call user .waitall
      exact iff_of_true ⟨_, _, answered, trivial⟩ trivial

/-- No later piece of a call meets a fault. -/
theorem Safe.goOn_safe (safe : process.Safe) (tid : Nat) (call : Call) (fault : Fault) :
    process.act (tid, .goOn call) ≠ .error fault := by
  intro failed
  have failed : process.goOn tid call = .error fault := failed
  cases call with
  | start => cases failed
  | coYield => cases failed
  | poll poll => cases failed
  | _ =>
      cases set : process.scheduler with
      | true =>
          rw [goOn_eq set tid (by simp)] at failed
          cases failed
      | false =>
          rw [goOn_untouched (safe.untouched set) tid (by simp)] at failed
          cases failed

/-- A call that has begun goes on. -/
theorem piece_goes_on (safe : process.Safe) {call : Call}
    (due : (process.world.threads tid).doing.piece = some call) :
    ∃ next outputs, process.act (tid, .goOn call) = .ok (some (next, outputs)) := by
  obtain ⟨world, events, stepped⟩ :=
    World.piece_steps (safe.tracked.tracks tid) safe.polls due
  obtain ⟨busy, later⟩ := Doing.piece_later due
  have goes := goOn_eq (safe.set_of_called tid (.inr busy)) tid later
  rw [stepped] at goes
  exact ⟨_, _, goes⟩

end Process

/-- In every state that is reached without a fault: a call that has begun goes on,
no piece of one meets a fault, and a new call is safe exactly when it is allowed. -/
theorem calls_safe_iff {actions : List (Nat × ProcessAction)} {outputs : List ProcessOutput}
    {process : Process}
    (run : Run Process.step (fun _ _ => True) Process.create actions outputs process) (tid : Nat) :
    (∀ call fault, process.act (tid, .goOn call) ≠ .error fault) ∧
    (∀ call, (process.world.threads tid).doing.piece = some call →
      ∃ next outputs, process.act (tid, .goOn call) = .ok (some (next, outputs))) ∧
    ((process.world.threads tid).doing = .user →
      ∀ request, process.Answers tid request ↔ process.Allows tid request) := by
  have safe := Process.safe_of_run run
  exact ⟨safe.goOn_safe tid, fun call due => Process.piece_goes_on safe due,
    fun user request => Process.answers_iff safe user request⟩

/-- Thread 0 runs a coroutine and thread 1 has none. -/
theorem calls_safe_iff_two_threads : ∃ outputs process,
    Run Process.step (fun _ _ => True) Process.create
      [(0, .goOn .start), (0, .goOn .launch)] outputs process ∧
    process.Answers 0 .getid ∧ process.Answers 1 .yield ∧ ¬ process.Answers 1 .getid ∧
    process.Answers 1 (.wait 0) ∧ ¬ process.Answers 1 (.getret (-1)) := by
  obtain ⟨outputs, process, run, first, second, info, length⟩ : ∃ outputs process,
      Run Process.step (fun _ _ => True) Process.create
        [(0, .goOn .start), (0, .goOn .launch)] outputs process ∧
      (process.world.threads 0).doing = .user ∧ (process.world.threads 1).doing = .user ∧
      ((process.world.threads 0).info ≠ none ∧ (process.world.threads 1).info = none) ∧
      process.world.cinfo.length = 1 :=
    ⟨_, _, Run.of_exec rfl, rfl, rfl, ⟨nofun, rfl⟩, rfl⟩
  have own := (calls_safe_iff run 0).2.2 first
  have other := (calls_safe_iff run 1).2.2 second
  exact ⟨outputs, process, run, (own .getid).mpr info.1, (other .yield).mpr trivial,
    fun answers => (other .getid).mp answers info.2,
    (other (.wait 0)).mpr ⟨Int.le_refl 0, by simp [length]⟩,
    fun answers => absurd ((other (.getret (-1))).mp answers).1 (by decide)⟩

/-- With one coroutine, `co_status(1)` reads behind the end of the array; before
the first `co_start`, `co_getid` uses the scheduler that is not there. -/
theorem status_reads_behind : ∃ outputs process,
    Run Process.step (fun _ _ => True) Process.create
      [(0, .goOn .start), (0, .goOn .launch)] outputs process ∧
    process.act (0, .call (.status 1)) = .error (.outOfBounds 1) ∧
    ¬ process.Answers 0 (.status 1) ∧
    Process.create.act (0, .call .getid) = .error .noScheduler ∧
    ¬ Process.create.Answers 0 .getid := by
  have fails : ∀ {process : Process} {tid : Nat} {request : Request} {fault : Fault},
      process.act (tid, .call request) = .error fault → ¬ process.Answers tid request := by
    intro process tid request fault failed answers
    obtain ⟨next, outputs, answered, _⟩ := answers
    cases failed.symm.trans answered
  obtain ⟨outputs, process, run, failed⟩ : ∃ outputs process,
      Run Process.step (fun _ _ => True) Process.create
        [(0, .goOn .start), (0, .goOn .launch)] outputs process ∧
      process.act (0, .call (.status 1)) = .error (.outOfBounds 1) :=
    ⟨_, _, Run.of_exec rfl, rfl⟩
  exact ⟨outputs, process, run, failed, fails failed, rfl, fails rfl⟩

end OsPractices.Coroutine
