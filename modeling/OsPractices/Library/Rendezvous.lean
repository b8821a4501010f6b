import Mathlib.Data.Fintype.Card
import OsPractices.Library.Progress

/-!
# Threads that meet at a barrier

Programs whose threads all meet once at the barrier, before they print. Nothing is
printed before each of them has arrived, and none is left behind at the barrier.
-/

set_option autoImplicit false

namespace OsPractices.Library

variable {Thread Text : Type} {program : Thread → Code Thread Text} {main : Thread}
  {machine next : Machine Thread Text} {choice : Choice Thread} {output : Output Thread Text}

def Status.isParked : Status Thread Text → Bool
  | .parked _ => true
  | _ => false

@[simp] theorem isParked_running (code : Code Thread Text) :
    (Status.running code).isParked = false := rfl

@[simp] theorem isParked_absent : (Status.absent : Status Thread Text).isParked = false := rfl

@[simp] theorem isParked_parked (code : Code Thread Text) :
    (Status.parked code).isParked = true := rfl

theorem isParked_rouse (status : Status Thread Text) : status.rouse.isParked = status.isParked := by
  cases status <;> rfl

def Machine.parked [Fintype Thread] (machine : Machine Thread Text) : Finset Thread :=
  Finset.univ.filter fun thread => (machine.status thread).isParked = true

@[simp] theorem mem_parked [Fintype Thread] {machine : Machine Thread Text} {thread : Thread} :
    thread ∈ machine.parked ↔ (machine.status thread).isParked = true := by
  simp [Machine.parked]

theorem parked_congr [Fintype Thread] (same : ∀ other,
    (next.status other).isParked = (machine.status other).isParked) :
    next.parked = machine.parked := by
  unfold Machine.parked
  exact Finset.filter_congr fun other _ => by rw [same]

variable [DecidableEq Thread]

/-! ## What a step does to the barrier -/

/-- What a thread that moves on does to the barrier. -/
inductive Gate (program : Thread → Code Thread Text) (machine next : Machine Thread Text)
    (thread : Thread) : Prop where
  | arrives {code : Code Thread Text} : machine.status thread = .running (.arrive :: code) →
      machine.waiting + 1 ≠ machine.barrier → next.status = (machine.set thread (.parked code)).status →
      next.waiting = machine.waiting + 1 → next.barrier = machine.barrier →
      Gate program machine next thread
  | opens {code : Code Thread Text} : machine.status thread = .running (.arrive :: code) →
      machine.waiting + 1 = machine.barrier →
      (next.status = fun other => ((machine.set thread (.running code)).status other).release) →
      next.barrier = machine.barrier → Gate program machine next thread
  | sets {count : Nat} {code : Code Thread Text} :
      machine.status thread = .running (.initBarrier count :: code) →
      next.status = (machine.set thread (.running code)).status →
      next.waiting = machine.waiting → next.barrier = count → Gate program machine next thread
  | keeps : (machine.status thread).isParked = false →
      (next.left program thread = machine.left program thread ∨
        ∃ instr, instr ≠ .arrive ∧ (∀ count, instr ≠ .initBarrier count) ∧
          machine.left program thread = instr :: next.left program thread) →
      (∀ other, (next.status other).isParked = (machine.status other).isParked) →
      next.waiting = machine.waiting → next.barrier = machine.barrier →
      Gate program machine next thread

theorem isParked_set {thread : Thread} {status : Status Thread Text}
    (same : status.isParked = (machine.status thread).isParked) (other : Thread) :
    ((machine.set thread status).status other).isParked = (machine.status other).isParked := by
  by_cases own : other = thread
  · subst own
    rw [Machine.set_status_self, same]
  · rw [Machine.set_status_of_ne _ _ own]

theorem Effect.gate (valid : machine.Valid program)
    (effect : Effect program machine choice next output) :
    ∃ thread, Gate program machine next thread ∧
      ∀ other, other ≠ thread → next.left program other = machine.left program other := by
  -- a thread that does another instruction
  have goes {thread : Thread} {instr : Instr Thread Text} {code : Code Thread Text}
      (at_ : machine.status thread = .running (instr :: code))
      (other : instr ≠ .arrive ∧ ∀ count, instr ≠ .initBarrier count)
      (spreads : Spreads program machine thread (.running code) next.status)
      (parked : ∀ other, (next.status other).isParked = (machine.status other).isParked)
      (waiting : next.waiting = machine.waiting) (barrier : next.barrier = machine.barrier) :
      Gate program machine next thread ∧
        ∀ other, other ≠ thread → next.left program other = machine.left program other := by
    obtain ⟨own, others⟩ := spreads.left valid
    refine ⟨.keeps (by rw [at_]; rfl) (.inr ⟨instr, other.1, other.2, ?_⟩) parked waiting barrier,
      others⟩
    rw [own, left_of_status at_]
    rfl
  have alone {thread : Thread} {instr : Instr Thread Text} {code : Code Thread Text}
      (at_ : machine.status thread = .running (instr :: code)) :
      ∀ other, ((machine.set thread (.running code)).status other).isParked =
        (machine.status other).isParked := isParked_set (by rw [at_]; rfl)
  -- a thread that stays where it is in its code
  have still {thread : Thread} (status : Status Thread Text)
      (same : status.left (program thread) = machine.left program thread)
      (other : ∀ child code, machine.status thread ≠ .running (.create child :: code))
      (notParked : (machine.status thread).isParked = false) (notParked' : status.isParked = false)
      (isStatus : next.status = (machine.set thread status).status)
      (waiting : next.waiting = machine.waiting) (barrier : next.barrier = machine.barrier) :
      Gate program machine next thread ∧
        ∀ other, other ≠ thread → next.left program other = machine.left program other := by
    have spreads : Spreads program machine thread status next.status := isStatus ▸ .alone other
    obtain ⟨own, others⟩ := spreads.left valid
    refine ⟨.keeps notParked (.inl ?_) (fun other => ?_) waiting barrier, others⟩
    · rw [own, same]
    · rw [isStatus]
      exact isParked_set (notParked'.trans notParked.symm) other
  cases effect with
  | @park thread code at_ more =>
      exact ⟨thread, .arrives at_ more rfl rfl rfl, fun other apart =>
        congrArg (Status.left (program other)) (Machine.set_status_of_ne _ _ apart)⟩
  | @full thread code at_ last =>
      refine ⟨thread, .opens at_ last rfl rfl, fun other apart => ?_⟩
      unfold Machine.left
      dsimp only
      rw [left_release, Function.update_of_ne apart]
  | @initBarrier thread code count at_ =>
      exact ⟨thread, .sets at_ rfl rfl rfl, fun other apart =>
        congrArg (Status.left (program other)) (Machine.set_status_of_ne _ _ apart)⟩
  | relock at_ _ =>
      exact ⟨_, still (.running _) (left_of_status at_).symm (by simp [at_]) (by rw [at_]; rfl) rfl
        rfl rfl rfl⟩
  | sleep at_ _ =>
      exact ⟨_, still (.asleep _) (left_of_status at_).symm (by simp [at_]) (by rw [at_]; rfl) rfl
        rfl rfl rfl⟩
  | wake at_ =>
      exact ⟨_, still (.woken _) (left_of_status at_).symm (by simp [at_]) (by rw [at_]; rfl) rfl
        rfl rfl rfl⟩
  | broadcast at_ =>
      exact ⟨_, goes at_ (by simp) (.rouse at_ rfl)
        (fun other => (isParked_rouse _).trans (alone at_ other)) rfl rfl⟩
  | @create thread child code at_ =>
      refine ⟨thread, goes at_ (by simp) (.create at_ rfl) (fun other => ?_) rfl rfl⟩
      have new := valid.absent_of_create at_
      by_cases same : other = child
      · subst same
        rw [Machine.set_status_self, new]
        rfl
      · rw [Machine.set_status_of_ne _ _ same]
        exact alone at_ other
  | print at_ => exact ⟨_, goes at_ (by simp) (.alone (by simp [at_])) (alone at_) rfl rfl⟩
  | lock at_ _ => exact ⟨_, goes at_ (by simp) (.alone (by simp [at_])) (alone at_) rfl rfl⟩
  | unlock at_ => exact ⟨_, goes at_ (by simp) (.alone (by simp [at_])) (alone at_) rfl rfl⟩
  | initMutex at_ => exact ⟨_, goes at_ (by simp) (.alone (by simp [at_])) (alone at_) rfl rfl⟩
  | pass at_ _ => exact ⟨_, goes at_ (by simp) (.alone (by simp [at_])) (alone at_) rfl rfl⟩
  | raise at_ => exact ⟨_, goes at_ (by simp) (.alone (by simp [at_])) (alone at_) rfl rfl⟩
  | initCond at_ => exact ⟨_, goes at_ (by simp) (.alone (by simp [at_])) (alone at_) rfl rfl⟩
  | join at_ _ => exact ⟨_, goes at_ (by simp) (.alone (by simp [at_])) (alone at_) rfl rfl⟩

/-- Every thread has met the others. -/
def Machine.Met (program : Thread → Code Thread Text) (machine : Machine Thread Text) : Prop :=
  ∀ thread, (machine.status thread).isParked = false ∧ .arrive ∉ machine.left program thread

theorem Effect.met (valid : machine.Valid program)
    (effect : Effect program machine choice next output) (met : machine.Met program) :
    next.Met program := by
  have gone (thread : Thread) : .arrive ∉ next.left program thread := fun inside =>
    (met thread).2 ((effect.left_suffix valid thread).mem inside)
  have notHere {thread : Thread} {code : Code Thread Text}
      (at_ : machine.status thread = .running (.arrive :: code)) : False := by
    refine (met thread).2 ?_
    rw [left_of_status at_]
    exact List.mem_cons_self
  obtain ⟨thread, gate, _⟩ := effect.gate valid
  refine fun other => ⟨?_, gone other⟩
  cases gate with
  | arrives at_ => exact (notHere at_).elim
  | opens at_ => exact (notHere at_).elim
  | sets at_ isStatus =>
      rw [isStatus, isParked_set (by rw [at_]; rfl)]
      exact (met other).1
  | keeps _ _ parked => rw [parked, (met other).1]

/-! ## Meetings -/

variable [Fintype Thread]

/-- All threads meet at the barrier, which the main thread has set up before it has
created the others. The main thread alone waits for the end of others. -/
structure Meeting (program : Thread → Code Thread Text) (main : Thread) : Prop where
  disciplined : Disciplined program main
  meets : ∀ thread, .arrive ∈ program thread
  later : ∀ thread rest, .arrive :: rest <:+ program thread → .arrive ∉ rest ∧ creates rest = []
  silent : ∀ thread text rest, .print text :: rest <:+ program thread → .arrive ∉ rest
  begins : ∃ rest, program main = .initBarrier (Fintype.card Thread) :: rest
  sets : ∀ thread count rest, .initBarrier count :: rest <:+ program thread →
    count = Fintype.card Thread
  children : ∀ thread, thread ≠ main → thread ∈ creates (program main)
  joins : ∀ thread other rest, .join other :: rest <:+ program thread →
    thread = main ∧ other ≠ main ∧ .arrive ∉ rest ∧ creates rest = []
  awake : ∀ thread, .await ∉ program thread

/-- The threads are on their way to the barrier, or wait there. -/
structure Machine.Gathering (program : Thread → Code Thread Text)
    (machine : Machine Thread Text) : Prop where
  here : ∀ thread, (machine.status thread).isParked = true ∨ .arrive ∈ machine.left program thread
  count : machine.waiting = machine.parked.card
  few : machine.waiting < Fintype.card Thread

/-- What holds in every state of a meeting. -/
structure Machine.Meets (program : Thread → Code Thread Text) (main : Thread)
    (machine : Machine Thread Text) : Prop where
  barrier : machine.barrier = Fintype.card Thread ∨ machine.left program main = program main
  spawning : machine.Spawning program main
  phase : machine.Gathering program ∨ machine.Met program

/-- A thread that arrives finds the barrier set up. -/
theorem Machine.Meets.barrier_of_arrive (meeting : Meeting program main)
    (valid : machine.Valid program) (meets : machine.Meets program main) {thread : Thread}
    {code : Code Thread Text} (at_ : machine.status thread = .running (.arrive :: code)) :
    machine.barrier = Fintype.card Thread := by
  rcases meets.barrier with set | whole
  · exact set
  · by_cases isMain : thread = main
    · subst isMain
      obtain ⟨rest, begins⟩ := meeting.begins
      have same : (Status.running (.arrive :: code)).left (program thread) =
          .initBarrier (Fintype.card Thread) :: rest :=
        (left_of_status at_).symm.trans (whole.trans begins)
      simp [Status.left] at same
    · have member : thread ∈ creates (machine.left program main) := by
        rw [whole]
        exact meeting.children thread isMain
      rw [valid.absent main thread member] at at_
      cases at_

/-- The last thread that arrives opens the barrier for all. -/
theorem Machine.Gathering.opens (meeting : Meeting program main) (valid : machine.Valid program)
    (gathering : machine.Gathering program) (full : machine.barrier = Fintype.card Thread)
    {thread : Thread} {code : Code Thread Text}
    (at_ : machine.status thread = .running (.arrive :: code))
    (last : machine.waiting + 1 = machine.barrier)
    (isStatus : next.status = fun other =>
      ((machine.set thread (.running code)).status other).release) : next.Met program := by
  have absent : thread ∉ machine.parked := by simp [at_]
  have all : insert thread machine.parked = Finset.univ := by
    rw [← Finset.card_eq_iff_eq_univ, Finset.card_insert_of_notMem absent, ← gathering.count, last,
      full]
  intro other
  unfold Machine.left
  rw [isStatus]
  dsimp only
  by_cases same : other = thread
  · subst same
    rw [Machine.set_status_self]
    have own := (valid.placed other).suffix
    rw [at_] at own
    exact ⟨rfl, (meeting.later other code own).1⟩
  · have isHere : other ∈ machine.parked :=
      (Finset.mem_insert.mp (all ▸ Finset.mem_univ other)).resolve_left same
    rw [mem_parked] at isHere
    rw [Machine.set_status_of_ne _ _ same]
    cases there : machine.status other with
    | parked rest =>
        exact ⟨rfl, (meeting.later other rest ((valid.placed other).parked rest there)).1⟩
    | _ => simp [there, Status.isParked] at isHere

omit [DecidableEq Thread] in
/-- A thread that moves on but not past the barrier is as near to it as before. -/
theorem Machine.Gathering.keeps (gathering : machine.Gathering program) {thread : Thread}
    (notParked : (machine.status thread).isParked = false)
    (own : .arrive ∈ machine.left program thread → .arrive ∈ next.left program thread)
    (others : ∀ other, other ≠ thread → next.left program other = machine.left program other)
    (parked : ∀ other, (next.status other).isParked = (machine.status other).isParked)
    (waiting : next.waiting = machine.waiting) : next.Gathering program where
  here other := by
    by_cases same : other = thread
    · subst same
      exact .inr (own ((gathering.here other).resolve_left (by simp [notParked])))
    · rw [parked, others other same]
      exact gathering.here other
  count := by rw [waiting, gathering.count, parked_congr parked]
  few := waiting ▸ gathering.few

/-- A step of threads that gather. -/
theorem Effect.gathering (meeting : Meeting program main) (valid : machine.Valid program)
    (meets : machine.Meets program main) (effect : Effect program machine choice next output)
    (gathering : machine.Gathering program) : next.Gathering program ∨ next.Met program := by
  obtain ⟨thread, gate, others⟩ := effect.gate valid
  cases gate with
  | @arrives code at_ more isStatus waiting barrier =>
      have full := meets.barrier_of_arrive meeting valid at_
      have few := gathering.few
      have absent : thread ∉ machine.parked := by simp [at_]
      have parked : next.parked = insert thread machine.parked := by
        ext other
        rw [Finset.mem_insert, mem_parked, mem_parked, isStatus]
        by_cases same : other = thread
        · subst same
          simp
        · simp [same]
      refine .inl ⟨fun other => ?_, ?_, by omega⟩
      · by_cases same : other = thread
        · subst same
          rw [isStatus, Machine.set_status_self]
          exact .inl rfl
        · rw [others other same, isStatus, Machine.set_status_of_ne _ _ same]
          exact gathering.here other
      · rw [waiting, gathering.count, parked, Finset.card_insert_of_notMem absent]
  | opens at_ last isStatus _ =>
      have full := meets.barrier_of_arrive meeting valid at_
      exact .inr (gathering.opens meeting valid full at_ last isStatus)
  | sets at_ isStatus waiting _ =>
      refine .inl (gathering.keeps (by rw [at_]; rfl) (fun inside => ?_) others (fun other => ?_)
        waiting)
      · rw [left_of_status at_] at inside
        unfold Machine.left
        rw [isStatus, Machine.set_status_self]
        exact (List.mem_cons.mp inside).resolve_left (by simp)
      · rw [isStatus, isParked_set (by rw [at_]; rfl)]
  | keeps notParked left parked waiting _ =>
      refine .inl (gathering.keeps notParked (fun inside => ?_) others parked waiting)
      rcases left with still | ⟨instr, notArrive, _, cons⟩
      · exact still ▸ inside
      · rw [cons] at inside
        exact (List.mem_cons.mp inside).resolve_left notArrive.symm

theorem Effect.meets (meeting : Meeting program main) (valid : machine.Valid program)
    (effect : Effect program machine choice next output) (meets : machine.Meets program main) :
    next.Meets program main := by
  refine ⟨?_, effect.spawning valid meets.spawning,
    meets.phase.elim (effect.gathering meeting valid meets) fun met => .inr (effect.met valid met)⟩
  obtain ⟨thread, gate, others⟩ := effect.gate valid
  obtain ⟨rest, begins⟩ := meeting.begins
  have still (barrier : next.barrier = machine.barrier)
      (left : machine.left program main = program main →
        next.left program main = machine.left program main) :
      next.barrier = Fintype.card Thread ∨ next.left program main = program main := by
    rcases meets.barrier with set | whole
    · exact .inl (barrier.trans set)
    · exact .inr ((left whole).trans whole)
  cases gate with
  | arrives at_ _ _ _ barrier => exact .inl (barrier.trans (meets.barrier_of_arrive meeting valid at_))
  | opens at_ _ _ barrier => exact .inl (barrier.trans (meets.barrier_of_arrive meeting valid at_))
  | @sets count code at_ _ _ barrier =>
      have own := (valid.placed thread).suffix
      rw [at_] at own
      exact .inl (barrier.trans (meeting.sets thread count code own))
  | keeps _ left _ _ barrier =>
      refine still barrier fun whole => ?_
      by_cases isMain : main = thread
      · subst isMain
        rcases left with same | ⟨instr, _, notInit, cons⟩
        · exact same
        · rw [whole, begins] at cons
          exact absurd (List.cons.inj cons).1.symm (notInit _)
      · exact others main isMain

theorem meets_initial (meeting : Meeting program main) :
    (Machine.initial program main).Meets program main := by
  have none : (Machine.initial program main).parked = ∅ := by
    ext thread
    by_cases same : thread = main
    · simp [same]
    · simp [same]
  refine ⟨.inr (left_initial main), spawning_initial meeting.children,
    .inl ⟨fun thread => ?_, ?_, Fintype.card_pos_iff.mpr ⟨main⟩⟩⟩
  · rw [left_initial]
    exact .inr (meeting.meets thread)
  · rw [none]
    rfl

/-- What is printed is printed after all threads have met. -/
theorem Effect.met_of_output (meeting : Meeting program main) (valid : machine.Valid program)
    (meets : machine.Meets program main) (effect : Effect program machine choice next output)
    (printed : output ≠ []) : machine.Met program := by
  obtain ⟨thread, text, code, at_⟩ := effect.print_of_output printed
  rcases meets.phase with gathering | met
  · have own := (valid.placed thread).suffix
    have here := (gathering.here thread).resolve_left (by simp [at_])
    rw [at_] at own
    rw [left_of_status at_] at here
    exact absurd ((List.mem_cons.mp here).resolve_left (by simp))
      (meeting.silent thread text code own)
  · exact met

/-- The runs of a meeting: what holds in every state that they reach. -/
theorem meeting_run (meeting : Meeting program main) {choices : List (Choice Thread)}
    (session : Session program main choices output machine) :
    machine.Valid program ∧ machine.Meets program main ∧ (output ≠ [] → machine.Met program) := by
  induction session with
  | nil =>
      exact ⟨valid_initial meeting.disciplined, meets_initial meeting,
        fun printed => absurd rfl printed⟩
  | @snoc choices outputs more machine next choice before steady stepped ih =>
      obtain ⟨valid, meets, met⟩ := ih
      have effect := effect_of_step stepped
      refine ⟨effect.valid meeting.disciplined valid steady, effect.meets meeting valid meets,
        fun printed => effect.met valid ?_⟩
      by_cases earlier : outputs = []
      · rw [earlier, List.nil_append] at printed
        exact effect.met_of_output meeting valid meets printed
      · exact met earlier

omit [DecidableEq Thread] in
/-- Where a thread of a meeting can be stuck. -/
theorem blocked_of_meeting (meeting : Meeting program main) (valid : machine.Valid program)
    {thread : Thread} (blocked : Blocked machine thread) :
    machine.status thread = .absent ∨ machine.status thread = .running [] ∨
      (∃ code, machine.status thread = .parked code) ∨
      ∃ other code, machine.status thread = .running (.join other :: code) ∧
        (machine.status other).finished = false ∧ thread = main ∧ other ≠ main ∧
        .arrive ∉ code ∧ creates code = [] := by
  have own := (valid.placed thread).suffix
  cases blocked with
  | absent at_ => exact .inl at_
  | ended at_ => exact .inr (.inl at_)
  | parked at_ => exact .inr (.inr (.inl ⟨_, at_⟩))
  | asleep at_ => exact absurd at_ (valid.not_asleep (meeting.awake thread) _)
  | joins at_ running =>
      rw [at_] at own
      exact .inr (.inr (.inr ⟨_, _, at_, running, meeting.joins thread _ _ own⟩))

/-- While the threads gather, one of them can go on: the last opens the barrier. -/
theorem Machine.Gathering.not_atRest (meeting : Meeting program main)
    (valid : machine.Valid program) (meets : machine.Meets program main)
    (gathering : machine.Gathering program) : ¬ machine.AtRest program := by
  intro atRest
  obtain ⟨_, blocked⟩ := blocked_of_atRest meeting.disciplined valid atRest
  have stuck (thread : Thread) := blocked_of_meeting meeting valid (blocked thread)
  have notEnded {thread : Thread} (ended : machine.status thread = .running []) : False := by
    have here := (gathering.here thread).resolve_left (by simp [ended])
    rw [left_of_status ended] at here
    exact absurd here List.not_mem_nil
  have mainParked : ∃ code, machine.status main = .parked code := by
    rcases stuck main with absent | ended | parked | ⟨_, code, at_, _, _, _, gone, _⟩
    · exact absurd absent meets.spawning.started
    · exact (notEnded ended).elim
    · exact parked
    · have here := (gathering.here main).resolve_left (by simp [at_])
      rw [left_of_status at_] at here
      exact absurd ((List.mem_cons.mp here).resolve_left (by simp)) gone
  obtain ⟨code, at_⟩ := mainParked
  -- the main thread has created the others, and so these are parked as well
  have none : creates (machine.left program main) = [] := by
    rw [left_of_status at_]
    exact (meeting.later main code ((valid.placed main).parked code at_)).2
  have all : machine.parked = Finset.univ := by
    ext thread
    simp only [mem_parked, Finset.mem_univ, iff_true]
    rcases stuck thread with absent | ended | ⟨code, parked⟩ | ⟨_, _, _, _, isMain, _⟩
    · by_cases isMain : thread = main
      · exact absurd (isMain ▸ absent) meets.spawning.started
      · have pending := meets.spawning.pending thread isMain absent
        rw [none] at pending
        exact absurd pending List.not_mem_nil
    · exact (notEnded ended).elim
    · rw [parked]
      rfl
    · rw [isMain, at_]
      rfl
  have count := gathering.count
  rw [all, Finset.card_univ] at count
  exact absurd gathering.few (by omega)

/-- A meeting comes to rest only when every thread has ended. -/
theorem meeting_ends (meeting : Meeting program main) (valid : machine.Valid program)
    (meets : machine.Meets program main) (atRest : machine.AtRest program) (thread : Thread) :
    machine.status thread = .running [] := by
  obtain ⟨_, blocked⟩ := blocked_of_atRest meeting.disciplined valid atRest
  have stuck (thread : Thread) := blocked_of_meeting meeting valid (blocked thread)
  have met := meets.phase.resolve_left fun gathering =>
    gathering.not_atRest meeting valid meets atRest
  have notParked (thread : Thread) : ¬ ∃ code, machine.status thread = .parked code := by
    rintro ⟨code, parked⟩
    have free := (met thread).1
    rw [parked] at free
    cases free
  refine meets.spawning.ended ?_ (fun thread apart => ?_) thread
  · rcases stuck main with absent | ended | parked | ⟨other, code, at_, running, _, apart, _, none⟩
    · exact absurd absent meets.spawning.started
    · exact .inl ended
    · exact absurd parked (notParked main)
    · exact .inr ⟨other, code, at_, running, apart, none⟩
  · rcases stuck thread with absent | ended | parked | ⟨_, _, _, _, isMain, _⟩
    · exact .inl absent
    · exact .inr ended
    · exact absurd parked (notParked thread)
    · exact absurd isMain apart

end OsPractices.Library
