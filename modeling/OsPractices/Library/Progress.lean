import Mathlib.Algebra.BigOperators.Group.Finset.Basic
import Mathlib.Algebra.Order.BigOperators.Group.Finset
import Mathlib.Algebra.Ring.Nat
import Mathlib.Tactic.Ring
import OsPractices.Library.Sections

/-!
# Progress of threads

The thread that holds the mutex can act, so that a program can only come to rest
where each thread has ended or waits for the barrier, the condition or the end of
another thread. A run takes a bounded number of steps, not counting the times at
which a thread is woken for no reason and goes back to sleep.
-/

set_option autoImplicit false

namespace OsPractices.Library

variable {Thread Text : Type} {program : Thread → Code Thread Text} {main : Thread}
  {machine next : Machine Thread Text}

/-! ## The steps that are left -/

section Weights

variable [Fintype Thread]

/-- The steps that an instruction allows for. A thread that is woken by a broadcast
has to take the mutex again. -/
def Instr.cost : Instr Thread Text → Nat
  | .broadcast => 1 + 2 * Fintype.card Thread
  | _ => 1

def cost (code : Code Thread Text) : Nat := (code.map Instr.cost).sum

def Status.weight (program : Code Thread Text) : Status Thread Text → Nat
  | .absent => cost program + 1
  | .running code | .parked code => cost code + 1
  | .asleep code => cost code
  | .woken code => cost code + 2

/-- The steps that are left, or more. -/
def Machine.rank (program : Thread → Code Thread Text) (machine : Machine Thread Text) : Nat :=
  ∑ thread, (machine.status thread).weight (program thread)

theorem weight_release (program : Code Thread Text) (status : Status Thread Text) :
    status.release.weight program = status.weight program := by
  cases status <;> rfl

theorem weight_rouse (program : Code Thread Text) (status : Status Thread Text) :
    status.rouse.weight program ≤ status.weight program + 2 := by
  cases status <;> simp [Status.rouse, Status.weight]

theorem cost_cons (instr : Instr Thread Text) (code : Code Thread Text) :
    cost (instr :: code) = instr.cost + cost code := List.sum_cons

theorem one_le_cost (instr : Instr Thread Text) : 1 ≤ instr.cost := by
  cases instr <;> simp [Instr.cost]

/-- The weight of the thread that moves falls, unless it is woken. -/
theorem Moves.weight_lt {thread : Thread} {status : Status Thread Text}
    (moves : Moves machine thread status) (acts : ¬ ∃ code, status = .woken code) :
    status.weight (program thread) < (machine.status thread).weight (program thread) := by
  cases moves with
  | @goes instr code at_ =>
      have least := one_le_cost instr
      simp only [at_, Status.weight, cost_cons]
      omega
  | parks at_ => simp [at_, Status.weight, cost_cons, Instr.cost]
  | sleeps at_ => simp [at_, Status.weight]
  | wakes at_ => exact absurd ⟨_, rfl⟩ acts
  | relocks at_ => simp [at_, Status.weight]

theorem Moves.weight_woken {thread : Thread} {code : Code Thread Text}
    (moves : Moves machine thread (.woken code)) : Status.weight (program thread) (.woken code) =
      (machine.status thread).weight (program thread) + 2 := by
  cases moves with
  | wakes at_ => rw [at_]; rfl

end Weights

/-! ## Where threads are stuck -/

/-- Why a thread cannot act. -/
inductive Blocked (machine : Machine Thread Text) (thread : Thread) : Prop where
  | absent : machine.status thread = .absent → Blocked machine thread
  | ended : machine.status thread = .running [] → Blocked machine thread
  | parked {code : Code Thread Text} : machine.status thread = .parked code →
      Blocked machine thread
  | asleep {code : Code Thread Text} : machine.status thread = .asleep code →
      Blocked machine thread
  | joins {other : Thread} {code : Code Thread Text} :
      machine.status thread = .running (.join other :: code) →
      (machine.status other).finished = false → Blocked machine thread

/-- A thread that neither meets others nor sleeps waits at most for the end of others. -/
theorem Blocked.joins_of_awake (valid : machine.Valid program) {thread : Thread}
    (blocked : Blocked machine thread) (unparked : .arrive ∉ program thread)
    (joins : ∀ other rest, .join other :: rest <:+ program thread →
      thread = main ∧ other ≠ main ∧ creates rest = [])
    (awake : ∀ code, machine.status thread ≠ .asleep code) :
    machine.status thread = .absent ∨ machine.status thread = .running [] ∨
      ∃ other code, machine.status thread = .running (.join other :: code) ∧
        (machine.status other).finished = false ∧ thread = main ∧ other ≠ main ∧
        creates code = [] := by
  cases blocked with
  | absent at_ => exact .inl at_
  | ended at_ => exact .inr (.inl at_)
  | parked at_ =>
      have arrived := (valid.placed thread).parked _ at_
      exact absurd (arrived.mem List.mem_cons_self) unparked
  | asleep at_ => exact absurd at_ (awake _)
  | joins at_ running =>
      have suffix := (valid.placed thread).suffix
      rw [at_] at suffix
      exact .inr (.inr ⟨_, _, at_, running, joins _ _ suffix⟩)

/-- The main thread is stuck at no more than the end of another one. -/
def Machine.Joins (main : Thread) (machine : Machine Thread Text) : Prop :=
  machine.status main = .running [] ∨ ∃ other code,
    machine.status main = .running (.join other :: code) ∧
      (machine.status other).finished = false ∧ other ≠ main ∧ creates code = []

/-- Then it has created all threads. -/
theorem Machine.Spawning.created (spawning : machine.Spawning program main)
    (joins : machine.Joins main) {thread : Thread} (apart : thread ≠ main) :
    machine.status thread ≠ .absent := by
  intro absent
  have pending := spawning.pending thread apart absent
  rcases joins with ended | ⟨_, code, at_, _, _, none⟩
  · rw [left_of_status ended] at pending
    cases pending
  · rw [left_of_status at_] at pending
    change thread ∈ creates code at pending
    rw [none] at pending
    cases pending

/-- Where the other threads have ended, if they have been created, all have. -/
theorem Machine.Spawning.ended (spawning : machine.Spawning program main)
    (joins : machine.Joins main) (others : ∀ thread, thread ≠ main →
      machine.status thread = .absent ∨ machine.status thread = .running []) (thread : Thread) :
    machine.status thread = .running [] := by
  have ended {thread : Thread} (apart : thread ≠ main) : machine.status thread = .running [] :=
    (others thread apart).resolve_left (spawning.created joins apart)
  rcases eq_or_ne thread main with rfl | isMain
  · rcases joins with done | ⟨other, _, _, running, apart, _⟩
    · exact done
    · rw [ended apart] at running
      cases running
  · exact ended isMain

variable [DecidableEq Thread] {choice : Choice Thread} {output : Output Thread Text}

/-! ## Threads that can act -/

theorem holder_acts (disciplined : Disciplined program main) (valid : machine.Valid program)
    {thread : Thread} (holder : machine.owner = some thread) :
    machine.act program thread ≠ none := by
  have held := (valid.owner thread).mp holder
  cases at_ : machine.status thread with
  | absent => exact (at_ ▸ held : Status.Holds .absent).elim
  | asleep code => exact (at_ ▸ held : Status.Holds (.asleep code)).elim
  | woken code => exact (at_ ▸ held : Status.Holds (.woken code)).elim
  | parked code =>
      have arrived := (disciplined.sectioned thread).suffix ((valid.placed thread).parked code at_)
      rw [at_] at held
      exact absurd (held.symm.trans arrived.1) (by simp)
  | running code =>
      have sectioned := sectioned_of_running disciplined valid at_
      have held' : holds code = true := by
        rw [at_] at held
        exact held
      unfold Machine.act
      rw [at_]
      cases code with
      | nil => cases held'
      | cons instr rest =>
          cases instr with
          | lock => cases held'
          | initMutex => exact absurd (held'.symm.trans sectioned.1) (by simp)
          | arrive => exact absurd (held'.symm.trans sectioned.1) (by simp)
          | join other => exact absurd (held'.symm.trans sectioned.1) (by simp)
          | await =>
              unfold Machine.execute
              dsimp only
              split <;> simp
          | _ => simp [Machine.execute]

/-- No thread can act. -/
def Machine.AtRest (program : Thread → Code Thread Text) (machine : Machine Thread Text) : Prop :=
  ∀ thread, machine.act program thread = none

theorem blocked_of_atRest (disciplined : Disciplined program main) (valid : machine.Valid program)
    (atRest : machine.AtRest program) :
    machine.owner = none ∧ ∀ thread, Blocked machine thread := by
  have free : machine.owner = none := by
    cases isOwner : machine.owner with
    | none => rfl
    | some thread => exact absurd (atRest thread) (holder_acts disciplined valid isOwner)
  refine ⟨free, fun thread => ?_⟩
  have stuck := atRest thread
  unfold Machine.act at stuck
  cases at_ : machine.status thread with
  | absent => exact .absent at_
  | parked code => exact .parked at_
  | asleep code => exact .asleep at_
  | woken code => simp [at_, free] at stuck
  | running code =>
      rw [at_] at stuck
      cases code with
      | nil => exact .ended at_
      | cons instr rest =>
          cases instr with
          | lock => simp [Machine.execute, free] at stuck
          | join other =>
              refine .joins at_ ?_
              simpa [Machine.execute] using stuck
          | arrive =>
              unfold Machine.execute at stuck
              dsimp only at stuck
              split at stuck <;> cases stuck
          | await =>
              unfold Machine.execute at stuck
              dsimp only at stuck
              split at stuck <;> cases stuck
          | _ => simp [Machine.execute] at stuck

/-! ## How long a run is -/

/-- Where no program waits for the condition, no thread sleeps that could be woken. -/
theorem not_isWake (disciplined : Disciplined program main)
    (awake : ∀ thread, .await ∉ program thread) {choices : List (Choice Thread)}
    (session : Session program main choices output machine) :
    ∀ choice ∈ choices, choice.isWake = false := by
  induction session with
  | nil => simp
  | @snoc choices outputs more machine next choice before steady stepped ih =>
      have valid := (session_orderly disciplined before).1
      intro other member
      rcases List.mem_append.mp member with earlier | last
      · exact ih other earlier
      · obtain rfl := List.mem_singleton.mp last
        cases effect_of_step stepped with
        | wake at_ => exact absurd at_ (valid.not_asleep (awake _) _)
        | _ => rfl

section Rank

variable [Fintype Thread]

theorem rank_set (program : Thread → Code Thread Text) (machine : Machine Thread Text)
    (thread : Thread) (status : Status Thread Text) :
    (machine.set thread status).rank program + (machine.status thread).weight (program thread) =
      machine.rank program + status.weight (program thread) := by
  unfold Machine.rank
  rw [← Finset.add_sum_erase _ _ (Finset.mem_univ thread),
    ← Finset.add_sum_erase _ (fun other => (machine.status other).weight (program other))
      (Finset.mem_univ thread), Machine.set_status_self]
  have others : ∑ other ∈ Finset.univ.erase thread,
      ((machine.set thread status).status other).weight (program other) =
        ∑ other ∈ Finset.univ.erase thread, (machine.status other).weight (program other) := by
    refine Finset.sum_congr rfl fun other member => ?_
    rw [Machine.set_status_of_ne _ _ (Finset.ne_of_mem_erase member)]
  rw [others]
  ring

/-- A broadcast pays for the threads that it wakes. -/
theorem Spreads.rank_le (valid : machine.Valid program) {thread : Thread}
    {status : Status Thread Text} (spreads : Spreads program machine thread status next.status) :
    next.rank program ≤ (machine.set thread status).rank program ∨
      ∃ code, machine.status thread = .running (.broadcast :: code) ∧ status = .running code ∧
        next.rank program ≤ (machine.set thread status).rank program + 2 * Fintype.card Thread := by
  unfold Machine.rank
  generalize next.status = statuses at spreads ⊢
  cases spreads with
  | alone _ => exact .inl (Nat.le_refl _)
  | release _ => exact .inl (Finset.sum_le_sum fun other _ => (weight_release _ _).le)
  | @rouse code at_ isStatus =>
      refine .inr ⟨code, at_, isStatus, ?_⟩
      have more := Finset.sum_le_sum fun other (_ : other ∈ Finset.univ) =>
        weight_rouse (program other) ((machine.set thread status).status other)
      rw [Finset.sum_add_distrib, Finset.sum_const_nat fun _ _ => rfl, Finset.card_univ,
        Nat.mul_comm] at more
      exact more
  | @create child code at_ _ =>
      have new := valid.absent_of_create at_
      refine .inl (Finset.sum_le_sum fun other _ => ?_)
      by_cases same : other = child
      · subst same
        have apart : other ≠ thread := by
          rintro rfl
          rw [new] at at_
          cases at_
        rw [Machine.set_status_self, Machine.set_status_of_ne _ _ apart, new]
        rfl
      · rw [Machine.set_status_of_ne _ _ same]

/-- A step takes one at least of the steps that are left, and two come back where a
thread is woken for no reason. -/
theorem Effect.rank_lt (valid : machine.Valid program)
    (effect : Effect program machine choice next output) :
    (choice.isWake = false → next.rank program < machine.rank program) ∧
      (choice.isWake = true → next.rank program ≤ machine.rank program + 2) := by
  obtain ⟨thread, status, moves, spreads, wakes⟩ := effect.spreads
  have own := rank_set program machine thread status
  have total := spreads.rank_le valid
  constructor
  · intro acts
    have less : status.weight (program thread) < (machine.status thread).weight (program thread) :=
      moves.weight_lt (wakes.not.mp (by simp [acts]))
    rcases total with least | ⟨code, at_, rfl, least⟩
    · omega
    · rw [at_] at own
      simp only [Status.weight, cost_cons, Instr.cost] at own
      omega
  · intro isWake
    obtain ⟨code, rfl⟩ := wakes.mp isWake
    have more : Status.weight (program thread) (.woken code) =
        (machine.status thread).weight (program thread) + 2 := moves.weight_woken
    rcases total with least | ⟨_, _, other, _⟩
    · omega
    · cases other

/-- How many steps of a run are not such as wake a thread for no reason. -/
def acts (choices : List (Choice Thread)) : Nat := choices.countP fun choice => !choice.isWake

def wakes (choices : List (Choice Thread)) : Nat := choices.countP Choice.isWake

theorem session_length (disciplined : Disciplined program main) {choices : List (Choice Thread)}
    (session : Session program main choices output machine) :
    acts choices + machine.rank program ≤
      (Machine.initial program main).rank program + 2 * wakes choices := by
  induction session with
  | nil => simp [acts, wakes]
  | @snoc choices outputs more machine next choice before steady stepped ih =>
      have valid := (session_orderly disciplined before).1
      obtain ⟨less, more⟩ := (effect_of_step stepped).rank_lt valid
      unfold acts wakes at ih ⊢
      rw [List.countP_append, List.countP_append, List.countP_singleton, List.countP_singleton]
      cases isWake : choice.isWake with
      | false =>
          have := less isWake
          simp
          omega
      | true =>
          have := more isWake
          simp
          omega

theorem session_length_awake (disciplined : Disciplined program main)
    (awake : ∀ thread, .await ∉ program thread) {choices : List (Choice Thread)}
    (session : Session program main choices output machine) :
    choices.length ≤ (Machine.initial program main).rank program := by
  have quiet := not_isWake disciplined awake session
  have all : acts choices = choices.length :=
    List.countP_eq_length.mpr fun choice member => by simp [quiet choice member]
  have none : wakes choices = 0 :=
    List.countP_eq_zero.mpr fun choice member => by simp [quiet choice member]
  have bound := session_length disciplined session
  omega

end Rank

end OsPractices.Library
