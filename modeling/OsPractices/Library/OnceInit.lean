import Mathlib.Data.Finset.Basic
import Mathlib.Logic.Function.Basic
import OsPractices.Library.Runs

/-!
# Initialization that is done once

Threads that check a pointer under a read lock and, where it is null, check it
again under the write lock before they assign it and all else that belongs to it.
Whatever order the threads act in, each assignment is made once, and whoever has
returned finds all of them made.
-/

set_option autoImplicit false

namespace OsPractices.Library

/-- What is assigned, in this order; the pointer is the first. -/
structure Recipe (Part : Type) where
  pointer : Part
  others : List Part

def Recipe.parts {Part : Type} (recipe : Recipe Part) : List Part :=
  recipe.pointer :: recipe.others

/-- What a thread that initializes is at. -/
inductive InitPhase (Part : Type) where
  | outside
  /-- It holds the read lock. -/
  | reading
  /-- It has looked at the pointer. -/
  | seen (present : Bool)
  /-- It has given back the read lock, and waits for the write lock. -/
  | between
  /-- It holds the write lock. -/
  | writing
  /-- It has looked again, and has this left to assign. -/
  | building (rest : List Part)
  deriving DecidableEq, Repr

structure InitState (Thread Part : Type) where
  phase : Thread → InitPhase Part
  readers : Finset Thread
  writer : Option Thread
  assigned : List Part

inductive InitOutput (Thread Part : Type) where
  | assigned (part : Part)
  | returned (thread : Thread)
  deriving DecidableEq, Repr

variable {Thread Part : Type}

def InitPhase.reads : InitPhase Part → Bool
  | .reading | .seen _ => true
  | _ => false

def InitPhase.writes : InitPhase Part → Bool
  | .writing | .building _ => true
  | _ => false

def InitOutput.part? : InitOutput Thread Part → Option Part
  | .assigned part => some part
  | .returned _ => none

/-- The assignments of a run, in their order. -/
def assignments (outputs : List (InitOutput Thread Part)) : List Part :=
  outputs.filterMap InitOutput.part?

namespace InitState

def initial : InitState Thread Part := ⟨fun _ => .outside, ∅, none, []⟩

variable [DecidableEq Thread]

def move (state : InitState Thread Part) (thread : Thread) (phase : InitPhase Part) :
    InitState Thread Part := { state with phase := Function.update state.phase thread phase }

@[simp] theorem move_phase_self (state : InitState Thread Part) (thread : Thread)
    (phase : InitPhase Part) : (state.move thread phase).phase thread = phase :=
  Function.update_self ..

@[simp] theorem move_phase_of_ne (state : InitState Thread Part) {thread other : Thread}
    (phase : InitPhase Part) (apart : other ≠ thread) :
    (state.move thread phase).phase other = state.phase other := Function.update_of_ne apart ..

@[simp] theorem move_readers (state : InitState Thread Part) (thread : Thread)
    (phase : InitPhase Part) : (state.move thread phase).readers = state.readers := rfl

@[simp] theorem move_writer (state : InitState Thread Part) (thread : Thread)
    (phase : InitPhase Part) : (state.move thread phase).writer = state.writer := rfl

@[simp] theorem move_assigned (state : InitState Thread Part) (thread : Thread)
    (phase : InitPhase Part) : (state.move thread phase).assigned = state.assigned := rfl

variable [DecidableEq Part]

/-- The next thing that a thread does, unless it has to wait for the lock. -/
def step (recipe : Recipe Part) (state : InitState Thread Part) (thread : Thread) :
    Option (InitState Thread Part × List (InitOutput Thread Part)) :=
  match state.phase thread with
  | .outside =>
      if state.writer = none then
        some ({ state.move thread .reading with readers := insert thread state.readers }, [])
      else none
  | .reading => some (state.move thread (.seen (decide (recipe.pointer ∈ state.assigned))), [])
  | .seen true =>
      some ({ state.move thread .outside with readers := state.readers.erase thread },
        [.returned thread])
  | .seen false =>
      some ({ state.move thread .between with readers := state.readers.erase thread }, [])
  | .between =>
      if state.writer = none ∧ state.readers = ∅ then
        some ({ state.move thread .writing with writer := some thread }, [])
      else none
  | .writing =>
      if recipe.pointer ∈ state.assigned then some (state.move thread (.building []), [])
      else some (state.move thread (.building recipe.parts), [])
  | .building (part :: rest) =>
      some ({ state.move thread (.building rest) with assigned := state.assigned ++ [part] },
        [.assigned part])
  | .building [] =>
      some ({ state.move thread .outside with writer := none }, [.returned thread])

end InitState

/-! ## What a step does -/

section Effects

variable [DecidableEq Thread] {recipe : Recipe Part}

/-- What a step of a thread may do, phase by phase. -/
inductive InitEffect (recipe : Recipe Part) (state : InitState Thread Part) (thread : Thread) :
    InitState Thread Part → List (InitOutput Thread Part) → Prop where
  | enter : state.phase thread = .outside → state.writer = none →
      InitEffect recipe state thread
        { state.move thread .reading with readers := insert thread state.readers } []
  | look {present : Bool} : state.phase thread = .reading →
      (present = true ↔ recipe.pointer ∈ state.assigned) →
      InitEffect recipe state thread (state.move thread (.seen present)) []
  | leave : state.phase thread = .seen true →
      InitEffect recipe state thread
        { state.move thread .outside with readers := state.readers.erase thread }
        [.returned thread]
  | release : state.phase thread = .seen false →
      InitEffect recipe state thread
        { state.move thread .between with readers := state.readers.erase thread } []
  | lock : state.phase thread = .between → state.writer = none → state.readers = ∅ →
      InitEffect recipe state thread
        { state.move thread .writing with writer := some thread } []
  | skip : state.phase thread = .writing → recipe.pointer ∈ state.assigned →
      InitEffect recipe state thread (state.move thread (.building [])) []
  | begin : state.phase thread = .writing → recipe.pointer ∉ state.assigned →
      InitEffect recipe state thread (state.move thread (.building recipe.parts)) []
  | assign {part : Part} {rest : List Part} : state.phase thread = .building (part :: rest) →
      InitEffect recipe state thread
        { state.move thread (.building rest) with assigned := state.assigned ++ [part] }
        [.assigned part]
  | finish : state.phase thread = .building [] →
      InitEffect recipe state thread { state.move thread .outside with writer := none }
        [.returned thread]

theorem InitState.effect_of_step [DecidableEq Part] {state next : InitState Thread Part}
    {thread : Thread} {output : List (InitOutput Thread Part)}
    (stepped : state.step recipe thread = some (next, output)) :
    InitEffect recipe state thread next output := by
  unfold InitState.step at stepped
  split at stepped
  case h_1 at_ =>
    obtain ⟨free, same⟩ := Option.ite_none_right_eq_some.mp stepped
    cases same
    exact .enter at_ free
  case h_2 at_ =>
    cases stepped
    exact .look at_ (by simp)
  case h_3 at_ =>
    cases stepped
    exact .leave at_
  case h_4 at_ =>
    cases stepped
    exact .release at_
  case h_5 at_ =>
    obtain ⟨⟨free, none⟩, same⟩ := Option.ite_none_right_eq_some.mp stepped
    cases same
    exact .lock at_ free none
  case h_6 at_ =>
    split at stepped
    case isTrue present =>
      cases stepped
      exact .skip at_ present
    case isFalse absent =>
      cases stepped
      exact .begin at_ absent
  case h_7 at_ =>
    cases stepped
    exact .assign at_
  case h_8 at_ =>
    cases stepped
    exact .finish at_

end Effects

/-! ## What holds in every state -/

/-- The lock is held by those that are in its sections. -/
structure InitState.Locked (state : InitState Thread Part) : Prop where
  readers : ∀ thread, thread ∈ state.readers ↔ (state.phase thread).reads = true
  writer : ∀ thread, state.writer = some thread ↔ (state.phase thread).writes = true
  apart : state.writer ≠ none → state.readers = ∅

/-- What each thread knows of the assignments, from where it stands. -/
def InitPhase.Knows (recipe : Recipe Part) (assigned : List Part) : InitPhase Part → Prop
  | .seen present => assigned = if present then recipe.parts else []
  | .building rest => assigned ++ rest = recipe.parts
  | _ => True

structure InitState.Sound (recipe : Recipe Part) (state : InitState Thread Part)
    (outputs : List (InitOutput Thread Part)) : Prop where
  locked : state.Locked
  knows : ∀ thread, (state.phase thread).Knows recipe state.assigned
  whole : (∀ thread rest, state.phase thread ≠ .building rest) →
    state.assigned = [] ∨ state.assigned = recipe.parts
  history : assignments outputs = state.assigned
  returned : ∀ thread, .returned thread ∈ outputs → state.assigned = recipe.parts

theorem InitState.sound_initial (recipe : Recipe Part) :
    (initial : InitState Thread Part).Sound recipe [] where
  locked := ⟨by simp [initial, InitPhase.reads], by simp [initial, InitPhase.writes], by simp [initial]⟩
  knows _ := trivial
  whole _ := .inl rfl
  history := rfl
  returned := by simp

/-! ## What a step keeps -/

variable {recipe : Recipe Part} {state next : InitState Thread Part} {thread : Thread}
  {outputs more : List (InitOutput Thread Part)}

theorem InitState.Locked.no_reader (locked : state.Locked)
    (writes : (state.phase thread).writes = true) (other : Thread) :
    (state.phase other).reads = false := by
  have none := locked.apart (by simp [(locked.writer thread).mpr writes])
  rw [← Bool.not_eq_true, ← locked.readers other, none]
  simp

theorem InitState.Locked.only_writer (locked : state.Locked) {other : Thread}
    (writes : (state.phase thread).writes = true) (also : (state.phase other).writes = true) :
    other = thread :=
  Option.some.inj (((locked.writer other).mpr also).symm.trans ((locked.writer thread).mpr writes))

/-- Where no thread builds, all has been assigned or nothing. -/
theorem InitState.Sound.whole_of_reads (sound : state.Sound recipe outputs)
    (reads : (state.phase thread).reads = true) :
    state.assigned = [] ∨ state.assigned = recipe.parts := by
  refine sound.whole fun other rest building => ?_
  have writes : (state.phase other).writes = true := by rw [building]; rfl
  have none := sound.locked.no_reader writes thread
  rw [reads] at none
  cases none

/-- No assignment is made twice, and none out of order. -/
theorem InitState.Sound.assigned_prefix (sound : state.Sound recipe outputs) :
    state.assigned <+: recipe.parts := by
  by_cases builds : ∃ thread rest, state.phase thread = .building rest
  · obtain ⟨thread, rest, building⟩ := builds
    have own := sound.knows thread
    rw [building] at own
    exact ⟨rest, own⟩
  · simp only [not_exists] at builds
    rcases sound.whole builds with none | whole
    · exact ⟨recipe.parts, by rw [none]; rfl⟩
    · exact ⟨[], by rw [whole, List.append_nil]⟩

theorem InitState.Sound.whole_of_writing (sound : state.Sound recipe outputs)
    (writing : state.phase thread = .writing) :
    state.assigned = [] ∨ state.assigned = recipe.parts := by
  refine sound.whole fun other rest building => ?_
  have writes : (state.phase thread).writes = true := by rw [writing]; rfl
  have also : (state.phase other).writes = true := by rw [building]; rfl
  obtain rfl := sound.locked.only_writer writes also
  rw [writing] at building
  cases building

/-- The steps that a call takes, where it does not have to wait. -/
def Recipe.length (recipe : Recipe Part) : Nat := recipe.parts.length + 6

/-- The steps that a call takes from a phase on, or more. -/
def InitPhase.remaining (recipe : Recipe Part) : InitPhase Part → Nat
  | .outside => recipe.length
  | .reading => recipe.parts.length + 5
  | .seen _ => recipe.parts.length + 4
  | .between => recipe.parts.length + 3
  | .writing => recipe.parts.length + 2
  | .building rest => rest.length + 1

theorem InitPhase.remaining_pos (recipe : Recipe Part) (phase : InitPhase Part) :
    0 < phase.remaining recipe := by
  cases phase <;> exact Nat.succ_pos _

theorem InitState.Sound.remaining_le (sound : state.Sound recipe outputs) (thread : Thread) :
    (state.phase thread).remaining recipe ≤ recipe.length := by
  have own := sound.knows thread
  unfold Recipe.length
  cases at_ : state.phase thread with
  | building rest =>
      rw [at_] at own
      have whole := congrArg List.length own
      rw [List.length_append] at whole
      dsimp only [InitPhase.remaining]
      omega
  | outside => exact le_rfl
  | _ => exact Nat.add_le_add_left (by decide) _

variable [DecidableEq Thread]

theorem InitState.Locked.moved (locked : state.Locked) (phase : InitPhase Part)
    {readers : Finset Thread} {writer : Option Thread} {assigned : List Part}
    (reads : thread ∈ readers ↔ phase.reads = true)
    (writes : writer = some thread ↔ phase.writes = true)
    (otherReads : ∀ other, other ≠ thread → (other ∈ readers ↔ other ∈ state.readers))
    (otherWrites : ∀ other, other ≠ thread → (writer = some other ↔ state.writer = some other))
    (apart : writer ≠ none → readers = ∅) :
    (InitState.mk (state.move thread phase).phase readers writer assigned).Locked := by
  refine ⟨fun other => ?_, fun other => ?_, apart⟩
  · by_cases same : other = thread
    · subst same
      simpa using reads
    · simpa [same, otherReads other same] using locked.readers other
  · by_cases same : other = thread
    · subst same
      simpa using writes
    · simpa [same, otherWrites other same] using locked.writer other

theorem InitEffect.locked (locked : state.Locked)
    (effect : InitEffect recipe state thread next more) : next.Locked := by
  have reader := locked.readers thread
  have writer := locked.writer thread
  -- a phase in which the thread has the lock as before
  have still {phase : InitPhase Part} (reads : phase.reads = (state.phase thread).reads)
      (writes : phase.writes = (state.phase thread).writes) (assigned : List Part) :
      (InitState.mk (state.move thread phase).phase state.readers state.writer assigned).Locked :=
    locked.moved phase (reads ▸ reader) (writes ▸ writer) (fun _ _ => .rfl) (fun _ _ => .rfl)
      locked.apart
  -- the reader gives its lock back
  have leaves {phase : InitPhase Part} (was : (state.phase thread).reads = true)
      (reads : phase.reads = false) (writes : phase.writes = false) :
      (InitState.mk (state.move thread phase).phase (state.readers.erase thread) state.writer
        state.assigned).Locked := by
    have free : state.writer = none := by
      by_contra held
      have none := locked.apart held
      rw [none] at reader
      exact absurd (reader.mpr was) (by simp)
    exact locked.moved phase (by simp [reads]) (by simp [free, writes])
      (fun other same => by simp [same]) (fun _ _ => .rfl) (by simp [free])
  cases effect with
  | enter at_ free =>
      exact locked.moved .reading (by simp [InitPhase.reads]) (by simp [free, InitPhase.writes])
        (fun other same => by simp [same]) (fun _ _ => .rfl) (by simp [free])
  | look at_ _ => exact still (by rw [at_]; rfl) (by rw [at_]; rfl) state.assigned
  | leave at_ => exact leaves (by rw [at_]; rfl) rfl rfl
  | release at_ => exact leaves (by rw [at_]; rfl) rfl rfl
  | lock at_ free none =>
      exact locked.moved .writing (by simp [none, InitPhase.reads]) (by simp [InitPhase.writes])
        (fun _ _ => .rfl) (fun other same => by simp [free, Ne.symm same]) (fun _ => none)
  | skip at_ _ => exact still (by rw [at_]; rfl) (by rw [at_]; rfl) state.assigned
  | begin at_ _ => exact still (by rw [at_]; rfl) (by rw [at_]; rfl) state.assigned
  | assign at_ => exact still (by rw [at_]; rfl) (by rw [at_]; rfl) _
  | finish at_ =>
      have held : state.writer = some thread := writer.mpr (by rw [at_]; rfl)
      have none := locked.apart (by simp [held])
      exact locked.moved .outside (by simp [none, InitPhase.reads]) (by simp [InitPhase.writes])
        (fun _ _ => .rfl) (fun other same => by simp [held, Ne.symm same]) (by simp)

theorem InitEffect.knows (sound : state.Sound recipe outputs)
    (effect : InitEffect recipe state thread next more) (other : Thread) :
    (next.phase other).Knows recipe next.assigned := by
  -- the thread that moves, where nothing is assigned
  have moves {phase : InitPhase Part} (own : phase.Knows recipe state.assigned) :
      ((state.move thread phase).phase other).Knows recipe state.assigned := by
    by_cases same : other = thread
    · subst same
      rwa [InitState.move_phase_self]
    · rw [InitState.move_phase_of_ne _ _ same]
      exact sound.knows other
  cases effect with
  | enter _ _ => exact moves trivial
  | @look present at_ isPresent =>
      refine moves ?_
      have reads : (state.phase thread).reads = true := by rw [at_]; rfl
      rcases sound.whole_of_reads reads with none | whole
      · have absent : present = false := by simpa [none] using isPresent
        simp [InitPhase.Knows, none, absent]
      · have isTrue : present = true := by simpa [whole, Recipe.parts] using isPresent
        simp [InitPhase.Knows, whole, isTrue]
  | leave _ => exact moves trivial
  | release _ => exact moves trivial
  | lock _ _ _ => exact moves trivial
  | skip at_ present =>
      refine moves ?_
      rcases sound.whole_of_writing at_ with none | whole
      · rw [none] at present
        cases present
      · simp [InitPhase.Knows, whole]
  | begin at_ absent =>
      refine moves ?_
      rcases sound.whole_of_writing at_ with none | whole
      · simp [InitPhase.Knows, none]
      · exact absurd (by simp [whole, Recipe.parts]) absent
  | @assign part rest at_ =>
      have writes : (state.phase thread).writes = true := by rw [at_]; rfl
      have own := sound.knows thread
      rw [at_] at own
      dsimp only
      by_cases same : other = thread
      · subst same
        rw [InitState.move_phase_self]
        simpa [InitPhase.Knows] using own
      · rw [InitState.move_phase_of_ne _ _ same]
        have notReads := sound.locked.no_reader writes other
        cases there : state.phase other with
        | seen present => simp [there, InitPhase.reads] at notReads
        | building rest' =>
            exact absurd (sound.locked.only_writer writes (by rw [there]; rfl)) same
        | _ => trivial
  | finish _ => exact moves trivial

theorem InitEffect.whole (sound : state.Sound recipe outputs)
    (effect : InitEffect recipe state thread next more)
    (idle : ∀ other rest, next.phase other ≠ .building rest) :
    next.assigned = [] ∨ next.assigned = recipe.parts := by
  -- a thread that was not building, and is not
  have still {phase : InitPhase Part} (same : next.phase = (state.move thread phase).phase)
      (was : ∀ rest, state.phase thread ≠ .building rest) :
      state.assigned = [] ∨ state.assigned = recipe.parts := by
    refine sound.whole fun other rest building => ?_
    by_cases own : other = thread
    · exact was rest (own ▸ building)
    · refine idle other rest ?_
      rw [same, InitState.move_phase_of_ne _ _ own, building]
  have builds {rest : List Part} (same : next.phase thread = .building rest) :
      next.assigned = [] ∨ next.assigned = recipe.parts := absurd same (idle thread rest)
  cases effect with
  | enter at_ _ => exact still rfl (by simp [at_])
  | look at_ _ => exact still rfl (by simp [at_])
  | leave at_ => exact still rfl (by simp [at_])
  | release at_ => exact still rfl (by simp [at_])
  | lock at_ _ _ => exact still rfl (by simp [at_])
  | skip _ _ => exact builds (InitState.move_phase_self ..)
  | begin _ _ => exact builds (InitState.move_phase_self ..)
  | assign _ => exact builds (InitState.move_phase_self ..)
  | finish at_ =>
      have own := sound.knows thread
      rw [at_] at own
      exact .inr ((List.append_nil _).symm.trans own)

theorem InitEffect.history (sound : state.Sound recipe outputs)
    (effect : InitEffect recipe state thread next more) :
    assignments (outputs ++ more) = next.assigned := by
  unfold assignments
  rw [List.filterMap_append, ← assignments, sound.history]
  cases effect with
  | assign _ => rfl
  | _ => exact List.append_nil _

/-- Who returns finds everything assigned, and nothing is assigned after that. -/
theorem InitEffect.returned (sound : state.Sound recipe outputs)
    (effect : InitEffect recipe state thread next more) {other : Thread}
    (returned : .returned other ∈ outputs ++ more) : next.assigned = recipe.parts := by
  have own := sound.knows thread
  rcases List.mem_append.mp returned with before | now
  · have whole := sound.returned other before
    cases effect with
    | assign at_ =>
        rw [at_, whole] at own
        simp [InitPhase.Knows] at own
    | _ => exact whole
  · cases effect with
    | leave at_ =>
        rw [at_] at own
        exact own
    | finish at_ =>
        rw [at_] at own
        exact (List.append_nil _).symm.trans own
    | _ => simp at now

theorem InitEffect.sound (sound : state.Sound recipe outputs)
    (effect : InitEffect recipe state thread next more) :
    next.Sound recipe (outputs ++ more) where
  locked := effect.locked sound.locked
  knows := effect.knows sound
  whole := effect.whole sound
  history := effect.history sound
  returned _ := effect.returned sound

/-! ## Runs -/

variable [DecidableEq Part] {threads : List Thread}

theorem InitState.sound_of_run
    (run : Run (InitState.step recipe) (fun _ _ => True) .initial threads outputs state) :
    state.Sound recipe outputs := by
  refine @Run.invariant _ _ _ _ _ _ _ _ _ run (fun state outputs => state.Sound recipe outputs)
    (InitState.sound_initial recipe) ?_
  intro state next outputs more thread sound _ stepped
  exact (InitState.effect_of_step stepped).sound sound

theorem InitEffect.remaining (effect : InitEffect recipe state thread next more)
    (other : Thread) :
    [thread].count other + (next.phase other).remaining recipe ≤
      (state.phase other).remaining recipe + recipe.length * more.count (.returned other) := by
  by_cases same : other = thread
  · subst same
    cases effect with
    | enter at_ _ =>
        simp [at_, InitPhase.remaining, Recipe.length]
        omega
    | look at_ _ =>
        simp [at_, InitPhase.remaining]
        omega
    | leave at_ => simp [at_, InitPhase.remaining, Recipe.length]
    | release at_ =>
        simp [at_, InitPhase.remaining]
        omega
    | lock at_ _ _ =>
        simp [at_, InitPhase.remaining]
        omega
    | skip at_ _ => simp [at_, InitPhase.remaining]
    | begin at_ _ =>
        simp [at_, InitPhase.remaining]
        omega
    | assign at_ =>
        simp [at_, InitPhase.remaining]
        omega
    | finish at_ => simp [at_, InitPhase.remaining, Recipe.length]
  · have phase : next.phase other = state.phase other := by
      cases effect <;> exact InitState.move_phase_of_ne _ _ same
    simp [phase, Ne.symm same]

/-- From any state on, a thread takes the steps that it has left, and those of a call for
each time that it returns. -/
theorem InitState.steps_of_run {start : InitState Thread Part}
    (run : Run (InitState.step recipe) (fun _ _ => True) start threads outputs state)
    (thread : Thread) : threads.count thread + (state.phase thread).remaining recipe ≤
      (start.phase thread).remaining recipe + recipe.length * outputs.count (.returned thread) := by
  induction run with
  | nil => simp
  | snoc before _ stepped ih =>
      have more := (InitState.effect_of_step stepped).remaining thread
      rw [List.count_append, List.count_append, Nat.mul_add]
      omega

/-- Wherever in a run a thread starts to take as many steps as a call takes, it returns
with one of them. -/
theorem InitState.returns_within {during : List Thread}
    (run : Run (InitState.step recipe) (fun _ _ => True) .initial (threads ++ during) outputs state)
    (thread : Thread) (many : recipe.length ≤ during.count thread) :
    ∃ middle before after,
      Run (InitState.step recipe) (fun _ _ => True) .initial threads before middle ∧
        outputs = before ++ after ∧ .returned thread ∈ after := by
  obtain ⟨middle, before, after, there, rest, rfl⟩ := run.split
  refine ⟨middle, before, after, there, rfl, ?_⟩
  by_contra absent
  have steps := InitState.steps_of_run rest thread
  have left := (InitState.sound_of_run there).remaining_le thread
  have ends := (state.phase thread).remaining_pos recipe
  rw [List.count_eq_zero.mpr absent] at steps
  omega

/-- A thread that has to wait, waits for one that can act. -/
theorem InitState.Locked.acts (locked : state.Locked) (recipe : Recipe Part)
    (stuck : state.step recipe thread = none) : ∃ holder, state.step recipe holder ≠ none := by
  have writes {holder : Thread} (writes : (state.phase holder).writes = true) :
      state.step recipe holder ≠ none := by
    unfold InitState.step
    cases at_ : state.phase holder with
    | writing => dsimp only; split <;> simp
    | building rest => cases rest <;> simp
    | _ => simp [at_, InitPhase.writes] at writes
  have reads {holder : Thread} (reads : (state.phase holder).reads = true) :
      state.step recipe holder ≠ none := by
    unfold InitState.step
    cases at_ : state.phase holder with
    | reading => simp
    | seen present => cases present <;> simp
    | _ => simp [at_, InitPhase.reads] at reads
  cases isWriter : state.writer with
  | some holder => exact ⟨holder, writes ((locked.writer holder).mp isWriter)⟩
  | none =>
      by_cases none : state.readers = ∅
      · -- nobody holds the lock, so that the thread itself can act
        cases at_ : state.phase thread with
        | outside => simp [InitState.step, at_, isWriter] at stuck
        | between => simp [InitState.step, at_, isWriter, none] at stuck
        | reading => exact ⟨thread, reads (by rw [at_]; rfl)⟩
        | seen present => exact ⟨thread, reads (by rw [at_]; rfl)⟩
        | writing => exact ⟨thread, writes (by rw [at_]; rfl)⟩
        | building rest => exact ⟨thread, writes (by rw [at_]; rfl)⟩
      · obtain ⟨holder, member⟩ := Finset.nonempty_iff_ne_empty.mpr none
        exact ⟨holder, reads ((locked.readers holder).mp member)⟩

end OsPractices.Library
