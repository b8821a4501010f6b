import Mathlib.Data.List.Nodup
import OsPractices.Library.Threads

/-!
# Critical sections

Threads that print only while they hold the mutex, each in one section of its
code. What holds of every run of such threads: the section of each thread comes
out whole, and the thread that holds the mutex can go on.
-/

set_option autoImplicit false

namespace OsPractices.Library

variable {Thread Text : Type}

/-! ## Code with one section -/

def Instr.text? : Instr Thread Text → Option Text
  | .print text => some text
  | _ => none

def Instr.child? : Instr Thread Text → Option Thread
  | .create thread => some thread
  | _ => none

/-- Neither part of a section nor the begin of one. -/
def Instr.quiet : Instr Thread Text → Bool
  | .print _ | .lock | .unlock | .await => false
  | _ => true

def prints (code : Code Thread Text) : List Text := code.filterMap Instr.text?

def creates (code : Code Thread Text) : List Thread := code.filterMap Instr.child?

/-- Whether a thread that goes on with the code holds the mutex. -/
def holds : Code Thread Text → Bool
  | [] => false
  | .lock :: _ => false
  | .unlock :: _ | .await :: _ => true
  | _ :: code => holds code

/-- The code prints only while it holds the mutex, and holds it once at most; it does
not wait for another thread meanwhile, except for the condition before it prints. -/
def Sectioned : Code Thread Text → Prop
  | [] => True
  | .print _ :: code => holds code = true ∧ .await ∉ code ∧ Sectioned code
  | .lock :: code | .await :: code => holds code = true ∧ Sectioned code
  | .unlock :: code => (∀ instr ∈ code, instr.quiet = true) ∧ Sectioned code
  | .initMutex :: code | .arrive :: code | .join _ :: code => holds code = false ∧ Sectioned code
  | _ :: code => Sectioned code

theorem holds_of_quiet {code : Code Thread Text} (quiet : ∀ instr ∈ code, instr.quiet = true) :
    holds code = false := by
  induction code with
  | nil => rfl
  | cons instr code ih =>
      have first := quiet instr List.mem_cons_self
      have later := ih fun other member => quiet other (List.mem_cons_of_mem instr member)
      cases instr <;> first | exact later | cases first

theorem prints_of_quiet {code : Code Thread Text} (quiet : ∀ instr ∈ code, instr.quiet = true) :
    prints code = [] := by
  refine List.filterMap_eq_nil_iff.mpr fun instr member => ?_
  have silent := quiet instr member
  cases instr <;> first | rfl | cases silent

theorem sectioned_of_quiet {code : Code Thread Text}
    (quiet : ∀ instr ∈ code, instr.quiet = true) : Sectioned code := by
  induction code with
  | nil => trivial
  | cons instr code ih =>
      have first := quiet instr List.mem_cons_self
      have later : ∀ other ∈ code, other.quiet = true := fun other member =>
        quiet other (List.mem_cons_of_mem instr member)
      cases instr <;> first
        | exact ih later
        | exact ⟨holds_of_quiet later, ih later⟩
        | cases first

/-- Where an instruction is not in the first part of the code, it is in the second. -/
theorem suffix_of_notMem {instr : Instr Thread Text} {rest first second : Code Thread Text}
    (suffix : instr :: rest <:+ first ++ second) (absent : instr ∉ first) :
    instr :: rest <:+ second := by
  induction first with
  | nil => exact suffix
  | cons other first ih =>
      rcases List.suffix_cons_iff.mp suffix with same | later
      · exact absurd (List.cons.inj same).1 fun isFirst => absent (by simp [isFirst])
      · exact ih later fun member => absent (List.mem_cons_of_mem other member)

theorem Sectioned.suffix {code rest : Code Thread Text} (sectioned : Sectioned code)
    (suffix : rest <:+ code) : Sectioned rest := by
  induction code with
  | nil =>
      rw [List.suffix_nil.mp suffix]
      trivial
  | cons instr code ih =>
      rcases List.suffix_cons_iff.mp suffix with rfl | shorter
      · exact sectioned
      · refine ih ?_ shorter
        cases instr <;> first
          | exact sectioned.2.2
          | exact sectioned.2
          | exact sectioned

@[simp] theorem prints_append (first second : Code Thread Text) :
    prints (first ++ second) = prints first ++ prints second := List.filterMap_append

@[simp] theorem creates_append (first second : Code Thread Text) :
    creates (first ++ second) = creates first ++ creates second := List.filterMap_append

/-! ## Loops that print -/

@[simp] theorem prints_map_print (texts : List Text) :
    prints (texts.map Instr.print : Code Thread Text) = texts := by
  unfold prints
  rw [List.filterMap_map]
  exact List.filterMap_some

@[simp] theorem creates_map_print (texts : List Text) :
    creates (texts.map Instr.print : Code Thread Text) = [] := by
  unfold creates
  rw [List.filterMap_map, List.filterMap_eq_nil_iff]
  exact fun _ _ => rfl

theorem holds_map_print (texts : List Text) (code : Code Thread Text) :
    holds (texts.map Instr.print ++ code) = holds code := by
  induction texts with
  | nil => rfl
  | cons text texts ih => exact ih

theorem sectioned_map_print (texts : List Text) {code : Code Thread Text}
    (held : holds code = true) (awake : .await ∉ code) (sectioned : Sectioned code) :
    Sectioned (texts.map Instr.print ++ code) := by
  induction texts with
  | nil => exact sectioned
  | cons text texts ih => exact ⟨(holds_map_print texts code).trans held, by simp [awake], ih⟩

/-! ## Programs -/

/-- Each thread is created once at most, and has one section at most. -/
structure Disciplined (program : Thread → Code Thread Text) (main : Thread) : Prop where
  sectioned : ∀ thread, Sectioned (program thread)
  idle : ∀ thread, holds (program thread) = false
  once : ∀ thread, (creates (program thread)).Nodup
  creator : ∀ {first second child}, child ∈ creates (program first) →
    child ∈ creates (program second) → first = second
  main : ∀ thread, main ∉ creates (program thread)

/-- Programs in which the main thread alone creates others. -/
theorem disciplined_of_main {program : Thread → Code Thread Text} {main : Thread}
    (sectioned : ∀ thread, Sectioned (program thread))
    (idle : ∀ thread, holds (program thread) = false)
    (alone : ∀ thread, thread ≠ main → creates (program thread) = [])
    (once : (creates (program main)).Nodup) (others : main ∉ creates (program main)) :
    Disciplined program main := by
  have isMain {thread child : Thread} (member : child ∈ creates (program thread)) :
      thread = main := by
    by_contra apart
    rw [alone thread apart] at member
    cases member
  refine ⟨sectioned, idle, fun thread => ?_, fun one other => (isMain one).trans (isMain other).symm,
    fun thread member => ?_⟩
  · rcases eq_or_ne thread main with rfl | apart
    · exact once
    · rw [alone thread apart]
      exact .nil
  · obtain rfl := isMain member
    exact others member

/-! ## Where a thread stands -/

def Machine.left (program : Thread → Code Thread Text) (machine : Machine Thread Text)
    (thread : Thread) : Code Thread Text := (machine.status thread).left (program thread)

def Status.inits : Status Thread Text → Bool
  | .running (.initMutex :: _) => true
  | _ => false

theorem Status.running_of_inits {status : Status Thread Text} (inits : status.inits = true) :
    ∃ code, status = .running (.initMutex :: code) := by
  unfold Status.inits at inits
  split at inits
  case h_1 code => exact ⟨code, rfl⟩
  case h_2 => cases inits

def Status.Holds : Status Thread Text → Prop
  | .running code | .parked code => holds code = true
  | _ => False

/-- How far a thread has come, whatever the others do. -/
structure Placed (program : Code Thread Text) (status : Status Thread Text) : Prop where
  suffix : status.left program <:+ program
  parked : ∀ code, status = .parked code → .arrive :: code <:+ program
  asleep : ∀ code, status = .asleep code ∨ status = .woken code → ∃ rest, code = .await :: rest
  early : .await ∈ status.left program → prints (status.left program) = prints program

namespace Placed

theorem absent (program : Code Thread Text) : Placed program .absent :=
  ⟨List.suffix_refl _, by simp, by simp, fun _ => rfl⟩

theorem start (program : Code Thread Text) : Placed program (.running program) :=
  ⟨List.suffix_refl _, by simp, by simp, fun _ => rfl⟩

theorem release {code : Code Thread Text} {status : Status Thread Text}
    (placed : Placed code status) : Placed code status.release := by
  cases status with
  | parked rest =>
      exact ⟨placed.suffix, by simp [Status.release], by simp [Status.release], placed.early⟩
  | _ => exact placed

theorem rouse {code : Code Thread Text} {status : Status Thread Text}
    (placed : Placed code status) : Placed code status.rouse := by
  cases status with
  | asleep rest =>
      refine ⟨placed.suffix, by simp [Status.rouse], fun other same => ?_, placed.early⟩
      simp only [Status.rouse, reduceCtorEq, Status.woken.injEq, false_or] at same
      exact same ▸ placed.asleep rest (.inl rfl)
  | _ => exact placed

/-- The next instruction is done. -/
theorem next {program code : Code Thread Text} {instr : Instr Thread Text}
    (placed : Placed program (.running (instr :: code))) (sectioned : Sectioned program) :
    Placed program (.running code) := by
  have suffix : code <:+ program := (List.suffix_cons instr code).trans placed.suffix
  refine ⟨suffix, by simp, by simp, fun waits => ?_⟩
  have before := placed.early (List.mem_cons_of_mem instr waits)
  cases instr with
  | print text => exact absurd waits (sectioned.suffix placed.suffix).2.1
  | _ => exact before

theorem park {program code : Code Thread Text}
    (placed : Placed program (.running (.arrive :: code))) : Placed program (.parked code) :=
  ⟨(List.suffix_cons _ code).trans placed.suffix,
    fun _ same => Status.parked.inj same ▸ placed.suffix, by simp,
    fun waits => placed.early (List.mem_cons_of_mem _ waits)⟩

theorem sleep {program code : Code Thread Text}
    (placed : Placed program (.running (.await :: code))) :
    Placed program (.asleep (.await :: code)) := by
  refine ⟨placed.suffix, by simp, fun other same => ?_, placed.early⟩
  simp only [Status.asleep.injEq, reduceCtorEq, or_false] at same
  exact ⟨code, same.symm⟩

theorem wake {program code : Code Thread Text} (placed : Placed program (.asleep code)) :
    Placed program (.woken code) := placed.rouse

theorem relock {program code : Code Thread Text} (placed : Placed program (.woken code)) :
    Placed program (.running code) := ⟨placed.suffix, by simp, by simp, placed.early⟩

end Placed

theorem holds_release (status : Status Thread Text) :
    status.release.Holds ↔ status.Holds := by
  cases status <;> rfl

theorem holds_rouse (status : Status Thread Text) : status.rouse.Holds ↔ status.Holds := by
  cases status <;> rfl

theorem loud_of_holds {program : Code Thread Text} {status : Status Thread Text}
    (held : status.Holds) : ∃ instr ∈ status.left program, instr.quiet = false := by
  have loud {code : Code Thread Text} (holding : holds code = true) :
      ∃ instr ∈ code, instr.quiet = false := by
    by_contra none
    simp only [not_exists, not_and, Bool.not_eq_false] at none
    rw [holds_of_quiet none] at holding
    cases holding
  cases status with
  | running code => exact loud held
  | parked code => exact loud held
  | _ => exact held.elim

theorem left_release (code : Code Thread Text) (status : Status Thread Text) :
    status.release.left code = status.left code := by
  cases status <;> rfl

theorem left_rouse (code : Code Thread Text) (status : Status Thread Text) :
    status.rouse.left code = status.left code := by
  cases status <;> rfl

theorem prints_cons (instr : Instr Thread Text) (code : Code Thread Text) :
    prints (instr :: code) = instr.text?.toList ++ prints code := by
  cases instr <;> rfl

theorem creates_cons (instr : Instr Thread Text) (code : Code Thread Text) :
    creates (instr :: code) = instr.child?.toList ++ creates code := by
  cases instr <;> rfl

theorem creates_suffix {code rest : Code Thread Text} (suffix : rest <:+ code) :
    creates rest <:+ creates code := by
  obtain ⟨front, rfl⟩ := suffix
  unfold creates
  rw [List.filterMap_append]
  exact List.suffix_append _ _

/-! ## Sections that come out whole -/

/-- All that a thread prints. -/
def said (program : Thread → Code Thread Text) (thread : Thread) : Output Thread Text :=
  (prints (program thread)).map (Prod.mk thread)

/-- The threads in `done` have left their sections, in this order, and `part` is what
the thread that holds the mutex has printed. -/
structure Machine.Orderly (program : Thread → Code Thread Text) (machine : Machine Thread Text)
    (output : Output Thread Text) (done : List Thread) (part : List Text) : Prop where
  nodup : done.Nodup
  quiet : ∀ thread ∈ done, ∀ instr ∈ machine.left program thread, instr.quiet = true
  loud : ∀ thread ∈ done, ∃ instr ∈ program thread, instr.quiet = false
  untold : ∀ thread, thread ∉ done → machine.owner ≠ some thread →
    prints (machine.left program thread) = prints (program thread)
  inside : ∀ thread, machine.owner = some thread →
    thread ∉ done ∧ part ++ prints (machine.left program thread) = prints (program thread)
  idle : machine.owner = none → part = []
  output : output = done.flatMap (said program) ++
    machine.owner.elim [] fun thread => part.map (Prod.mk thread)

namespace Machine.Orderly

variable {program : Thread → Code Thread Text} {machine next : Machine Thread Text} {thread : Thread}
  {printed : Output Thread Text} {done : List Thread} {part : List Text}

/-- A step that leaves the sections alone. -/
theorem same (orderly : machine.Orderly program printed done part)
    (owner : next.owner = machine.owner)
    (suffix : ∀ thread, next.left program thread <:+ machine.left program thread)
    (mute : ∀ thread, prints (next.left program thread) = prints (machine.left program thread)) :
    next.Orderly program printed done part where
  nodup := orderly.nodup
  quiet thread member instr inside := orderly.quiet thread member instr ((suffix thread).mem inside)
  loud := orderly.loud
  untold thread absent free := (mute thread).trans (orderly.untold thread absent (owner ▸ free))
  inside thread held := by
    rw [mute]
    exact orderly.inside thread (owner ▸ held)
  idle free := orderly.idle (owner ▸ free)
  output := owner ▸ orderly.output

/-- A thread that is not done takes the mutex. -/
theorem takes (orderly : machine.Orderly program printed done part) (free : machine.owner = none)
    (owner : next.owner = some thread)
    (suffix : ∀ other, next.left program other <:+ machine.left program other)
    (mute : ∀ other, prints (next.left program other) = prints (machine.left program other))
    (loud : ∃ instr ∈ machine.left program thread, instr.quiet = false) :
    next.Orderly program printed done part := by
  have fresh : thread ∉ done := by
    obtain ⟨instr, inside, notQuiet⟩ := loud
    intro member
    rw [orderly.quiet thread member instr inside] at notQuiet
    cases notQuiet
  have nothing := orderly.idle free
  refine ⟨orderly.nodup, fun other member instr inside =>
    orderly.quiet other member instr ((suffix other).mem inside), orderly.loud, ?_, ?_, ?_, ?_⟩
  · intro other absent _
    rw [mute]
    exact orderly.untold other absent (by simp [free])
  · intro other held
    obtain rfl := Option.some.inj (owner.symm.trans held)
    rw [mute, nothing]
    exact ⟨fresh, orderly.untold thread fresh (by simp [free])⟩
  · exact fun _ => nothing
  · rw [owner, nothing, orderly.output, free, nothing]
    simp

/-- The thread that holds the mutex prints. -/
theorem speaks (orderly : machine.Orderly program printed done part)
    (holder : machine.owner = some thread) (owner : next.owner = some thread)
    (suffix : ∀ other, next.left program other <:+ machine.left program other)
    (others : ∀ other, other ≠ thread → next.left program other = machine.left program other)
    {text : Text}
    (spoken : [text] ++ prints (next.left program thread) = prints (machine.left program thread)) :
    next.Orderly program (printed ++ [(thread, text)]) done (part ++ [text]) := by
  obtain ⟨fresh, whole⟩ := orderly.inside thread holder
  refine ⟨orderly.nodup, fun other member instr inside =>
    orderly.quiet other member instr ((suffix other).mem inside), orderly.loud, ?_, ?_, ?_, ?_⟩
  · intro other absent free
    have apart : other ≠ thread := by
      rintro rfl
      exact free owner
    rw [others other apart]
    exact orderly.untold other absent (holder ▸ owner ▸ free)
  · intro other held
    obtain rfl := Option.some.inj (owner.symm.trans held)
    rw [List.append_assoc, spoken]
    exact ⟨fresh, whole⟩
  · intro free
    cases owner.symm.trans free
  · rw [owner, orderly.output, holder, List.append_assoc]
    simp

/-- The thread that holds the mutex leaves its section. -/
theorem finishes (orderly : machine.Orderly program printed done part)
    (holder : machine.owner = some thread) (owner : next.owner = none)
    (suffix : ∀ other, next.left program other <:+ machine.left program other)
    (mute : ∀ other, prints (next.left program other) = prints (machine.left program other))
    (quiet : ∀ instr ∈ next.left program thread, instr.quiet = true)
    (loud : ∃ instr ∈ program thread, instr.quiet = false) :
    next.Orderly program printed (done ++ [thread]) [] := by
  obtain ⟨fresh, whole⟩ := orderly.inside thread holder
  have whole' : part = prints (program thread) := by
    rw [← whole, ← mute thread, prints_of_quiet quiet, List.append_nil]
  refine ⟨?_, ?_, ?_, ?_, ?_, fun _ => rfl, ?_⟩
  · exact List.nodup_append'.mpr ⟨orderly.nodup, List.nodup_singleton _, by simpa using fresh⟩
  · intro other member instr inside
    rcases List.mem_append.mp member with before | last
    · exact orderly.quiet other before instr ((suffix other).mem inside)
    · rw [List.mem_singleton.mp last] at inside
      exact quiet instr inside
  · intro other member
    rcases List.mem_append.mp member with before | last
    · exact orderly.loud other before
    · rw [List.mem_singleton.mp last]
      exact loud
  · intro other absent _
    simp only [List.mem_append, List.mem_singleton, not_or] at absent
    rw [mute]
    refine orderly.untold other absent.1 fun same => absent.2 ?_
    exact Option.some.inj (same.symm.trans holder)
  · intro other held
    cases owner.symm.trans held
  · rw [owner, orderly.output, holder, whole']
    simp [said]

/-- The thread that holds the mutex gives it back before it has printed. -/
theorem waits (orderly : machine.Orderly program printed done part)
    (holder : machine.owner = some thread) (owner : next.owner = none)
    (suffix : ∀ other, next.left program other <:+ machine.left program other)
    (mute : ∀ other, prints (next.left program other) = prints (machine.left program other))
    (untold : prints (machine.left program thread) = prints (program thread)) :
    next.Orderly program printed done [] := by
  obtain ⟨fresh, whole⟩ := orderly.inside thread holder
  have nothing : part = [] := by
    rw [untold] at whole
    exact List.self_eq_append_left.mp whole.symm
  refine ⟨orderly.nodup, fun other member instr inside =>
    orderly.quiet other member instr ((suffix other).mem inside), orderly.loud, ?_, ?_,
    fun _ => rfl, ?_⟩
  · intro other absent _
    rw [mute]
    by_cases same : other = thread
    · rw [same, untold]
    · exact orderly.untold other absent fun holds =>
        same (Option.some.inj (holds.symm.trans holder))
  · intro other held
    cases owner.symm.trans held
  · rw [owner, orderly.output, holder, nothing]
    simp

end Machine.Orderly

/-! ## What a step does to the statuses -/

variable {program : Thread → Code Thread Text} {main : Thread} {machine next : Machine Thread Text}

/-- What a thread becomes in a step of its own. -/
inductive Moves (machine : Machine Thread Text) (thread : Thread) : Status Thread Text → Prop where
  | goes {instr : Instr Thread Text} {code : Code Thread Text} :
      machine.status thread = .running (instr :: code) → Moves machine thread (.running code)
  | parks {code : Code Thread Text} :
      machine.status thread = .running (.arrive :: code) → Moves machine thread (.parked code)
  | sleeps {code : Code Thread Text} :
      machine.status thread = .running (.await :: code) →
      Moves machine thread (.asleep (.await :: code))
  | wakes {code : Code Thread Text} :
      machine.status thread = .asleep code → Moves machine thread (.woken code)
  | relocks {code : Code Thread Text} :
      machine.status thread = .woken code → Moves machine thread (.running code)

/-- What holds in every state that is reached. -/
structure Machine.Valid (program : Thread → Code Thread Text) (machine : Machine Thread Text) :
    Prop where
  placed : ∀ thread, Placed (program thread) (machine.status thread)
  absent : ∀ thread, ∀ child ∈ creates (machine.left program thread), machine.status child = .absent
  owner : ∀ thread, machine.owner = some thread ↔ (machine.status thread).Holds

theorem Machine.Valid.suffix (valid : machine.Valid program) (thread : Thread) :
    machine.left program thread <:+ program thread := (valid.placed thread).suffix

theorem Machine.Valid.not_asleep (valid : machine.Valid program) {thread : Thread}
    (awake : .await ∉ program thread) (code : Code Thread Text) :
    machine.status thread ≠ .asleep code := by
  intro asleep
  obtain ⟨rest, rfl⟩ := (valid.placed thread).asleep code (.inl asleep)
  have suffix := (valid.placed thread).suffix
  rw [asleep] at suffix
  exact awake (suffix.mem List.mem_cons_self)

theorem Machine.Valid.absent_of_create (valid : machine.Valid program) {thread child : Thread}
    {code : Code Thread Text} (at_ : machine.status thread = .running (.create child :: code)) :
    machine.status child = .absent := by
  refine valid.absent thread child ?_
  unfold Machine.left
  rw [at_]
  exact List.mem_cons_self

theorem left_of_status {thread : Thread} {status : Status Thread Text}
    (at_ : machine.status thread = status) :
    machine.left program thread = status.left (program thread) := by
  unfold Machine.left
  rw [at_]

theorem sectioned_of_running (disciplined : Disciplined program main)
    (valid : machine.Valid program) {thread : Thread} {code : Code Thread Text}
    (at_ : machine.status thread = .running code) : Sectioned code := by
  refine (disciplined.sectioned thread).suffix ?_
  have place := (valid.placed thread).suffix
  rwa [at_] at place

section Runs

variable [DecidableEq Thread] {choice : Choice Thread} {output : Output Thread Text}

/-- What the other threads become in it. -/
inductive Spreads (program : Thread → Code Thread Text) (machine : Machine Thread Text)
    (thread : Thread) (status : Status Thread Text) : (Thread → Status Thread Text) → Prop where
  | alone : (∀ child code, machine.status thread ≠ .running (.create child :: code)) →
      Spreads program machine thread status (machine.set thread status).status
  | release {code : Code Thread Text} : machine.status thread = .running (.arrive :: code) →
      Spreads program machine thread status
        fun other => ((machine.set thread status).status other).release
  | rouse {code : Code Thread Text} :
      machine.status thread = .running (.broadcast :: code) → status = .running code →
      Spreads program machine thread status
        fun other => ((machine.set thread status).status other).rouse
  | create {child : Thread} {code : Code Thread Text} :
      machine.status thread = .running (.create child :: code) → status = .running code →
      Spreads program machine thread status
        ((machine.set thread status).set child (.running (program child))).status

theorem Spreads.created {thread child : Thread} {status : Status Thread Text}
    {statuses : Thread → Status Thread Text} {code : Code Thread Text}
    (spreads : Spreads program machine thread status statuses)
    (at_ : machine.status thread = .running (.create child :: code)) :
    statuses child = .running (program child) := by
  cases spreads with
  | alone other => exact absurd at_ (other child code)
  | release at_' => simp [at_] at at_'
  | rouse at_' _ => simp [at_] at at_'
  | create at_' _ =>
      simp only [at_, Status.running.injEq, List.cons.injEq, Instr.create.injEq] at at_'
      obtain ⟨rfl, _⟩ := at_'
      exact Machine.set_status_self ..

theorem Effect.spreads (effect : Effect program machine choice next output) :
    ∃ thread status, Moves machine thread status ∧
      Spreads program machine thread status next.status ∧
      (choice.isWake = true ↔ ∃ code, status = .woken code) := by
  cases effect with
  | relock at_ _ => exact ⟨_, _, .relocks at_, .alone (by simp [at_]), by simp [Choice.isWake]⟩
  | park at_ _ => exact ⟨_, _, .parks at_, .alone (by simp [at_]), by simp [Choice.isWake]⟩
  | full at_ _ => exact ⟨_, _, .goes at_, .release at_, by simp [Choice.isWake]⟩
  | sleep at_ _ => exact ⟨_, _, .sleeps at_, .alone (by simp [at_]), by simp [Choice.isWake]⟩
  | broadcast at_ => exact ⟨_, _, .goes at_, .rouse at_ rfl, by simp [Choice.isWake]⟩
  | create at_ => exact ⟨_, _, .goes at_, .create at_ rfl, by simp [Choice.isWake]⟩
  | wake at_ => exact ⟨_, _, .wakes at_, .alone (by simp [at_]), by simp [Choice.isWake]⟩
  | print at_ => exact ⟨_, _, .goes at_, .alone (by simp [at_]), by simp [Choice.isWake]⟩
  | lock at_ _ => exact ⟨_, _, .goes at_, .alone (by simp [at_]), by simp [Choice.isWake]⟩
  | unlock at_ => exact ⟨_, _, .goes at_, .alone (by simp [at_]), by simp [Choice.isWake]⟩
  | initMutex at_ => exact ⟨_, _, .goes at_, .alone (by simp [at_]), by simp [Choice.isWake]⟩
  | initBarrier at_ => exact ⟨_, _, .goes at_, .alone (by simp [at_]), by simp [Choice.isWake]⟩
  | pass at_ _ => exact ⟨_, _, .goes at_, .alone (by simp [at_]), by simp [Choice.isWake]⟩
  | raise at_ => exact ⟨_, _, .goes at_, .alone (by simp [at_]), by simp [Choice.isWake]⟩
  | initCond at_ => exact ⟨_, _, .goes at_, .alone (by simp [at_]), by simp [Choice.isWake]⟩
  | join at_ _ => exact ⟨_, _, .goes at_, .alone (by simp [at_]), by simp [Choice.isWake]⟩

/-- What holds of every thread still holds, if it does of those that the step
changes. -/
theorem Spreads.forall {thread : Thread} {status : Status Thread Text}
    {statuses : Thread → Status Thread Text}
    (spreads : Spreads program machine thread status statuses)
    (kept : Thread → Status Thread Text → Prop) (own : kept thread status)
    (others : ∀ other, other ≠ thread → kept other (machine.status other))
    (release : ∀ other status, kept other status → kept other status.release)
    (rouse : ∀ other status, kept other status → kept other status.rouse)
    (start : ∀ child code, machine.status thread = .running (.create child :: code) →
      kept child (.running (program child))) (other : Thread) : kept other (statuses other) := by
  have alone : ∀ other, kept other ((machine.set thread status).status other) := by
    intro other
    by_cases same : other = thread
    · subst same
      rw [Machine.set_status_self]
      exact own
    · rw [Machine.set_status_of_ne _ _ same]
      exact others other same
  cases spreads with
  | alone _ => exact alone other
  | release _ => exact release other _ (alone other)
  | rouse _ _ => exact rouse other _ (alone other)
  | @create child code at_ _ =>
      by_cases same : other = child
      · subst same
        rw [Machine.set_status_self]
        exact start other code at_
      · rw [Machine.set_status_of_ne _ _ same]
        exact alone other

theorem Effect.placed (disciplined : Disciplined program main)
    (effect : Effect program machine choice next output)
    (placed : ∀ thread, Placed (program thread) (machine.status thread)) (thread : Thread) :
    Placed (program thread) (next.status thread) := by
  obtain ⟨mover, status, moves, spreads, _⟩ := effect.spreads
  have before := placed mover
  have own : Placed (program mover) status := by
    cases moves with
    | goes at_ => exact (at_ ▸ before).next (disciplined.sectioned mover)
    | parks at_ => exact (at_ ▸ before).park
    | sleeps at_ => exact (at_ ▸ before).sleep
    | wakes at_ => exact (at_ ▸ before).wake
    | relocks at_ => exact (at_ ▸ before).relock
  exact spreads.forall (fun other status => Placed (program other) status) own
    (fun other _ => placed other) (fun _ _ => Placed.release) (fun _ _ => Placed.rouse)
    (fun child _ _ => .start (program child)) thread

/-! ## Threads that have not been created -/

/-- No thread goes back in its code. -/
theorem Effect.left_suffix (valid : machine.Valid program)
    (effect : Effect program machine choice next output) (thread : Thread) :
    next.left program thread <:+ machine.left program thread := by
  obtain ⟨mover, status, moves, spreads, _⟩ := effect.spreads
  have own : status.left (program mover) <:+ machine.left program mover := by
    unfold Machine.left
    cases moves with
    | goes at_ => exact at_ ▸ List.suffix_cons _ _
    | parks at_ => exact at_ ▸ List.suffix_cons _ _
    | sleeps at_ => exact at_ ▸ List.suffix_refl _
    | wakes at_ => exact at_ ▸ List.suffix_refl _
    | relocks at_ => exact at_ ▸ List.suffix_refl _
  refine spreads.forall (fun other status =>
    status.left (program other) <:+ machine.left program other) own
    (fun other _ => List.suffix_refl _) (fun other status kept => ?_) (fun other status kept => ?_)
    (fun child code at_ => ?_) thread
  · rwa [left_release]
  · rwa [left_rouse]
  · have new := valid.absent_of_create at_
    unfold Machine.left
    rw [new]
    exact List.suffix_refl _

/-- A thread that has not been created stays so, unless the step creates it. -/
theorem Effect.absent (effect : Effect program machine choice next output) {child : Thread}
    (absent : machine.status child = .absent) : next.status child = .absent ∨
      ∃ thread code, machine.status thread = .running (.create child :: code) ∧
        next.status thread = .running code := by
  obtain ⟨mover, status, moves, spreads, _⟩ := effect.spreads
  have apart : child ≠ mover := by
    rintro rfl
    cases moves <;> simp_all
  have alone : (machine.set mover status).status child = .absent := by
    rw [Machine.set_status_of_ne _ _ apart, absent]
  generalize next.status = statuses at spreads ⊢
  cases spreads with
  | alone _ => exact .inl alone
  | release _ => exact .inl (congrArg Status.release alone)
  | rouse _ _ => exact .inl (congrArg Status.rouse alone)
  | @create other code at_ isStatus =>
      by_cases same : child = other
      · subst same
        refine .inr ⟨mover, code, at_, ?_⟩
        rw [Machine.set_status_of_ne _ _ apart.symm, Machine.set_status_self, isStatus]
      · exact .inl (by rw [Machine.set_status_of_ne _ _ same]; exact alone)

/-- A thread that has been created does not become absent. -/
theorem Effect.not_absent (effect : Effect program machine choice next output) {thread : Thread}
    (absent : next.status thread = .absent) : machine.status thread = .absent := by
  obtain ⟨mover, status, moves, spreads, _⟩ := effect.spreads
  refine spreads.forall (fun other status => status = .absent → machine.status other = .absent)
    (fun isAbsent => ?_) (fun _ _ => id) (fun other status kept isAbsent => kept ?_)
    (fun other status kept isAbsent => kept ?_) (fun _ _ _ => by simp) thread absent
  · cases moves <;> cases isAbsent
  · cases status <;> first | rfl | cases isAbsent
  · cases status <;> first | rfl | cases isAbsent

theorem Effect.print_of_output (effect : Effect program machine choice next output)
    (printed : output ≠ []) :
    ∃ thread text code, machine.status thread = .running (.print text :: code) := by
  cases effect with
  | print at_ => exact ⟨_, _, _, at_⟩
  | _ => exact absurd rfl printed

theorem Effect.valid_absent (disciplined : Disciplined program main) (valid : machine.Valid program)
    (effect : Effect program machine choice next output) (thread : Thread) :
    ∀ child ∈ creates (next.left program thread), next.status child = .absent := by
  intro child member
  have before : child ∈ creates (machine.left program thread) :=
    (creates_suffix (effect.left_suffix valid thread)).mem member
  have within {other : Thread} (inside : child ∈ creates (machine.left program other)) :
      child ∈ creates (program other) := (creates_suffix (valid.placed other).suffix).mem inside
  rcases effect.absent (valid.absent thread child before) with still | ⟨mover, code, at_, after⟩
  · exact still
  · have left : machine.left program mover = .create child :: code := by
      unfold Machine.left
      rw [at_]
      rfl
    have own : child ∈ creates (machine.left program mover) := by
      rw [left]
      exact List.mem_cons_self
    -- only the thread that has created it could create it again
    have same : thread = mover := disciplined.creator (within before) (within own)
    subst same
    have once : (creates (machine.left program thread)).Nodup :=
      (disciplined.once thread).sublist (creates_suffix (valid.placed thread).suffix).sublist
    have rest : next.left program thread = code := by
      unfold Machine.left
      rw [after]
      rfl
    rw [left] at once
    rw [rest] at member
    exact absurd member (List.nodup_cons.mp once).1

/-! ## The mutex -/

theorem Spreads.holds (disciplined : Disciplined program main) (valid : machine.Valid program)
    {thread : Thread} {status : Status Thread Text} {statuses : Thread → Status Thread Text}
    (spreads : Spreads program machine thread status statuses) (other : Thread) :
    (statuses other).Holds ↔ ((machine.set thread status).status other).Holds := by
  cases spreads with
  | alone _ => rfl
  | release _ => exact holds_release _
  | rouse _ _ => exact holds_rouse _
  | @create child code at_ isStatus =>
      by_cases same : other = child
      · subst same
        have new := valid.absent_of_create at_
        have apart : other ≠ thread := by
          rintro rfl
          rw [new] at at_
          cases at_
        rw [Machine.set_status_self, Machine.set_status_of_ne _ _ apart, new]
        unfold Status.Holds
        simp [disciplined.idle]
      · rw [Machine.set_status_of_ne _ _ same]

/-- The code that is left is that of the thread which moves, and of the others as it was. -/
theorem Spreads.left (valid : machine.Valid program) {thread : Thread}
    {status : Status Thread Text} (spreads : Spreads program machine thread status next.status) :
    next.left program thread = status.left (program thread) ∧
      ∀ other, other ≠ thread → next.left program other = machine.left program other := by
  have alone : ∀ other, next.left program other =
      ((machine.set thread status).status other).left (program other) := by
    intro other
    unfold Machine.left
    generalize next.status = statuses at spreads ⊢
    cases spreads with
    | alone _ => rfl
    | release _ => exact left_release _ _
    | rouse _ _ => exact left_rouse _ _
    | @create child code at_ isStatus =>
        by_cases same : other = child
        · subst same
          have new := valid.absent_of_create at_
          have apart : other ≠ thread := by
            rintro rfl
            rw [new] at at_
            cases at_
          rw [Machine.set_status_self, Machine.set_status_of_ne _ _ apart, new]
          rfl
        · rw [Machine.set_status_of_ne _ _ same]
  refine ⟨?_, fun other apart => ?_⟩
  · rw [alone, Machine.set_status_self]
  · rw [alone, Machine.set_status_of_ne _ _ apart]
    rfl

/-- A thread that is still absent is still to be created. -/
theorem Effect.pending (valid : machine.Valid program)
    (effect : Effect program machine choice next output) {child parent : Thread}
    (absent : next.status child = .absent) (member : child ∈ creates (machine.left program parent)) :
    child ∈ creates (next.left program parent) := by
  obtain ⟨mover, status, moves, spreads, _⟩ := effect.spreads
  obtain ⟨own, others⟩ := spreads.left valid
  by_cases same : parent = mover
  · subst same
    rw [own]
    cases moves with
    | @goes instr code at_ =>
        rw [left_of_status at_] at member
        unfold Status.left at member ⊢
        dsimp only at member ⊢
        rw [creates_cons] at member
        refine (List.mem_append.mp member).resolve_left fun now => ?_
        cases instr with
        | create other =>
            obtain rfl : child = other := by simpa [Instr.child?] using now
            rw [spreads.created at_] at absent
            cases absent
        | _ => simp [Instr.child?] at now
    | parks at_ =>
        rw [left_of_status at_] at member
        exact member
    | sleeps at_ => exact left_of_status at_ ▸ member
    | wakes at_ => exact left_of_status at_ ▸ member
    | relocks at_ => exact left_of_status at_ ▸ member
  · rwa [others parent same]

/-- The main thread has begun, and creates those that are still absent. -/
structure Machine.Spawning (program : Thread → Code Thread Text) (main : Thread)
    (machine : Machine Thread Text) : Prop where
  started : machine.status main ≠ .absent
  pending : ∀ thread, thread ≠ main → machine.status thread = .absent →
    thread ∈ creates (machine.left program main)

theorem Effect.spawning (valid : machine.Valid program)
    (effect : Effect program machine choice next output)
    (spawning : machine.Spawning program main) : next.Spawning program main :=
  ⟨fun absent => spawning.started (effect.not_absent absent), fun thread apart absent =>
    effect.pending valid absent (spawning.pending thread apart (effect.not_absent absent))⟩

/-- What becomes of the mutex when a thread moves on, and what the thread prints. -/
inductive Turn (program : Thread → Code Thread Text) (machine : Machine Thread Text)
    (thread : Thread) (status : Status Thread Text) : Option Thread → List Text → Prop where
  | takes : machine.owner = none → status.Holds →
      (∃ instr ∈ machine.left program thread, instr.quiet = false) →
      Turn program machine thread status (some thread) []
  | finishes : (machine.status thread).Holds → ¬ status.Holds →
      (∀ instr ∈ status.left (program thread), instr.quiet = true) →
      Turn program machine thread status none []
  | waits : (machine.status thread).Holds → ¬ status.Holds →
      prints (machine.left program thread) = prints (program thread) →
      Turn program machine thread status none []
  | speaks {text : Text} : (machine.status thread).Holds → status.Holds →
      Turn program machine thread status machine.owner [text]
  | keeps : ((machine.status thread).Holds ↔ status.Holds) →
      Turn program machine thread status machine.owner []

/-- The mutex is initialized only while no thread holds it. -/
def Steady (machine : Machine Thread Text) : Choice Thread → Prop
  | .act thread => (machine.status thread).inits = true → machine.owner = none
  | .wake _ => True

instance (machine : Machine Thread Text) : ∀ choice, Decidable (Steady machine choice)
  | .act thread =>
      inferInstanceAs (Decidable ((machine.status thread).inits = true → machine.owner = none))
  | .wake _ => .isTrue trivial

theorem Effect.turn (disciplined : Disciplined program main) (valid : machine.Valid program)
    (effect : Effect program machine choice next output) (steady : Steady machine choice) :
    ∃ thread status texts, Spreads program machine thread status next.status ∧
      Turn program machine thread status next.owner texts ∧
      output = texts.map (Prod.mk thread) ∧
      texts ++ prints (status.left (program thread)) = prints (machine.left program thread) := by
  have sectioned {thread : Thread} {code : Code Thread Text}
      (at_ : machine.status thread = .running code) := sectioned_of_running disciplined valid at_
  have silent {thread : Thread} {instr : Instr Thread Text} {code : Code Thread Text}
      (at_ : machine.status thread = .running (instr :: code)) (mute : instr.text? = none) :
      prints code = prints (machine.left program thread) := by
    rw [left_of_status at_]
    exact ((prints_cons instr code).trans (by rw [mute]; rfl)).symm
  -- an instruction that leaves the mutex alone
  have alike {thread : Thread} {instr : Instr Thread Text} {code : Code Thread Text}
      (at_ : machine.status thread = .running (instr :: code))
      (same : holds (instr :: code) = holds code) :
      (machine.status thread).Holds ↔ (Status.running code).Holds := by
    rw [at_]
    simp only [Status.Holds, same]
  cases effect with
  | print at_ =>
      have held := (sectioned at_).1
      exact ⟨_, .running _, [_], .alone (by simp [at_]), .speaks ((alike at_ rfl).mpr held) held, rfl,
        congrArg prints (left_of_status at_).symm⟩
  | lock at_ free =>
      exact ⟨_, .running _, [], .alone (by simp [at_]),
        .takes free (sectioned at_).1 ⟨.lock, left_of_status at_ ▸ List.mem_cons_self, rfl⟩, rfl,
        silent at_ rfl⟩
  | @relock thread code at_ free =>
      obtain ⟨rest, rfl⟩ := (valid.placed thread).asleep code (.inr at_)
      exact ⟨thread, .running _, [], .alone (by simp [at_]),
        .takes free rfl ⟨.await, left_of_status at_ ▸ List.mem_cons_self, rfl⟩, rfl,
        congrArg prints (left_of_status at_).symm⟩
  | unlock at_ =>
      have quiet := (sectioned at_).1
      refine ⟨_, .running _, [], .alone (by simp [at_]), .finishes (by rw [at_]; rfl) ?_ quiet, rfl,
        silent at_ rfl⟩
      unfold Status.Holds
      simp [holds_of_quiet quiet]
  | @initMutex thread code at_ =>
      have kept : Turn program machine thread (.running code) machine.owner [] :=
        .keeps (alike at_ rfl)
      rw [steady (by rw [at_]; rfl)] at kept
      exact ⟨thread, .running code, [], .alone (by simp [at_]), kept, rfl, silent at_ rfl⟩
  | park at_ _ =>
      exact ⟨_, .parked _, [], .alone (by simp [at_]), .keeps (alike at_ rfl), rfl, silent at_ rfl⟩
  | full at_ _ =>
      exact ⟨_, .running _, [], .release at_, .keeps (alike at_ rfl), rfl,
        silent at_ rfl⟩
  | pass at_ _ =>
      exact ⟨_, .running _, [], .alone (by simp [at_]), .keeps (alike at_ (sectioned at_).1.symm), rfl,
        silent at_ rfl⟩
  | @sleep thread code at_ _ =>
      have early := (valid.placed thread).early
      rw [at_] at early
      exact ⟨thread, .asleep _, [], .alone (by simp [at_]), .waits (by rw [at_]; rfl) id
        ((congrArg prints (left_of_status at_)).trans (early List.mem_cons_self)), rfl,
        congrArg prints (left_of_status at_).symm⟩
  | broadcast at_ =>
      exact ⟨_, .running _, [], .rouse at_ rfl, .keeps (alike at_ rfl), rfl, silent at_ rfl⟩
  | create at_ =>
      exact ⟨_, .running _, [], .create at_ rfl, .keeps (alike at_ rfl), rfl,
        silent at_ rfl⟩
  | wake at_ =>
      exact ⟨_, .woken _, [], .alone (by simp [at_]), .keeps (by rw [at_]; rfl), rfl,
        congrArg prints (left_of_status at_).symm⟩
  | initBarrier at_ =>
      exact ⟨_, .running _, [], .alone (by simp [at_]), .keeps (alike at_ rfl), rfl, silent at_ rfl⟩
  | raise at_ =>
      exact ⟨_, .running _, [], .alone (by simp [at_]), .keeps (alike at_ rfl), rfl, silent at_ rfl⟩
  | initCond at_ =>
      exact ⟨_, .running _, [], .alone (by simp [at_]), .keeps (alike at_ rfl), rfl, silent at_ rfl⟩
  | join at_ _ =>
      exact ⟨_, .running _, [], .alone (by simp [at_]), .keeps (alike at_ rfl), rfl, silent at_ rfl⟩

theorem Turn.owner (valid : machine.Valid program) {thread : Thread}
    {status : Status Thread Text} {owner : Option Thread} {texts : List Text}
    (turn : Turn program machine thread status owner texts) (other : Thread) :
    owner = some other ↔ ((machine.set thread status).status other).Holds := by
  have before := valid.owner other
  have taken (held : (machine.status thread).Holds) (apart : other ≠ thread) :
      ¬ (machine.status other).Holds := by
    rw [(valid.owner thread).mpr held] at before
    rw [← before]
    simp [Ne.symm apart]
  by_cases same : other = thread
  · subst same
    rw [Machine.set_status_self]
    cases turn with
    | takes _ held _ => simp [held]
    | finishes _ free _ => simp [free]
    | waits _ free _ => simp [free]
    | speaks held still => simp [before, held, still]
    | keeps alike => rw [before, alike]
  · rw [Machine.set_status_of_ne _ _ same]
    cases turn with
    | takes free _ _ =>
        rw [free] at before
        rw [← before]
        simp [Ne.symm same]
    | finishes held _ _ => simp [taken held same]
    | waits held _ _ => simp [taken held same]
    | speaks _ _ => exact before
    | keeps _ => exact before

/-- Every step from a valid state leads to one, unless it initializes a mutex that is
held. -/
theorem Effect.valid (disciplined : Disciplined program main) (valid : machine.Valid program)
    (effect : Effect program machine choice next output) (steady : Steady machine choice) :
    next.Valid program where
  placed := effect.placed disciplined valid.placed
  absent := effect.valid_absent disciplined valid
  owner other := by
    obtain ⟨thread, status, texts, spreads, turn, _⟩ := effect.turn disciplined valid steady
    rw [spreads.holds disciplined valid]
    exact turn.owner valid other

theorem left_initial (thread : Thread) :
    (Machine.initial program main).left program thread = program thread := by
  unfold Machine.left
  by_cases same : thread = main
  · rw [same, Machine.initial_status_main]
    rfl
  · rw [Machine.initial_status_of_ne _ same]
    rfl

theorem valid_initial (disciplined : Disciplined program main) :
    (Machine.initial program main).Valid program := by
  refine ⟨fun thread => ?_, fun thread child member => ?_, fun thread => ?_⟩
  · by_cases same : thread = main
    · rw [same, Machine.initial_status_main]
      exact .start _
    · rw [Machine.initial_status_of_ne _ same]
      exact .absent _
  · rw [left_initial] at member
    have apart : child ≠ main := fun same => disciplined.main thread (same ▸ member)
    exact Machine.initial_status_of_ne _ apart
  · by_cases same : thread = main
    · rw [same, Machine.initial_status_main]
      unfold Status.Holds
      simp [disciplined.idle, Machine.initial]
    · rw [Machine.initial_status_of_ne _ same]
      simp [Machine.initial, Status.Holds]

theorem spawning_initial (children : ∀ thread, thread ≠ main → thread ∈ creates (program main)) :
    (Machine.initial program main).Spawning program main := by
  refine ⟨by simp, fun thread apart _ => ?_⟩
  rw [left_initial]
  exact children thread apart

/-! ## What a step does to the sections -/

theorem orderly_initial : (Machine.initial program main).Orderly program [] [] [] := by
  refine ⟨.nil, by simp, by simp, fun thread _ _ => ?_, by simp [Machine.initial], fun _ => rfl, rfl⟩
  rw [left_initial]

/-- Each step adds to the section of the thread that holds the mutex, or ends it. -/
theorem Effect.orderly (disciplined : Disciplined program main) (valid : machine.Valid program)
    (effect : Effect program machine choice next output) (steady : Steady machine choice)
    {printed : Output Thread Text} {done : List Thread} {part : List Text}
    (orderly : machine.Orderly program printed done part) :
    ∃ done' part', next.Orderly program (printed ++ output) done' part' ∧
      (done' = done ∨ ∃ thread, next.owner = none ∧ done' = done ++ [thread]) := by
  obtain ⟨thread, status, texts, spreads, turn, rfl, spoken⟩ :=
    effect.turn disciplined valid steady
  obtain ⟨own, others⟩ := spreads.left valid
  have suffix := effect.left_suffix valid
  rw [← own] at spoken
  -- where nothing is printed, every thread has as much to print as before
  have mute (none : texts = []) (other : Thread) :
      prints (next.left program other) = prints (machine.left program other) := by
    by_cases same : other = thread
    · subst same
      rw [← spoken, none]
      rfl
    · rw [others other same]
  have silent : printed ++ ([] : List Text).map (Prod.mk thread) = printed := List.append_nil _
  generalize isOwner : next.owner = owner at turn
  cases turn with
  | keeps _ =>
      rw [silent]
      exact ⟨done, part, orderly.same isOwner suffix (mute rfl), .inl rfl⟩
  | takes free _ loud =>
      rw [silent]
      exact ⟨done, part, orderly.takes free isOwner suffix (mute rfl) loud, .inl rfl⟩
  | speaks held _ =>
      have holder := (valid.owner thread).mpr held
      exact ⟨done, _, orderly.speaks holder (isOwner.trans holder) suffix others spoken, .inl rfl⟩
  | finishes held _ quiet =>
      have holder := (valid.owner thread).mpr held
      rw [← own] at quiet
      have loud : ∃ instr ∈ program thread, instr.quiet = false := by
        obtain ⟨instr, inside, notQuiet⟩ := loud_of_holds held
        exact ⟨instr, (valid.placed thread).suffix.mem inside, notQuiet⟩
      rw [silent]
      exact ⟨_, [], orderly.finishes holder isOwner suffix (mute rfl) quiet loud,
        .inr ⟨thread, rfl, rfl⟩⟩
  | waits held _ untold =>
      have holder := (valid.owner thread).mpr held
      rw [silent]
      exact ⟨done, [], orderly.waits holder isOwner suffix (mute rfl) untold, .inl rfl⟩

/-! ## Runs -/

/-- The runs of the program in which the mutex is initialized only while it is free. -/
abbrev Session (program : Thread → Code Thread Text) (main : Thread) :=
  Run (Machine.step program) Steady (Machine.initial program main)

theorem session_orderly (disciplined : Disciplined program main) {choices : List (Choice Thread)}
    (session : Session program main choices output machine) :
    machine.Valid program ∧ ∃ done part, machine.Orderly program output done part := by
  refine @Run.invariant _ _ _ _ _ _ _ _ _ session (fun machine output =>
    machine.Valid program ∧ ∃ done part, machine.Orderly program output done part)
    ⟨valid_initial disciplined, [], [], orderly_initial⟩ ?_
  rintro machine next printed more choice ⟨valid, done, part, orderly⟩ steady stepped
  have effect := effect_of_step stepped
  obtain ⟨done', part', orderly', _⟩ := effect.orderly disciplined valid steady orderly
  exact ⟨effect.valid disciplined valid steady, done', part', orderly'⟩

/-- The mutex is initialized by the main thread, before it creates another. -/
def InitsEarly (program : Thread → Code Thread Text) (main : Thread) : Prop :=
  ∀ thread rest, .initMutex :: rest <:+ program thread →
    thread = main ∧ ∀ other, other ≠ main → other ∈ creates rest

theorem steady_of_initsEarly (disciplined : Disciplined program main)
    (early : InitsEarly program main) (valid : machine.Valid program) (choice : Choice Thread) :
    Steady machine choice := by
  cases choice with
  | wake thread => trivial
  | act thread =>
      intro inits
      obtain ⟨code, at_⟩ := Status.running_of_inits inits
      have own := (valid.placed thread).suffix
      rw [at_] at own
      obtain ⟨rfl, creates⟩ := early thread code own
      cases isOwner : machine.owner with
      | none => rfl
      | some holder =>
          have held := (valid.owner holder).mp isOwner
          by_cases isMain : holder = thread
          · subst isMain
            rw [at_] at held
            have free := (sectioned_of_running disciplined valid at_).1
            exact absurd (free.symm.trans held) (by simp)
          · have absent := valid.absent thread holder (by
              rw [left_of_status at_]
              exact creates holder isMain)
            rw [absent] at held
            exact held.elim

/-- Then every run is a session. -/
theorem session_of_run (disciplined : Disciplined program main) (early : InitsEarly program main)
    {choices : List (Choice Thread)}
    (run : Run (Machine.step program) (fun _ _ => True) (Machine.initial program main) choices output
      machine) : Session program main choices output machine := by
  induction run with
  | nil => exact .nil
  | snoc before _ stepped ih =>
      exact .snoc ih (steady_of_initsEarly disciplined early (session_orderly disciplined ih).1 _)
        stepped

theorem session_spawning (disciplined : Disciplined program main)
    (children : ∀ thread, thread ≠ main → thread ∈ creates (program main))
    {choices : List (Choice Thread)} (session : Session program main choices output machine) :
    machine.Spawning program main := by
  induction session with
  | nil => exact spawning_initial children
  | snoc before _ stepped ih =>
      exact (effect_of_step stepped).spawning (session_orderly disciplined before).1 ih

/-- When all threads have ended, each has printed all that it prints, one after the
other. -/
theorem Machine.Orderly.ended {done threads : List Thread} {part : List Text}
    (orderly : machine.Orderly program output done part) (free : machine.owner = none)
    (ended : ∀ thread, machine.status thread = .running []) (nodup : threads.Nodup)
    (loud : ∀ thread, (∃ instr ∈ program thread, instr.quiet = false) → thread ∈ threads)
    (speak : ∀ thread ∈ threads, prints (program thread) ≠ []) :
    done.Perm threads ∧ output = done.flatMap (said program) := by
  constructor
  · refine (List.perm_ext_iff_of_nodup orderly.nodup nodup).mpr fun thread =>
      ⟨fun member => loud thread (orderly.loud thread member), fun member => ?_⟩
    by_contra absent
    have untold := orderly.untold thread absent (by simp [free])
    rw [left_of_status (ended thread)] at untold
    exact speak thread member untold.symm
  · rw [orderly.output, free]
    exact List.append_nil _

end Runs

end OsPractices.Library
