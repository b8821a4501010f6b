import Mathlib.Logic.Function.Basic
import OsPractices.Library.Runs

/-!
# Threads

Programs of threads that share a mutex, a barrier and a condition variable with
its flag, as the POSIX functions define them. A mutex that is initialized is free
again, whoever holds it. Any thread may be the next one to act, and a thread that
waits for the condition may be woken at any time.
-/

set_option autoImplicit false

namespace OsPractices.Library

inductive Instr (Thread Text : Type) where
  | print (text : Text)
  | lock
  | unlock
  | initMutex
  | arrive
  | initBarrier (count : Nat)
  /-- `while (!flag) pthread_cond_wait(&cond, &lock);` -/
  | await
  | raise
  | broadcast
  | initCond
  | create (thread : Thread)
  | join (thread : Thread)
  deriving DecidableEq, Repr

abbrev Code (Thread Text : Type) := List (Instr Thread Text)

/-- Where a thread stands, and the code that it has left. -/
inductive Status (Thread Text : Type) where
  | absent
  | running (code : Code Thread Text)
  | parked (code : Code Thread Text)
  | asleep (code : Code Thread Text)
  | woken (code : Code Thread Text)
  deriving DecidableEq, Repr

structure Machine (Thread Text : Type) where
  status : Thread → Status Thread Text
  owner : Option Thread
  flag : Bool
  barrier : Nat
  waiting : Nat

/-- What may happen next: a thread acts, or a waiting one is woken for no reason. -/
inductive Choice (Thread : Type) where
  | act (thread : Thread)
  | wake (thread : Thread)
  deriving DecidableEq, Repr

def Choice.isWake {Thread : Type} : Choice Thread → Bool
  | .act _ => false
  | .wake _ => true

/-- What has been printed, and by whom. -/
abbrev Output (Thread Text : Type) := List (Thread × Text)

variable {Thread Text : Type}

namespace Status

def release : Status Thread Text → Status Thread Text
  | .parked code => .running code
  | status => status

def rouse : Status Thread Text → Status Thread Text
  | .asleep code => .woken code
  | status => status

def finished : Status Thread Text → Bool
  | .running [] => true
  | _ => false

/-- The code that a thread with this program has left. -/
def left (program : Code Thread Text) : Status Thread Text → Code Thread Text
  | .absent => program
  | .running code | .parked code | .asleep code | .woken code => code

end Status

/-! ## Steps -/

namespace Machine

variable [DecidableEq Thread]

def initial (program : Thread → Code Thread Text) (main : Thread) : Machine Thread Text where
  status := Function.update (fun _ => .absent) main (.running (program main))
  owner := none
  flag := false
  barrier := 0
  waiting := 0

@[simp] theorem initial_status_main (program : Thread → Code Thread Text) (main : Thread) :
    (initial program main).status main = .running (program main) := by
  unfold initial
  dsimp only
  rw [Function.update_self]

@[simp] theorem initial_status_of_ne (program : Thread → Code Thread Text) {main thread : Thread}
    (apart : thread ≠ main) : (initial program main).status thread = .absent := by
  unfold initial
  dsimp only
  rw [Function.update_of_ne apart]

def set (machine : Machine Thread Text) (thread : Thread) (status : Status Thread Text) :
    Machine Thread Text :=
  { machine with status := Function.update machine.status thread status }

@[simp] theorem set_status_self (machine : Machine Thread Text) (thread : Thread)
    (status : Status Thread Text) : (machine.set thread status).status thread = status :=
  Function.update_self ..

@[simp] theorem set_status_of_ne (machine : Machine Thread Text) {thread other : Thread}
    (status : Status Thread Text) (apart : other ≠ thread) :
    (machine.set thread status).status other = machine.status other :=
  Function.update_of_ne apart ..

@[simp] theorem set_flag (machine : Machine Thread Text) (thread : Thread)
    (status : Status Thread Text) : (machine.set thread status).flag = machine.flag := rfl

variable (program : Thread → Code Thread Text)

/-- One instruction of a thread that runs, unless it has to wait. -/
def execute (machine : Machine Thread Text) (thread : Thread) (code : Code Thread Text) :
    Instr Thread Text → Option (Machine Thread Text × Output Thread Text)
  | .print text => some (machine.set thread (.running code), [(thread, text)])
  | .lock =>
      if machine.owner = none then
        some ({ machine.set thread (.running code) with owner := some thread }, [])
      else none
  | .unlock | .initMutex => some ({ machine.set thread (.running code) with owner := none }, [])
  | .arrive =>
      if machine.waiting + 1 = machine.barrier then
        some ({ machine with
          status := fun other =>
            (Function.update machine.status thread (.running code) other).release
          waiting := 0 }, [])
      else some ({ machine.set thread (.parked code) with waiting := machine.waiting + 1 }, [])
  | .initBarrier count => some ({ machine.set thread (.running code) with barrier := count }, [])
  | .await =>
      if machine.flag then some (machine.set thread (.running code), [])
      else some ({ machine.set thread (.asleep (.await :: code)) with owner := none }, [])
  | .raise => some ({ machine.set thread (.running code) with flag := true }, [])
  | .broadcast =>
      some ({ machine with
        status := fun other =>
          (Function.update machine.status thread (.running code) other).rouse }, [])
  | .initCond => some (machine.set thread (.running code), [])
  | .create other =>
      some ((machine.set thread (.running code)).set other (.running (program other)), [])
  | .join other =>
      if (machine.status other).finished then some (machine.set thread (.running code), [])
      else none

def act (machine : Machine Thread Text) (thread : Thread) :
    Option (Machine Thread Text × Output Thread Text) :=
  match machine.status thread with
  | .running (instr :: code) => machine.execute program thread code instr
  | .woken code =>
      if machine.owner = none then
        some ({ machine.set thread (.running code) with owner := some thread }, [])
      else none
  | _ => none

def wake (machine : Machine Thread Text) (thread : Thread) :
    Option (Machine Thread Text × Output Thread Text) :=
  match machine.status thread with
  | .asleep code => some (machine.set thread (.woken code), [])
  | _ => none

def step (machine : Machine Thread Text) :
    Choice Thread → Option (Machine Thread Text × Output Thread Text)
  | .act thread => machine.act program thread
  | .wake thread => machine.wake thread

end Machine

/-! ## What a step does -/

section Effects

variable [DecidableEq Thread] {program : Thread → Code Thread Text}

/-- What a step may do, instruction by instruction. -/
inductive Effect (program : Thread → Code Thread Text) (machine : Machine Thread Text) :
    Choice Thread → Machine Thread Text → Output Thread Text → Prop where
  | print {thread : Thread} {code : Code Thread Text} {text : Text} :
      machine.status thread = .running (.print text :: code) →
      Effect program machine (.act thread) (machine.set thread (.running code)) [(thread, text)]
  | lock {thread : Thread} {code : Code Thread Text} :
      machine.status thread = .running (.lock :: code) → machine.owner = none →
      Effect program machine (.act thread)
        { machine.set thread (.running code) with owner := some thread } []
  | relock {thread : Thread} {code : Code Thread Text} :
      machine.status thread = .woken code → machine.owner = none →
      Effect program machine (.act thread)
        { machine.set thread (.running code) with owner := some thread } []
  | unlock {thread : Thread} {code : Code Thread Text} :
      machine.status thread = .running (.unlock :: code) →
      Effect program machine (.act thread)
        { machine.set thread (.running code) with owner := none } []
  | initMutex {thread : Thread} {code : Code Thread Text} :
      machine.status thread = .running (.initMutex :: code) →
      Effect program machine (.act thread)
        { machine.set thread (.running code) with owner := none } []
  | park {thread : Thread} {code : Code Thread Text} :
      machine.status thread = .running (.arrive :: code) →
      machine.waiting + 1 ≠ machine.barrier →
      Effect program machine (.act thread)
        { machine.set thread (.parked code) with waiting := machine.waiting + 1 } []
  | full {thread : Thread} {code : Code Thread Text} :
      machine.status thread = .running (.arrive :: code) →
      machine.waiting + 1 = machine.barrier →
      Effect program machine (.act thread)
        { machine with
          status := fun other =>
            (Function.update machine.status thread (.running code) other).release
          waiting := 0 } []
  | initBarrier {thread : Thread} {code : Code Thread Text} {count : Nat} :
      machine.status thread = .running (.initBarrier count :: code) →
      Effect program machine (.act thread)
        { machine.set thread (.running code) with barrier := count } []
  | pass {thread : Thread} {code : Code Thread Text} :
      machine.status thread = .running (.await :: code) → machine.flag = true →
      Effect program machine (.act thread) (machine.set thread (.running code)) []
  | sleep {thread : Thread} {code : Code Thread Text} :
      machine.status thread = .running (.await :: code) → machine.flag = false →
      Effect program machine (.act thread)
        { machine.set thread (.asleep (.await :: code)) with owner := none } []
  | raise {thread : Thread} {code : Code Thread Text} :
      machine.status thread = .running (.raise :: code) →
      Effect program machine (.act thread)
        { machine.set thread (.running code) with flag := true } []
  | broadcast {thread : Thread} {code : Code Thread Text} :
      machine.status thread = .running (.broadcast :: code) →
      Effect program machine (.act thread)
        { machine with
          status := fun other =>
            (Function.update machine.status thread (.running code) other).rouse } []
  | initCond {thread : Thread} {code : Code Thread Text} :
      machine.status thread = .running (.initCond :: code) →
      Effect program machine (.act thread) (machine.set thread (.running code)) []
  | create {thread other : Thread} {code : Code Thread Text} :
      machine.status thread = .running (.create other :: code) →
      Effect program machine (.act thread)
        ((machine.set thread (.running code)).set other (.running (program other))) []
  | join {thread other : Thread} {code : Code Thread Text} :
      machine.status thread = .running (.join other :: code) →
      (machine.status other).finished = true →
      Effect program machine (.act thread) (machine.set thread (.running code)) []
  | wake {thread : Thread} {code : Code Thread Text} :
      machine.status thread = .asleep code →
      Effect program machine (.wake thread) (machine.set thread (.woken code)) []

theorem effect_of_step {machine next : Machine Thread Text} {choice : Choice Thread}
    {output : Output Thread Text} (stepped : machine.step program choice = some (next, output)) :
    Effect program machine choice next output := by
  cases choice with
  | wake thread =>
      dsimp only [Machine.step, Machine.wake] at stepped
      split at stepped
      case h_1 code at_ =>
        cases stepped
        exact .wake at_
      case h_2 => cases stepped
  | act thread =>
      dsimp only [Machine.step, Machine.act] at stepped
      split at stepped
      case h_1 instr code at_ =>
        cases instr
        all_goals simp only [Machine.execute, Option.some.injEq, Prod.mk.injEq,
          Option.ite_none_right_eq_some] at stepped
        case lock =>
          obtain ⟨free, rfl, rfl⟩ := stepped
          exact .lock at_ free
        case join =>
          obtain ⟨finished, rfl, rfl⟩ := stepped
          exact .join at_ finished
        case arrive =>
          split at stepped
          case isTrue last =>
            cases stepped
            exact .full at_ last
          case isFalse more =>
            cases stepped
            exact .park at_ more
        case await =>
          split at stepped
          case isTrue raised =>
            cases stepped
            exact .pass at_ raised
          case isFalse lowered =>
            cases stepped
            exact .sleep at_ (Bool.eq_false_iff.mpr lowered)
        all_goals obtain ⟨rfl, rfl⟩ := stepped
        exacts [.print at_, .unlock at_, .initMutex at_, .initBarrier at_, .raise at_,
          .broadcast at_, .initCond at_, .create at_]
      case h_2 code at_ =>
        obtain ⟨free, same⟩ := Option.ite_none_right_eq_some.mp stepped
        cases same
        exact .relock at_ free
      case h_3 => cases stepped

end Effects

end OsPractices.Library
