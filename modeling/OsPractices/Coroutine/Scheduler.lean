import OsPractices.Coroutine.Api
import OsPractices.Library.OnceInit

/-!
# The scheduler is created once

`co_scheduler_init`, which every call of the kit begins with, at the level of the
lock `_co_scheduler_lock`: for any number of threads that call it any number of
times, in any order.
-/

set_option autoImplicit false

namespace OsPractices.Coroutine

open Library

/-- What `co_scheduler_init` assigns. -/
inductive SchedulerPart where
  /-- `_co_scheduler`, to what `malloc` returns -/
  | scheduler
  | tinfoLock
  | cinfoLock
  | tinfo
  | cinfo
  deriving DecidableEq, Repr

def creation : Recipe SchedulerPart := ⟨.scheduler, [.tinfoLock, .cinfoLock, .tinfo, .cinfo]⟩

abbrev SchedulerState (Tid : Type) := InitState Tid SchedulerPart

/-- What a thread does next in its call of `co_scheduler_init`. -/
def coSchedulerInit {Tid : Type} [DecidableEq Tid] (state : SchedulerState Tid) (tid : Tid) :
    Option (SchedulerState Tid × List (InitOutput Tid SchedulerPart)) := state.step creation tid

/-- The process that the other calls see. -/
def SchedulerState.process {Tid : Type} (state : SchedulerState Tid) : Process :=
  { Process.create with scheduler := decide (state.assigned = creation.parts) }

variable {Tid : Type}

/-- What is promised of a run: each part is assigned once, in the order of the code;
a call that returns has found or made the whole scheduler, as if it had been created
at once; while a thread creates it no other holds the lock; a call that waits for the
lock waits for one that can go on; and no call takes more than eleven steps, so that of
any eleven steps of a thread one returns. -/
structure CreatedOnce [DecidableEq Tid] (tids : List Tid)
    (outputs : List (InitOutput Tid SchedulerPart)) (state : SchedulerState Tid) : Prop where
  once : assignments outputs <+: creation.parts
  whole : ∀ tid, .returned tid ∈ outputs →
    assignments outputs = creation.parts ∧ state.process = Process.create.init
  alone : ∀ tid rest, state.phase tid = .building rest → ∀ other, other ≠ tid →
    (state.phase other).reads = false ∧ (state.phase other).writes = false
  waits : ∀ tid, coSchedulerInit state tid = none → ∃ holder, coSchedulerInit state holder ≠ none
  bounded : ∀ tid earlier during, tids = earlier ++ during → 11 ≤ during.count tid →
    ∃ middle before after, Run coSchedulerInit (fun _ _ => True) .initial earlier before middle ∧
      outputs = before ++ after ∧ .returned tid ∈ after

theorem coSchedulerInit_once [DecidableEq Tid] {tids : List Tid}
    {outputs : List (InitOutput Tid SchedulerPart)} {state : SchedulerState Tid}
    (run : Run coSchedulerInit (fun _ _ => True) .initial tids outputs state) :
    CreatedOnce tids outputs state := by
  have sound := InitState.sound_of_run run
  constructor
  case once =>
    rw [sound.history]
    exact sound.assigned_prefix
  case whole =>
    intro tid returned
    have whole := sound.returned tid returned
    refine ⟨sound.history.trans whole, ?_⟩
    simp [SchedulerState.process, Process.init, whole]
  case alone =>
    intro tid rest building other apart
    have writes : (state.phase tid).writes = true := by
      rw [building]
      rfl
    refine ⟨sound.locked.no_reader writes other, ?_⟩
    rw [← Bool.not_eq_true]
    exact fun also => apart (sound.locked.only_writer writes also)
  case waits => exact fun tid stuck => sound.locked.acts creation stuck
  case bounded =>
    intro tid earlier during parts many
    subst parts
    exact InitState.returns_within run tid many

/-- Two threads find no scheduler; the second to get the lock finds that of the first. -/
def bothLook : List Bool :=
  [true, false, true, false, true, false] ++ List.replicate 8 true ++ List.replicate 3 false

theorem coSchedulerInit_once_race : ∃ state : SchedulerState Bool, CreatedOnce bothLook
    (creation.parts.map .assigned ++ [.returned true, .returned false]) state := by
  obtain ⟨state, run⟩ := @Run.of_outputs _ _ _ (@coSchedulerInit Bool _) (fun _ _ => True)
    .initial _ bothLook (creation.parts.map .assigned ++ [.returned true, .returned false])
    (by decide)
  exact ⟨state, coSchedulerInit_once run⟩

end OsPractices.Coroutine
