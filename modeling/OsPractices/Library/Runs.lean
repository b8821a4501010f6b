import Mathlib.Data.List.Induction
import Mathlib.Logic.Basic

/-!
# Runs of a transition system

A system is a step function that may refuse an action and that emits outputs.
`Run` collects the runs whose actions a condition allows, and `Run.invariant`
is the induction over them.
-/

set_option autoImplicit false

namespace OsPractices.Library

variable {State Action Output : Type}

/-- From `start`, the actions lead to a state and emit the outputs; each action
is allowed in the state it is taken in. -/
inductive Run (step : State → Action → Option (State × List Output))
    (allowed : State → Action → Prop) (start : State) :
    List Action → List Output → State → Prop where
  | nil : Run step allowed start [] [] start
  | snoc {actions : List Action} {outputs more : List Output} {state next : State}
      {action : Action} :
      Run step allowed start actions outputs state → allowed state action →
      step state action = some (next, more) →
      Run step allowed start (actions ++ [action]) (outputs ++ more) next

namespace Run

variable {step : State → Action → Option (State × List Output)}
  {allowed : State → Action → Prop} {start : State}

/-- What holds at the start and is kept by every allowed step holds after
every run. -/
theorem invariant {actions : List Action} {outputs : List Output} {state : State}
    (run : Run step allowed start actions outputs state) {kept : State → List Output → Prop}
    (first : kept start [])
    (each : ∀ {state next : State} {outputs more : List Output} {action : Action},
      kept state outputs → allowed state action → step state action = some (next, more) →
      kept next (outputs ++ more)) :
    kept state outputs := by
  induction run with
  | nil => exact first
  | snoc _ ok stepped ih => exact each ih ok stepped

/-- The last step of a run. -/
theorem of_snoc {actions : List Action} {action : Action} {outputs : List Output} {state : State}
    (run : Run step allowed start (actions ++ [action]) outputs state) :
    ∃ middle earlier more, Run step allowed start actions earlier middle ∧
      allowed middle action ∧ step middle action = some (state, more) ∧
      outputs = earlier ++ more := by
  generalize whole : actions ++ [action] = taken at run
  cases run with
  | nil => simp at whole
  | snoc earlier ok stepped =>
      obtain ⟨rfl, rfl⟩ := List.append_singleton_inj.mp whole
      exact ⟨_, _, _, earlier, ok, stepped, rfl⟩

/-- A run has come by the state that its first actions lead to. -/
theorem split {first second : List Action} {outputs : List Output} {state : State}
    (run : Run step allowed start (first ++ second) outputs state) :
    ∃ middle before after, Run step allowed start first before middle ∧
      Run step allowed middle second after state ∧ outputs = before ++ after := by
  induction second using List.reverseRecOn generalizing outputs state with
  | nil => exact ⟨state, outputs, [], List.append_nil first ▸ run, .nil, (List.append_nil _).symm⟩
  | append_singleton second action ih =>
      rw [← List.append_assoc] at run
      obtain ⟨last, earlier, more, shorter, ok, stepped, rfl⟩ := run.of_snoc
      obtain ⟨middle, before, after, there, rest, rfl⟩ := ih shorter
      exact ⟨middle, before, after ++ more, there, rest.snoc ok stepped, List.append_assoc ..⟩

/-- The actions determine where a run leads and what it emits. -/
theorem deterministic {actions : List Action} {outputs others : List Output}
    {state other : State} (run : Run step allowed start actions outputs state)
    (second : Run step allowed start actions others other) : outputs = others ∧ state = other := by
  induction run generalizing others other with
  | nil =>
      generalize none : ([] : List Action) = taken at second
      cases second with
      | nil => exact ⟨rfl, rfl⟩
      | snoc => simp at none
  | snoc _ _ stepped ih =>
      obtain ⟨middle, earlier, more, before, _, stepped', rfl⟩ := second.of_snoc
      obtain ⟨rfl, rfl⟩ := ih before
      cases stepped.symm.trans stepped'
      exact ⟨rfl, rfl⟩

theorem mono {weak strong : State → Action → Prop} {actions : List Action}
    {outputs : List Output} {state : State} (run : Run step strong start actions outputs state)
    (implies : ∀ state action, strong state action → weak state action) :
    Run step weak start actions outputs state := by
  induction run with
  | nil => exact .nil
  | snoc _ ok stepped ih => exact .snoc ih (implies _ _ ok) stepped

/-- Execute a list of actions. -/
def exec (step : State → Action → Option (State × List Output)) (state : State) :
    List Action → Option (State × List Output)
  | [] => some (state, [])
  | action :: actions =>
      match step state action with
      | none => none
      | some (next, more) =>
          (exec step next actions).map fun (last, outputs) => (last, more ++ outputs)

theorem cons {action : Action} {next state : State} {more outputs : List Output}
    {actions : List Action} (ok : allowed start action)
    (stepped : step start action = some (next, more))
    (run : Run step allowed next actions outputs state) :
    Run step allowed start (action :: actions) (more ++ outputs) state := by
  induction run with
  | nil =>
      have single : Run step allowed start ([] ++ [action]) ([] ++ more) _ := .snoc .nil ok stepped
      simpa using single
  | snoc _ later laterStep ih =>
      have longer := Run.snoc ih later laterStep
      simpa using longer

theorem of_exec {actions : List Action} {outputs : List Output} {state : State}
    (executed : exec step start actions = some (state, outputs)) :
    Run step (fun _ _ => True) start actions outputs state := by
  induction actions generalizing start outputs with
  | nil =>
      simp only [exec, Option.some.injEq, Prod.mk.injEq] at executed
      obtain ⟨rfl, rfl⟩ := executed
      exact .nil
  | cons action actions ih =>
      unfold exec at executed
      cases stepped : step start action with
      | none => simp [stepped] at executed
      | some result =>
          obtain ⟨next, more⟩ := result
          simp only [stepped] at executed
          cases rest : exec step next actions with
          | none => simp [rest] at executed
          | some last =>
              obtain ⟨last, later⟩ := last
              simp only [rest, Option.map_some, Option.some.injEq, Prod.mk.injEq] at executed
              obtain ⟨rfl, rfl⟩ := executed
              exact (ih rest).cons trivial stepped

/-- The system that also refuses what is not allowed. -/
def guarded (step : State → Action → Option (State × List Output))
    (allowed : State → Action → Prop) [∀ state action, Decidable (allowed state action)]
    (state : State) (action : Action) : Option (State × List Output) :=
  if allowed state action then step state action else none

theorem of_exec_guarded [∀ state action, Decidable (allowed state action)]
    {actions : List Action} {outputs : List Output} {state : State}
    (executed : exec (guarded step allowed) start actions = some (state, outputs)) :
    Run step allowed start actions outputs state := by
  have run := of_exec executed
  clear executed
  induction run with
  | nil => exact .nil
  | snoc _ _ stepped ih =>
      simp only [guarded, Option.ite_none_right_eq_some] at stepped
      exact ih.snoc stepped.1 stepped.2

/-- The run with given outputs, where only these can be compared. -/
theorem of_outputs [∀ state action, Decidable (allowed state action)] {actions : List Action}
    {outputs : List Output}
    (executed : (exec (guarded step allowed) start actions).map Prod.snd = some outputs) :
    ∃ state, Run step allowed start actions outputs state := by
  obtain ⟨⟨state, emitted⟩, ends, rfl⟩ := Option.map_eq_some_iff.mp executed
  exact ⟨state, of_exec_guarded ends⟩

end Run

end OsPractices.Library
