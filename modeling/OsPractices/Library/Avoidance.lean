import OsPractices.Library.Fallible

/-!
# Faults that do not occur

`Avoids fault computation post` says that `computation` does not end with `fault`;
it may end with another one, or with a value that satisfies `post`.
-/

set_option autoImplicit false

namespace OsPractices.Library

variable {Fault Value Result : Type}

structure Avoids (fault : Fault) (computation : Except Fault Value) (post : Value → Prop) :
    Prop where
  not_fault : computation ≠ .error fault
  value : ∀ value, computation = .ok value → post value

namespace Avoids

variable {fault : Fault} {computation : Except Fault Value} {middle post : Value → Prop}

theorem ok {value : Value} (holds : post value) :
    Avoids fault (.ok value : Except Fault Value) post := by
  refine ⟨fun same => (nomatch same), fun other same => ?_⟩
  cases same
  exact holds

theorem error {other : Fault} (different : other ≠ fault) :
    Avoids fault (.error other : Except Fault Value) post :=
  ⟨fun same => different (Except.error.inj same), fun _ same => (nomatch same)⟩

theorem bind {continuation : Value → Except Fault Result} {last : Result → Prop}
    (first : Avoids fault computation middle)
    (rest : ∀ value, middle value → Avoids fault (continuation value) last) :
    Avoids fault (computation >>= continuation) last := by
  cases computation with
  | error other => exact .error fun same => first.not_fault (congrArg Except.error same)
  | ok value => exact rest value (first.value value rfl)

theorem of_returns (returns : Returns computation post) : Avoids fault computation post := by
  obtain ⟨value, result, holds⟩ := returns
  rw [result]
  exact .ok holds

end Avoids

/-- A loop avoids what its body avoids, and keeps what it keeps. -/
theorem Avoids.foldlM {Item State : Type} {fault : Fault} {step : State → Item → Except Fault State}
    {Keeps : State → Prop} {items : List Item} {state : State} (keeps : Keeps state)
    (each : ∀ item ∈ items, ∀ state, Keeps state → Avoids fault (step state item) Keeps) :
    Avoids fault (items.foldlM step state) Keeps := by
  induction items generalizing state with
  | nil => exact .ok keeps
  | cons item items ih =>
      rw [List.foldlM_cons]
      exact (each item List.mem_cons_self state keeps).bind fun next keeps' =>
        ih keeps' fun other member => each other (List.mem_cons_of_mem item member)

end OsPractices.Library
