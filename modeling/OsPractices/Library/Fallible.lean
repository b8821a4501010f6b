import Mathlib.Logic.Basic

/-!
# Total correctness of fallible computations

`Returns computation post` says that `computation` ends without a fault and
that its value satisfies `post`.
-/

set_option autoImplicit false

namespace OsPractices.Library

variable {Fault Value Result : Type}

@[simp] theorem ok_bind (value : Value) (continuation : Value → Except Fault Result) :
    (Except.ok value >>= continuation) = continuation value := rfl

@[simp] theorem error_bind (fault : Fault) (continuation : Value → Except Fault Result) :
    ((Except.error fault : Except Fault Value) >>= continuation) = .error fault := rfl

@[simp] theorem pure_eq_ok (value : Value) :
    (pure value : Except Fault Value) = .ok value := rfl

theorem bind_eq_ok_iff {source : Except Fault Value}
    {continuation : Value → Except Fault Result} {result : Result} :
    (source >>= continuation) = .ok result ↔
      ∃ value, source = .ok value ∧ continuation value = .ok result := by
  cases source with
  | error fault => simp
  | ok value => simp

theorem eq_ok_of_toOption {computation : Except Fault Value} {value : Value}
    (result : computation.toOption = some value) : computation = .ok value := by
  cases computation with
  | error fault => cases result
  | ok other => exact congrArg Except.ok (Option.some.inj result)

def Returns (computation : Except Fault Value) (post : Value → Prop) : Prop :=
  ∃ value, computation = .ok value ∧ post value

namespace Returns

theorem ok {value : Value} {post : Value → Prop} (holds : post value) :
    Returns (.ok value : Except Fault Value) post :=
  ⟨value, rfl, holds⟩

theorem of_eq {computation : Except Fault Value} {value : Value} {post : Value → Prop}
    (result : computation = .ok value) (holds : post value) : Returns computation post :=
  ⟨value, result, holds⟩

theorem bind {computation : Except Fault Value}
    {continuation : Value → Except Fault Result} {middle : Value → Prop} {post : Result → Prop}
    (first : Returns computation middle)
    (rest : ∀ value, middle value → Returns (continuation value) post) :
    Returns (computation >>= continuation) post := by
  obtain ⟨value, rfl, holds⟩ := first
  exact rest value holds

theorem mono {computation : Except Fault Value} {strong weak : Value → Prop}
    (returns : Returns computation strong) (implies : ∀ value, strong value → weak value) :
    Returns computation weak := by
  obtain ⟨value, result, holds⟩ := returns
  exact ⟨value, result, implies value holds⟩

end Returns

/-- `computation` ends with `fault`, or with a value that satisfies `post`. -/
def ReturnsOr (fault : Fault) (computation : Except Fault Value) (post : Value → Prop) : Prop :=
  computation = .error fault ∨ Returns computation post

namespace ReturnsOr

variable {fault : Fault} {computation : Except Fault Value} {middle post : Value → Prop}

theorem bind {continuation : Value → Except Fault Result} {last : Result → Prop}
    (first : ReturnsOr fault computation middle)
    (rest : ∀ value, middle value → ReturnsOr fault (continuation value) last) :
    ReturnsOr fault (computation >>= continuation) last := by
  cases first with
  | inl failed => exact .inl (by rw [failed, error_bind])
  | inr returned =>
      obtain ⟨value, result, holds⟩ := returned
      rw [result]
      exact rest value holds

theorem mono (returns : ReturnsOr fault computation middle)
    (implies : ∀ value, middle value → post value) : ReturnsOr fault computation post :=
  returns.imp_right fun returned => returned.mono implies

end ReturnsOr

end OsPractices.Library
