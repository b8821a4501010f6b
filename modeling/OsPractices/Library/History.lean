import Mathlib.Data.List.Basic

/-!
# Histories explained by their past

A law says of an event whether it may come after what came before. A history
keeps a law if each of its events does.
-/

set_option autoImplicit false

namespace OsPractices.Library

variable {Event : Type}

/-- Each event of a history is lawful after the events before it. -/
def Explained (law : List Event → Event → Prop) (history : List Event) : Prop :=
  ∀ before event after, history = before ++ event :: after → law before event

namespace Explained

variable {law : List Event → Event → Prop}

theorem nil : Explained law [] := by
  intro before event after same
  simp at same

theorem mono {weaker : List Event → Event → Prop} {history : List Event}
    (explained : Explained law history)
    (implies : ∀ before event, law before event → weaker before event) :
    Explained weaker history := fun before event after same =>
  implies before event (explained before event after same)

theorem snoc {history : List Event} {event : Event} :
    Explained law (history ++ [event]) ↔ Explained law history ∧ law history event := by
  constructor
  · intro explained
    refine ⟨fun before other after same => ?_, explained history event [] rfl⟩
    exact explained before other (after ++ [event]) (by simp [same])
  · rintro ⟨explained, lawful⟩ before other after same
    rcases List.eq_nil_or_concat after with rfl | ⟨rest, last, rfl⟩
    · obtain ⟨rfl, rfl⟩ := List.append_singleton_inj.mp same
      exact lawful
    · have split : history ++ [event] = (before ++ other :: rest) ++ [last] := by simp [same]
      obtain ⟨rfl, _⟩ := List.append_singleton_inj.mp split
      exact explained before other rest rfl

theorem prefix_of_append {history more : List Event} (explained : Explained law (history ++ more)) :
    Explained law history := by
  intro before event after same
  exact explained before event (after ++ more) (by simp [same])

end Explained

end OsPractices.Library
