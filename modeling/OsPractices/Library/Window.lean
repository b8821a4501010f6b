import Mathlib.Data.List.Induction
import OsPractices.Library.History

/-!
# The recent part of a history

A window keeps the last items of a history, at most `bound` of them. Where every
item is new to the window it comes after, the items of a window are apart, and
what comes again comes only behind `bound` others.
-/

set_option autoImplicit false

namespace OsPractices.Library

variable {Item : Type} {bound : Nat}

/-- The last items of a history. -/
def recent (bound : Nat) (history : List Item) : List Item :=
  history.drop (history.length - bound)

theorem length_recent (bound : Nat) (history : List Item) :
    (recent bound history).length = min history.length bound := by
  simp only [recent, List.length_drop]
  omega

theorem recent_suffix (bound : Nat) (history : List Item) : recent bound history <:+ history :=
  List.drop_suffix _ _

/-- What is long enough hides what came before it. -/
theorem recent_append (before : List Item) {last : List Item} (long : bound ≤ last.length) :
    recent bound (before ++ last) = recent bound last := by
  unfold recent
  rw [List.length_append, Nat.add_sub_assoc long, List.drop_length_add_append]

/-- What is short enough is still there. -/
theorem suffix_recent {before last : List Item} (short : last.length ≤ bound) :
    last <:+ recent bound (before ++ last) := by
  apply List.suffix_of_suffix_length_le (List.suffix_append before last) (recent_suffix bound _)
  rw [length_recent, List.length_append]
  omega

/-- A window moves on without the history behind it. -/
theorem recent_push (history : List Item) (item : Item) :
    recent bound (recent bound history ++ [item]) = recent bound (history ++ [item]) := by
  cases Nat.lt_or_ge history.length bound with
  | inl short =>
      have whole : recent bound history = history := by
        rw [recent, Nat.sub_eq_zero_of_le (Nat.le_of_lt short), List.drop_zero]
      rw [whole]
  | inr long =>
      have enough : bound ≤ (recent bound history ++ [item]).length := by
        simp only [List.length_append, length_recent]
        omega
      obtain ⟨before, split⟩ := recent_suffix bound history
      have moved := recent_append before enough
      rw [← List.append_assoc, split] at moved
      exact moved.symm

/-- Each item is apart from those in the window it comes after. -/
def Fresh (same : Item → Item → Prop) (bound : Nat) (history : List Item) : Prop :=
  Explained (fun before item => ∀ other ∈ recent bound before, ¬ same other item) history

namespace Fresh

variable {same : Item → Item → Prop}

theorem pairwise {history : List Item} (fresh : Fresh same bound history) :
    (recent bound history).Pairwise fun other item => ¬ same other item := by
  induction history using List.reverseRecOn with
  | nil => simp [recent]
  | append_singleton history item ih =>
      obtain ⟨earlier, new⟩ := Explained.snoc.mp fresh
      rw [← recent_push]
      apply List.Pairwise.sublist (recent_suffix bound _).sublist
      exact List.pairwise_append.mpr
        ⟨ih earlier, List.pairwise_singleton _ _, by simpa using new⟩

/-- Between an item and one that is the same come at least `bound` others. -/
theorem gap [DecidableRel same] {before between after : List Item} {first second : Item}
    (fresh : Fresh same bound (before ++ first :: between ++ second :: after))
    (again : same first second) :
    bound ≤ (between.filter fun item => ¬ same item second).length := by
  have new := fresh (before ++ first :: between) second after rfl
  cases Nat.lt_or_ge between.length bound with
  | inl short =>
      have inside : first ∈ recent bound (before ++ first :: between) :=
        (suffix_recent short).subset List.mem_cons_self
      exact absurd again (new first inside)
  | inr long =>
      rw [List.append_cons, recent_append _ long] at new
      have kept := ((recent_suffix bound between).sublist.filter
        fun item => ¬ same item second).length_le
      have all : (recent bound between).filter (fun item => ¬ same item second) =
          recent bound between := List.filter_eq_self.mpr (by simpa using new)
      rw [all, length_recent, Nat.min_eq_right long] at kept
      exact kept

end Fresh

end OsPractices.Library
