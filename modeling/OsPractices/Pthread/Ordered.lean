import Mathlib.Data.Fintype.Option
import OsPractices.Library.Signals
import OsPractices.Pthread.Code

/-!
# A thread that goes first

Task 4, with any number of threads: the thread with the last number greets before the
others, which follow one after the other in any order. The run can always go on
until all threads have ended.
-/

set_option autoImplicit false

namespace OsPractices.Pthread

open Library

variable {count : Nat}

def texts (thr : Fin (count + 1)) : List String := thisIsThread thr :: helloWorld

theorem task4_last : Task4.program count (some (Task4.lastThread count)) =
    .lock :: (printAll (texts (Task4.lastThread count)) ++ [.raise, .unlock, .broadcast]) := by
  simp [Task4.program, Task4.thread1, texts]

theorem task4_other {thr : Fin (count + 1)} (other : thr ≠ Task4.lastThread count) :
    Task4.program count (some thr) =
      .lock :: .await :: (printAll (texts thr) ++ [.unlock]) := by
  simp [Task4.program, Task4.thread1, texts, other]

theorem task4_main : Task4.program count none =
    .initCond :: .initMutex :: (createAll (count + 1) ++ joinAll (count + 1)) := rfl

theorem task4_mem_main {instr : Instr (Tid (count + 1)) String}
    (member : instr ∈ Task4.program count none) :
    instr = .initCond ∨ instr = .initMutex ∨ (∃ thr, instr = .create (some thr)) ∨
      ∃ thr, instr = .join (some thr) := by
  simp only [task4_main, createAll, joinAll, List.mem_cons, List.mem_append, List.mem_map] at member
  rcases member with first | second | ⟨thr, _, rfl⟩ | ⟨thr, _, rfl⟩
  · exact .inl first
  · exact .inr (.inl second)
  · exact .inr (.inr (.inl ⟨thr, rfl⟩))
  · exact .inr (.inr (.inr ⟨thr, rfl⟩))

theorem task4_main_quiet {instr : Instr (Tid (count + 1)) String}
    (member : instr ∈ Task4.program count none) : instr.quiet = true := by
  rcases task4_mem_main member with rfl | rfl | ⟨thr, rfl⟩ | ⟨thr, rfl⟩ <;> rfl

theorem task4_mem_thread {thr : Fin (count + 1)} {instr : Instr (Tid (count + 1)) String}
    (member : instr ∈ Task4.program count (some thr)) :
    instr ∈ [.lock, .await, .raise, .unlock, .broadcast] ∨ ∃ text, instr = .print text := by
  by_cases isLast : thr = Task4.lastThread count
  · subst isLast
    simp only [task4_last, printAll, List.mem_cons, List.mem_append, List.mem_map] at member ⊢
    grind
  · simp only [task4_other isLast, printAll, List.mem_cons, List.mem_append, List.mem_map] at member ⊢
    grind

@[simp] theorem task4_creates_main :
    creates (Task4.program count none) = (List.finRange (count + 1)).map some := by
  rw [task4_main, creates_cons, creates_cons, creates_append, creates_createAll, creates_joinAll]
  simp [Instr.child?]

@[simp] theorem task4_creates_thread (thr : Fin (count + 1)) :
    creates (Task4.program count (some thr)) = [] := by
  by_cases isLast : thr = Task4.lastThread count
  · subst isLast
    rw [task4_last, creates_cons, creates_append, printAll, creates_map_print]
    rfl
  · rw [task4_other isLast, creates_cons, creates_cons, creates_append, printAll, creates_map_print]
    rfl

@[simp] theorem task4_prints_thread (thr : Fin (count + 1)) :
    prints (Task4.program count (some thr)) = texts thr := by
  by_cases isLast : thr = Task4.lastThread count
  · subst isLast
    rw [task4_last, prints_cons, prints_append, printAll, prints_map_print]
    exact List.append_nil _
  · rw [task4_other isLast, prints_cons, prints_cons, prints_append, printAll, prints_map_print]
    exact List.append_nil _

theorem task4_disciplined : Disciplined (Task4.program count) none := by
  refine disciplined_of_main (fun thread => ?_) (fun thread => ?_) (fun thread apart => ?_)
    ?_ (by simp)
  · cases thread with
    | none => exact sectioned_of_quiet fun _ => task4_main_quiet
    | some thr =>
        by_cases isLast : thr = Task4.lastThread count
        · subst isLast
          rw [task4_last]
          exact ⟨holds_map_print _ _,
            sectioned_map_print _ rfl (by simp) ⟨by simp [Instr.quiet], trivial⟩⟩
        · rw [task4_other isLast]
          exact ⟨rfl, holds_map_print _ _, sectioned_map_print _ rfl (by simp) ⟨by simp, trivial⟩⟩
  · cases thread with
    | none => exact holds_of_quiet fun _ => task4_main_quiet
    | some thr => rfl
  · cases thread with
    | none => exact absurd rfl apart
    | some thr => exact task4_creates_thread thr
  · rw [task4_creates_main]
    exact (List.nodup_finRange _).map (Option.some_injective _)

theorem task4_initsEarly : InitsEarly (Task4.program count) none := by
  intro thread rest suffix
  cases thread with
  | none =>
      refine ⟨rfl, fun other apart => ?_⟩
      cases other with
      | none => exact absurd rfl apart
      | some thr =>
          have later : .initMutex :: rest <:+
              .initMutex :: (createAll (count + 1) ++ joinAll (count + 1)) :=
            @suffix_of_notMem _ _ _ _ [.initCond] _ suffix (by simp)
          rcases List.suffix_cons_iff.mp later with same | again
          · rw [(List.cons.inj same).2, creates_append, creates_createAll]
            simp
          · have member := again.mem List.mem_cons_self
            simp [createAll, joinAll] at member
  | some thr =>
      have member := task4_mem_thread (suffix.mem List.mem_cons_self)
      simp at member

theorem task4_signals : Signals (Task4.program count) none (some (Task4.lastThread count)) where
  disciplined := task4_disciplined
  raiser thread member := by
    cases thread with
    | none => exact absurd (task4_mem_main member) (by simp)
    | some thr =>
        by_contra apart
        rw [task4_other fun same => apart (congrArg some same)] at member
        simp [printAll] at member
  raises := by
    rw [task4_last]
    simp
  once rest suffix := by
    rw [task4_last] at suffix
    have tail : .raise :: rest <:+ [.raise, .unlock, .broadcast] :=
      @suffix_of_notMem _ _ _ _ (.lock :: printAll _) _ suffix (by simp [printAll])
    have same : rest = [.unlock, .broadcast] := by simpa [List.suffix_cons_iff] using tail
    rw [same]
    exact ⟨by simp, by simp, rfl⟩
  speaks := by simp [texts]
  waits thread apart loud := by
    cases thread with
    | none =>
        obtain ⟨instr, member, notQuiet⟩ := loud
        rw [task4_main_quiet member] at notQuiet
        cases notQuiet
    | some thr =>
        rw [task4_other fun same => apart (congrArg some same)]
        simp
  awake := by
    refine ⟨by simp [task4_last, printAll], fun member => ?_⟩
    cases task4_main_quiet member
  unparked thread member := by
    cases thread with
    | none => simpa using task4_mem_main member
    | some thr => simpa using task4_mem_thread member
  children thread apart := by
    cases thread with
    | none => exact absurd rfl apart
    | some thr => simp
  joins thread other rest suffix := by
    have member := suffix.mem List.mem_cons_self
    cases thread with
    | none =>
        obtain ⟨thr, rfl⟩ : ∃ thr, other = some thr := by simpa using task4_mem_main member
        have later : .join (some thr) :: rest <:+ joinAll (count + 1) :=
          @suffix_of_notMem _ _ _ _ (.initCond :: .initMutex :: createAll (count + 1)) _ suffix
            (by simp [createAll])
        have none := creates_suffix ((List.suffix_cons _ rest).trans later)
        rw [creates_joinAll] at none
        exact ⟨rfl, by simp, List.suffix_nil.mp none⟩
    | some thr => simpa using task4_mem_thread member
  apart := by simp

theorem task4_nodup : (some (Task4.lastThread count) ::
    (List.finRange count).map fun thr => some thr.castSucc).Nodup := by
  refine List.nodup_cons.mpr ⟨fun member => ?_, ?_⟩
  · obtain ⟨thr, _, same⟩ := List.mem_map.mp member
    exact (Fin.castSucc_lt_last thr).ne (Option.some.inj same)
  · exact (List.nodup_finRange count).map fun _ _ same =>
      Fin.castSucc_injective _ (Option.some.inj same)

theorem task4_loud {thread : Tid (count + 1)}
    (loud : ∃ instr ∈ Task4.program count thread, instr.quiet = false) :
    thread ∈ some (Task4.lastThread count) ::
      (List.finRange count).map fun thr => some thr.castSucc := by
  cases thread with
  | none =>
      obtain ⟨instr, inside, notQuiet⟩ := loud
      rw [task4_main_quiet inside] at notQuiet
      cases notQuiet
  | some thr =>
      by_cases isLast : thr = Task4.lastThread count
      · rw [isLast]
        exact List.mem_cons_self
      · obtain ⟨before, rfl⟩ := Fin.exists_castSucc_eq.mpr isLast
        exact List.mem_cons_of_mem _ (List.mem_map_of_mem (List.mem_finRange before))

/-- What is promised of a run: the greetings come out whole, one after the other, and
that of the last thread comes before the others; where no thread can go on, all have
ended and all greetings are out; and the run is bounded. -/
structure Task4.Greets (choices : List (Choice (Tid (count + 1))))
    (output : Output (Tid (count + 1)) String) (machine : Machine (Tid (count + 1)) String) :
    Prop where
  whole : ∃ done part, machine.Orderly (Task4.program count) output done part
  first : ∀ thread text, (thread, text) ∈ output → thread ≠ some (Task4.lastThread count) →
    ∃ rest, output = said (Task4.program count) (some (Task4.lastThread count)) ++ rest
  ends : machine.AtRest (Task4.program count) → (∀ thread, machine.status thread = .running []) ∧
    ∃ order : List (Tid (count + 1)),
      order.Perm ((List.finRange count).map fun thr => some thr.castSucc) ∧
      output = (some (Task4.lastThread count) :: order).flatMap (said (Task4.program count))
  bounded : acts choices ≤
    (Machine.initial (Task4.program count) none).rank (Task4.program count) + 2 * wakes choices

/-- In whatever order the threads act, and however often they are woken. -/
theorem task4_greets {choices : List (Choice (Tid (count + 1)))}
    {output : Output (Tid (count + 1)) String} {machine : Machine (Tid (count + 1)) String}
    (run : Run (Machine.step (Task4.program count)) (fun _ _ => True)
      (Machine.initial (Task4.program count) none) choices output machine) :
    Task4.Greets choices output machine := by
  have session := session_of_run task4_disciplined task4_initsEarly run
  obtain ⟨valid, signalled, spawning, done, part, orderly, led⟩ :=
    signals_run task4_signals session
  refine ⟨⟨done, part, orderly⟩, fun thread text member apart =>
    orderly.first task4_signals valid signalled led member apart, fun atRest => ?_,
    le_trans (Nat.le_add_right _ _) (session_length task4_disciplined session)⟩
  have ended := signals_ends task4_signals valid signalled spawning atRest
  have free := (blocked_of_atRest task4_disciplined valid atRest).1
  obtain ⟨perm, printed⟩ := orderly.ended free ended task4_nodup (fun _ => task4_loud)
    (by simp [texts])
  obtain ⟨order, rfl⟩ : ∃ order, done = some (Task4.lastThread count) :: order :=
    led.resolve_left fun none => by simp [none] at perm
  exact ⟨ended, order, perm.cons_inv, printed⟩

/-- A run in which the other thread comes first, and has to wait. -/
def otherWaits : List (Choice (Tid 2)) :=
  [.act none, .act none, .act none, .act none, .act (some 0), .act (some 0), .wake (some 0),
    .act (some 1), .act (some 1)]

theorem task4_greets_waiting :
    ∃ machine : Machine (Tid 2) String,
      Task4.Greets otherWaits [(some 1, "This is thread 1!\n")] machine := by
  obtain ⟨machine, run⟩ := @Run.of_outputs _ _ _ (Machine.step (Task4.program 1)) (fun _ _ => True)
    (Machine.initial (Task4.program 1) none) _ otherWaits [(some 1, "This is thread 1!\n")] (by decide)
  exact ⟨machine, task4_greets run⟩

end OsPractices.Pthread
