import Mathlib.Data.Fintype.Option
import OsPractices.Library.Progress
import OsPractices.Pthread.Code

/-!
# A mutex that is initialized late

Task 2: the main thread initializes the mutex after it has created the threads that
take it. Where no thread has taken it yet, the greetings come out one after the
other. Where one has, the other thread takes the mutex as well.
-/

set_option autoImplicit false

namespace OsPractices.Pthread

open Library

theorem task2_thread (thr : Fin 2) :
    ∃ texts, texts ≠ [] ∧ Task2.program (some thr) = greeting texts :=
  match thr with
  | 0 => ⟨"This is thread 1!\n" :: helloWorld, by simp, rfl⟩
  | 1 => ⟨"This is thread 2!\n" :: apple, by simp, rfl⟩

theorem task2_main_quiet {instr : Instr (Tid 2) String}
    (member : instr ∈ Task2.program none) : instr.quiet = true := by
  simp only [Task2.program, Task2.main, List.mem_cons, List.not_mem_nil, or_false] at member
  rcases member with rfl | rfl | rfl | rfl | rfl <;> rfl

theorem task2_disciplined : Disciplined Task2.program none := by
  refine disciplined_of_main (fun thread => ?_) (fun thread => ?_) (fun thread apart => ?_)
    (by decide) (by decide)
  · cases thread with
    | none => exact sectioned_of_quiet fun _ => task2_main_quiet
    | some thr =>
        obtain ⟨texts, _, same⟩ := task2_thread thr
        rw [same]
        exact sectioned_greeting texts
  · cases thread with
    | none => rfl
    | some thr =>
        obtain ⟨texts, _, same⟩ := task2_thread thr
        rw [same]
        rfl
  · cases thread with
    | none => exact absurd rfl apart
    | some thr =>
        obtain ⟨texts, _, same⟩ := task2_thread thr
        rw [same, creates_greeting]

theorem task2_children (thread : Tid 2) (apart : thread ≠ none) :
    thread ∈ creates (Task2.program none) := by
  cases thread with
  | none => exact absurd rfl apart
  | some thr => exact mem_two thr

theorem task2_loud {thread : Tid 2} (loud : ∃ instr ∈ Task2.program thread, instr.quiet = false) :
    thread ∈ [some 0, some 1] := by
  cases thread with
  | none => exact absurd loud (by decide)
  | some thr => exact mem_two thr

theorem task2_speaks (thr : Fin 2) : prints (Task2.program (some thr)) ≠ [] := by
  obtain ⟨texts, speaks, same⟩ := task2_thread thr
  rwa [same, prints_greeting]

/-- No thread waits for anything but the end of another. -/
theorem task2_waits (thread : Tid 2) :
    .arrive ∉ Task2.program thread ∧ .await ∉ Task2.program thread ∧
      ∀ other rest, .join other :: rest <:+ Task2.program thread →
        thread = none ∧ other ≠ none ∧ creates rest = [] := by
  cases thread with
  | none =>
      refine ⟨by decide, by decide, fun other rest suffix => ?_⟩
      simp only [Task2.program, Task2.main, List.suffix_cons_iff, List.cons.injEq,
        List.suffix_nil, reduceCtorEq, false_and, false_or, or_false, Instr.join.injEq] at suffix
      rcases suffix with ⟨rfl, rfl⟩ | ⟨rfl, rfl⟩ <;> simp [creates, Instr.child?]
  | some thr =>
      obtain ⟨texts, _, same⟩ := task2_thread thr
      rw [same]
      refine ⟨fun member => ?_, fun member => ?_, fun other rest suffix => ?_⟩
      · simpa using mem_greeting member
      · simpa using mem_greeting member
      · simpa using mem_greeting (suffix.mem List.mem_cons_self)

/-- What is promised of a run: each greeting comes out whole before the next begins;
where no thread can go on, all have ended and both greetings are out; and the run is
bounded. -/
structure Task2.Greets (choices : List (Choice (Tid 2))) (output : Output (Tid 2) String)
    (machine : Machine (Tid 2) String) : Prop where
  whole : ∃ done part, machine.Orderly Task2.program output done part
  ends : machine.AtRest Task2.program → (∀ thread, machine.status thread = .running []) ∧
    ∃ order : List (Tid 2), order.Perm [some 0, some 1] ∧ output = order.flatMap (said Task2.program)
  bounded : choices.length ≤ (Machine.initial Task2.program none).rank Task2.program

/-- In whatever order the threads act, if the mutex is initialized while it is free. -/
theorem task2_greets {choices : List (Choice (Tid 2))} {output : Output (Tid 2) String}
    {machine : Machine (Tid 2) String} (session : Session Task2.program none choices output machine) :
    Task2.Greets choices output machine := by
  obtain ⟨valid, done, part, orderly⟩ := session_orderly task2_disciplined session
  refine ⟨⟨done, part, orderly⟩, fun atRest => ?_,
    session_length_awake task2_disciplined (fun thread => (task2_waits thread).2.1) session⟩
  obtain ⟨free, blocked⟩ := blocked_of_atRest task2_disciplined valid atRest
  have spawning := session_spawning task2_disciplined task2_children session
  have stuck (thread : Tid 2) := by
    obtain ⟨unparked, awake, joins⟩ := task2_waits thread
    exact (blocked thread).joins_of_awake valid unparked joins (valid.not_asleep awake)
  have joins : machine.Joins none := by
    rcases stuck none with absent | ended | ⟨other, code, at_, running, _, rest⟩
    · exact absurd absent spawning.started
    · exact .inl ended
    · exact .inr ⟨other, code, at_, running, rest⟩
  have ended := spawning.ended joins fun thread apart => by
    rcases stuck thread with absent | ended | ⟨_, _, _, _, isMain, _⟩
    · exact .inl absent
    · exact .inr ended
    · exact absurd isMain apart
  exact ⟨ended, done, orderly.ended free ended (by decide) (fun _ => task2_loud)
    (by simp [task2_speaks])⟩

/-- A run in which the second thread is the first to greet. -/
def secondTakes : List (Choice (Tid 2)) :=
  [.act none, .act none, .act none, .act (some 1), .act (some 1)]

theorem task2_greets_second :
    ∃ machine, Task2.Greets secondTakes [(some 1, "This is thread 2!\n")] machine := by
  obtain ⟨machine, session⟩ := @Run.of_outputs _ _ _ (Machine.step Task2.program) Steady
    (Machine.initial Task2.program none) _ secondTakes [(some 1, "This is thread 2!\n")] (by decide)
  exact ⟨machine, task2_greets session⟩

/-- A run in which the mutex is initialized while the first thread holds it. -/
def lateInit : List (Choice (Tid 2)) :=
  [.act none, .act none, .act (some 0), .act (some 0), .act none, .act (some 1), .act (some 1)]

/-- Then the other thread prints before the first has printed all that it prints. -/
theorem task2_races : ∃ output machine,
    Run (Machine.step Task2.program) (fun _ _ => True) (Machine.initial Task2.program none) lateInit
      output machine ∧ ¬ ∃ done part, machine.Orderly Task2.program output done part := by
  obtain ⟨machine, run⟩ := @Run.of_outputs _ _ _ (Machine.step Task2.program) (fun _ _ => True)
    (Machine.initial Task2.program none) _ lateInit
    [(some 0, "This is thread 1!\n"), (some 1, "This is thread 2!\n")] (by decide)
  refine ⟨_, machine, run, ?_⟩
  rintro ⟨done, part, orderly⟩
  have output := orderly.output
  cases done with
  | nil =>
      cases isOwner : machine.owner with
      | none => simp [isOwner] at output
      | some holder =>
          have byHolder {entry : Tid 2 × String}
              (member : entry ∈ [(some 0, "This is thread 1!\n"), (some 1, "This is thread 2!\n")]) :
              entry.1 = holder := by
            rw [output, isOwner] at member
            obtain ⟨text, _, rfl⟩ := List.mem_map.mp member
            rfl
          have first : some 0 = holder := byHolder List.mem_cons_self
          have second : some 1 = holder := byHolder (List.mem_cons_of_mem _ List.mem_cons_self)
          cases first.trans second.symm
  | cons thread done =>
      have long : ∀ thread ∈ [some 0, some 1], 2 < (said Task2.program thread).length := by
        decide +kernel
      have whole := long thread (task2_loud (orderly.loud thread List.mem_cons_self))
      have short := congrArg List.length output
      rw [List.flatMap_cons, List.append_assoc, List.length_append] at short
      exact absurd whole (by simp at short; omega)

end OsPractices.Pthread
