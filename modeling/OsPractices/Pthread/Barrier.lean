import Mathlib.Data.Fintype.Option
import OsPractices.Library.Rendezvous
import OsPractices.Pthread.Code

/-!
# Threads that start together

Task 3: the threads meet at a barrier before they print. In every run nothing is
printed before all three have come to the barrier, the greetings come out one after
the other, and the run can always go on until all threads have ended.
-/

set_option autoImplicit false

namespace OsPractices.Pthread

open Library

theorem task3_thread (thr : Fin 2) :
    ∃ texts, texts ≠ [] ∧ Task3.program (some thr) = .arrive :: greeting texts :=
  match thr with
  | 0 => ⟨"This is thread 1!\n" :: helloWorld, by simp, rfl⟩
  | 1 => ⟨"This is thread 2!\n" :: apple, by simp, rfl⟩

/-- What a thread may do when it has met the others. -/
theorem task3_suffix {thread : Tid 2} {instr : Instr (Tid 2) String} {rest : Code (Tid 2) String}
    (suffix : instr :: rest <:+ Task3.program thread) :
    (instr = .arrive ∨ (∃ text, instr = .print text) ∨ (∃ other, instr = .join other) →
      .arrive ∉ rest ∧ creates rest = []) ∧
    (∀ count, instr = .initBarrier count → count = 3) ∧
    (∀ other, instr = .join other → thread = none ∧ other ≠ none) ∧
    (instr = .initMutex → thread = none ∧ ∀ other, other ≠ none → other ∈ creates rest) ∧
    instr ≠ .await := by
  cases thread with
  | none =>
      simp only [Task3.program, Task3.main, List.suffix_cons_iff, List.cons.injEq,
        List.suffix_nil, reduceCtorEq, or_false] at suffix
      rcases suffix with ⟨rfl, rfl⟩ | ⟨rfl, rfl⟩ | ⟨rfl, rfl⟩ | ⟨rfl, rfl⟩ | ⟨rfl, rfl⟩ | ⟨rfl, rfl⟩ |
        ⟨rfl, rfl⟩ <;> simp [creates, Instr.child?]
      decide
  | some thr =>
      obtain ⟨texts, _, same⟩ := task3_thread thr
      rw [same] at suffix
      have within : rest <:+ greeting texts := by
        rcases List.suffix_cons_iff.mp suffix with whole | later
        · rw [(List.cons.inj whole).2]
        · exact (List.suffix_cons instr rest).trans later
      have known : instr = .arrive ∨ instr ∈ greeting texts :=
        List.mem_cons.mp (suffix.mem List.mem_cons_self)
      have gone : .arrive ∉ rest ∧ creates rest = [] := by
        refine ⟨fun member => ?_, ?_⟩
        · rcases mem_greeting (within.mem member) with h | ⟨_, h⟩ | h <;> cases h
        · have none := creates_suffix within
          rw [creates_greeting] at none
          exact List.suffix_nil.mp none
      refine ⟨fun _ => gone, ?_⟩
      rcases known with rfl | inside
      · simp
      · rcases mem_greeting inside with rfl | ⟨_, rfl⟩ | rfl <;> simp

theorem task3_disciplined : Disciplined Task3.program none := by
  refine disciplined_of_main (fun thread => ?_) (fun thread => ?_) (fun thread apart => ?_)
    (by decide) (by decide)
  · cases thread with
    | none => exact ⟨rfl, rfl, rfl, rfl, trivial⟩
    | some thr =>
        obtain ⟨texts, _, same⟩ := task3_thread thr
        rw [same]
        exact ⟨rfl, sectioned_greeting texts⟩
  · cases thread with
    | none => rfl
    | some thr =>
        obtain ⟨texts, _, same⟩ := task3_thread thr
        rw [same]
        rfl
  · cases thread with
    | none => exact absurd rfl apart
    | some thr =>
        obtain ⟨texts, _, same⟩ := task3_thread thr
        rw [same, creates_cons, creates_greeting]
        rfl

theorem task3_meeting : Meeting Task3.program none where
  disciplined := task3_disciplined
  meets thread := by
    cases thread with
    | none => decide
    | some thr =>
        obtain ⟨texts, _, same⟩ := task3_thread thr
        rw [same]
        exact List.mem_cons_self
  later thread rest suffix := (task3_suffix suffix).1 (.inl rfl)
  silent thread text rest suffix := ((task3_suffix suffix).1 (.inr (.inl ⟨text, rfl⟩))).1
  begins := ⟨_, rfl⟩
  sets thread count rest suffix := (task3_suffix suffix).2.1 count rfl
  children thread apart := by
    cases thread with
    | none => exact absurd rfl apart
    | some thr => revert thr; decide
  joins thread other rest suffix := by
    obtain ⟨gone, _, joins, _⟩ := task3_suffix suffix
    obtain ⟨isMain, apart⟩ := joins other rfl
    exact ⟨isMain, apart, gone (.inr (.inr ⟨other, rfl⟩))⟩
  awake thread member := by
    obtain ⟨front, rest, same⟩ := List.append_of_mem member
    have suffix : .await :: rest <:+ Task3.program thread := ⟨front, same.symm⟩
    exact (task3_suffix suffix).2.2.2.2 rfl

theorem task3_initsEarly : InitsEarly Task3.program none := fun _ _ suffix =>
  (task3_suffix suffix).2.2.2.1 rfl

theorem task3_loud {thread : Tid 2} (loud : ∃ instr ∈ Task3.program thread, instr.quiet = false) :
    thread ∈ [some 0, some 1] := by
  cases thread with
  | none => exact absurd loud (by decide)
  | some thr => exact mem_two thr

theorem task3_speaks (thr : Fin 2) : prints (Task3.program (some thr)) ≠ [] := by
  obtain ⟨texts, speaks, same⟩ := task3_thread thr
  rwa [same, prints_cons, prints_greeting]

/-- What is promised of a run: nothing is printed before the three threads have come
to the barrier; each greeting comes out whole before the next begins; where no thread
can go on, all have ended and both greetings are out; and the run is bounded. -/
structure Task3.Greets (choices : List (Choice (Tid 2))) (output : Output (Tid 2) String)
    (machine : Machine (Tid 2) String) : Prop where
  together : output ≠ [] → machine.Met Task3.program
  whole : ∃ done part, machine.Orderly Task3.program output done part
  ends : machine.AtRest Task3.program → (∀ thread, machine.status thread = .running []) ∧
    ∃ order : List (Tid 2), order.Perm [some 0, some 1] ∧ output = order.flatMap (said Task3.program)
  bounded : choices.length ≤ (Machine.initial Task3.program none).rank Task3.program

/-- In whatever order the threads act. -/
theorem task3_greets {choices : List (Choice (Tid 2))} {output : Output (Tid 2) String}
    {machine : Machine (Tid 2) String}
    (run : Run (Machine.step Task3.program) (fun _ _ => True) (Machine.initial Task3.program none)
      choices output machine) : Task3.Greets choices output machine := by
  have session := session_of_run task3_disciplined task3_initsEarly run
  obtain ⟨valid, meets, met⟩ := meeting_run task3_meeting session
  obtain ⟨_, done, part, orderly⟩ := session_orderly task3_disciplined session
  refine ⟨met, ⟨done, part, orderly⟩, fun atRest => ?_,
    session_length_awake task3_disciplined task3_meeting.awake session⟩
  have ended := meeting_ends task3_meeting valid meets atRest
  have free := (blocked_of_atRest task3_disciplined valid atRest).1
  exact ⟨ended, done, orderly.ended free ended (by decide) (fun _ => task3_loud)
    (by simp [task3_speaks])⟩

/-- A run in which the second thread is the first to greet. -/
def secondFirst : List (Choice (Tid 2)) :=
  [.act none, .act none, .act none, .act none, .act none, .act (some 0), .act (some 1),
    .act (some 1), .act (some 1)]

theorem task3_greets_second :
    ∃ machine, Task3.Greets secondFirst [(some 1, "This is thread 2!\n")] machine := by
  obtain ⟨machine, run⟩ := @Run.of_outputs _ _ _ (Machine.step Task3.program) (fun _ _ => True)
    (Machine.initial Task3.program none) _ secondFirst [(some 1, "This is thread 2!\n")] (by decide)
  exact ⟨machine, task3_greets run⟩

end OsPractices.Pthread
