import Mathlib.Algebra.Ring.Nat
import Mathlib.Data.List.FinRange
import OsPractices.Library.Sections

/-!
# Threads that say hello

The programs of the pthread practice, task 2 to task 4. Each `printf` prints at
once. The functions of the library do not fail.
-/

set_option autoImplicit false

namespace OsPractices.Pthread

open Library

/-- `none` is the main thread, and `some i` the one that `pid[i]` names. -/
abbrev Tid (count : Nat) := Option (Fin count)

/-- The numbers `0` and `1` of two threads. -/
scoped instance twoThreads : NeZero 2 := ⟨by decide⟩

/-- The loop that prints `HelloWorld!`. -/
def helloWorld : List String :=
  (List.replicate 20 ["H", "e", "l", "l", "o", "W", "o", "r", "l", "d", "!"]).flatten

/-- The loop that prints `Apple?`. -/
def apple : List String := (List.replicate 20 ["A", "p", "p", "l", "e", "?"]).flatten

def thisIsThread (thr : Nat) : String := "This is thread " ++ toString thr ++ "!\n"

variable {count : Nat}

def printAll (texts : List String) : Code (Tid count) String := texts.map .print

def createAll (count : Nat) : Code (Tid count) String :=
  (List.finRange count).map fun thread => .create (some thread)

def joinAll (count : Nat) : Code (Tid count) String :=
  (List.finRange count).map fun thread => .join (some thread)

@[simp] theorem prints_createAll (count : Nat) : prints (createAll count) = [] := by
  unfold prints createAll
  rw [List.filterMap_map, List.filterMap_eq_nil_iff]
  exact fun _ _ => rfl

@[simp] theorem prints_joinAll (count : Nat) : prints (joinAll count) = [] := by
  unfold prints joinAll
  rw [List.filterMap_map, List.filterMap_eq_nil_iff]
  exact fun _ _ => rfl

@[simp] theorem creates_createAll (count : Nat) :
    creates (createAll count) = (List.finRange count).map some := by
  unfold creates createAll
  rw [List.filterMap_map, ← List.filterMap_eq_map]
  rfl

@[simp] theorem creates_joinAll (count : Nat) : creates (joinAll count) = [] := by
  unfold creates joinAll
  rw [List.filterMap_map, List.filterMap_eq_nil_iff]
  exact fun _ _ => rfl

/-- A section that prints the texts. -/
def greeting (texts : List String) : Code (Tid count) String := .lock :: (printAll texts ++ [.unlock])

theorem sectioned_greeting (texts : List String) :
    Sectioned (greeting texts : Code (Tid count) String) :=
  ⟨holds_map_print texts _, sectioned_map_print texts rfl (by simp) ⟨by simp, trivial⟩⟩

@[simp] theorem creates_greeting (texts : List String) :
    creates (greeting texts : Code (Tid count) String) = [] := by
  unfold greeting printAll
  rw [creates_cons, creates_append, creates_map_print]
  rfl

@[simp] theorem prints_greeting (texts : List String) :
    prints (greeting texts : Code (Tid count) String) = texts := by
  unfold greeting printAll
  rw [prints_cons, prints_append, prints_map_print]
  exact List.append_nil _

theorem mem_greeting {texts : List String} {instr : Instr (Tid count) String}
    (member : instr ∈ greeting texts) :
    instr = .lock ∨ (∃ text, instr = .print text) ∨ instr = .unlock := by
  unfold greeting printAll at member
  simp only [List.mem_cons, List.mem_append, List.mem_map, List.not_mem_nil, or_false] at member
  rcases member with first | ⟨text, _, rfl⟩ | last
  · exact .inl first
  · exact .inr (.inl ⟨text, rfl⟩)
  · exact .inr (.inr last)

/-- The threads that greet, where there are two. -/
theorem mem_two (thr : Fin 2) : some thr ∈ [some (0 : Fin 2), some 1] := by
  revert thr
  decide

namespace Task2

def thread1 : Code (Tid 2) String :=
  .lock :: (printAll ("This is thread 1!\n" :: helloWorld) ++ [.unlock])

def thread2 : Code (Tid 2) String :=
  .lock :: (printAll ("This is thread 2!\n" :: apple) ++ [.unlock])

/-- The mutex is initialized after the threads have been created. -/
def main : Code (Tid 2) String :=
  [.create (some 0), .create (some 1), .initMutex, .join (some 0), .join (some 1)]

def program : Tid 2 → Code (Tid 2) String
  | none => main
  | some 0 => thread1
  | some 1 => thread2

end Task2

namespace Task3

def thread1 : Code (Tid 2) String :=
  .arrive :: .lock :: (printAll ("This is thread 1!\n" :: helloWorld) ++ [.unlock])

def thread2 : Code (Tid 2) String :=
  .arrive :: .lock :: (printAll ("This is thread 2!\n" :: apple) ++ [.unlock])

def main : Code (Tid 2) String :=
  [.initBarrier 3, .initMutex, .create (some 0), .create (some 1), .arrive, .join (some 0),
    .join (some 1)]

def program : Tid 2 → Code (Tid 2) String
  | none => main
  | some 0 => thread1
  | some 1 => thread2

end Task3

namespace Task4

/-- The thread whose number is `MAXTHREAD - 1`, where `MAXTHREAD` is `count + 1`. -/
def lastThread (count : Nat) : Fin (count + 1) := Fin.last count

def thread1 (thr : Fin (count + 1)) : Code (Tid (count + 1)) String :=
  .lock :: ((if thr ≠ lastThread count then [.await] else []) ++
    printAll (thisIsThread thr :: helloWorld) ++
    (if thr = lastThread count then [.raise] else []) ++ [.unlock] ++
    (if thr = lastThread count then [.broadcast] else []))

def main (count : Nat) : Code (Tid (count + 1)) String :=
  [.initCond, .initMutex] ++ createAll (count + 1) ++ joinAll (count + 1)

def program (count : Nat) : Tid (count + 1) → Code (Tid (count + 1)) String
  | none => main count
  | some thr => thread1 thr

end Task4

end OsPractices.Pthread
