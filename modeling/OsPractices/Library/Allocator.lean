import Mathlib.Algebra.Ring.Nat
import Mathlib.Data.Finset.Card
import Mathlib.Order.Interval.Finset.Nat
import OsPractices.Library.ByteMemory

/-!
# Allocators

What a client may rely on of an allocator: blocks that are aligned, lie inside
the heap and keep apart, and calls that leave the other blocks alone. An
allocator has finite memory; a contract says what each request costs of it, and
promises something as long as the costs stay within a limit.
-/

set_option autoImplicit false

namespace OsPractices.Library

/-- A block as a client knows it: its address, and how many bytes it asked for. -/
structure Extent where
  start : Nat
  length : Nat
  deriving DecidableEq, Repr

namespace Extent

def stop (extent : Extent) : Nat := extent.start + extent.length

def Covers (extent : Extent) (address : Nat) : Prop :=
  extent.start ≤ address ∧ address < extent.stop

def Apart (left right : Extent) : Prop := left.stop ≤ right.start ∨ right.stop ≤ left.start

def Within (extent : Extent) (low high : Nat) : Prop := low ≤ extent.start ∧ extent.stop ≤ high

variable {left right extent : Extent} {low high : Nat}

theorem Apart.symm (apart : left.Apart right) : right.Apart left := Or.symm apart

theorem Apart.not_covers (apart : left.Apart right) {address : Nat}
    (covers : left.Covers address) : ¬ right.Covers address := by
  intro covers'
  obtain ⟨low, high⟩ := covers
  obtain ⟨low', high'⟩ := covers'
  cases apart with
  | inl before => omega
  | inr behind => omega

/-- Two blocks with room that keep apart start at different addresses. -/
theorem Apart.start_ne (apart : left.Apart right) (leftRoom : 0 < left.length)
    (rightRoom : 0 < right.length) : left.start ≠ right.start := by
  intro same
  have covers : left.Covers left.start := ⟨Nat.le_refl _, Nat.lt_add_of_pos_right leftRoom⟩
  refine apart.not_covers covers ⟨same ▸ Nat.le_refl _, ?_⟩
  rw [same]
  exact Nat.lt_add_of_pos_right rightRoom

/-- The addresses that some blocks cover. -/
def cells : List Extent → Finset Nat
  | [] => ∅
  | extent :: rest => Finset.Ico extent.start extent.stop ∪ cells rest

theorem mem_cells {blocks : List Extent} {address : Nat} :
    address ∈ cells blocks ↔ ∃ extent ∈ blocks, extent.Covers address := by
  induction blocks with
  | nil => simp [cells]
  | cons first rest ih => simp [cells, ih, Covers]

theorem card_cells {blocks : List Extent} (apart : blocks.Pairwise Apart) :
    (cells blocks).card = (blocks.map length).sum := by
  induction blocks with
  | nil => rfl
  | cons first rest ih =>
      obtain ⟨away, apart'⟩ := List.pairwise_cons.mp apart
      have disjoint : Disjoint (Finset.Ico first.start first.stop) (cells rest) := by
        refine Finset.disjoint_left.mpr fun address inFirst inRest => ?_
        obtain ⟨other, member, covers⟩ := mem_cells.mp inRest
        exact (away other member).not_covers (Finset.mem_Ico.mp inFirst) covers
      have size : first.stop - first.start = first.length := Nat.add_sub_cancel_left _ _
      rw [cells, Finset.card_union_of_disjoint disjoint, ih apart', Nat.card_Ico, size,
        List.map_cons, List.sum_cons]

/-- Blocks that keep apart have no more bytes than what they lie in. -/
theorem total_le {blocks : List Extent} (apart : blocks.Pairwise Apart)
    (within : ∀ extent ∈ blocks, extent.Within low high) :
    (blocks.map length).sum ≤ high - low := by
  rw [← card_cells apart, ← Nat.card_Ico]
  refine Finset.card_le_card fun address member => ?_
  obtain ⟨extent, inside, covers⟩ := mem_cells.mp member
  obtain ⟨above, below⟩ := within extent inside
  exact Finset.mem_Ico.mpr ⟨above.trans covers.1, covers.2.trans_le below⟩

end Extent

/-- The calls of an allocator on a state that holds a memory and a heap. The
null pointer is address zero. -/
structure Allocator (State Fault : Type) where
  memory : State → Memory
  withMemory : State → Memory → State
  low : State → Nat
  high : State → Nat
  malloc : State → Nat → Except Fault (Nat × State)
  free : State → Nat → Except Fault State
  realloc : State → Nat → Nat → Except Fault (Nat × State)

variable {State Fault : Type}

/-- The heap has not moved or shrunk, and some blocks have their data. -/
structure Allocator.Spares (allocator : Allocator State Fault) (live : List Extent)
    (state later : State) : Prop where
  low : allocator.low later = allocator.low state
  high : allocator.high state ≤ allocator.high later
  intact : ∀ extent ∈ live, ∀ address, extent.Covers address →
    allocator.memory later address = allocator.memory state address

/-- `Holds state spent live`: the requests so far have cost `spent`, and the
client owns the blocks of `live`. -/
structure Contract (allocator : Allocator State Fault) where
  Holds : State → Nat → List Extent → Prop
  alignment : Nat
  largest : Nat
  cost : Nat → Nat
  limit : Nat
  placed {state : State} {spent : Nat} {live : List Extent} {extent : Extent} :
    Holds state spent live → extent ∈ live → 0 < extent.start ∧ 0 < extent.length ∧
      extent.start % alignment = 0 ∧ extent.Within (allocator.low state) (allocator.high state)
  apart {state : State} {spent : Nat} {live : List Extent} :
    Holds state spent live → live.Pairwise Extent.Apart
  write {state : State} {spent : Nat} {live : List Extent} {extent : Extent} {memory : Memory} :
    Holds state spent live → extent ∈ live →
    (∀ address, ¬ extent.Covers address → memory address = allocator.memory state address) →
    Holds (allocator.withMemory state memory) spent live
  malloc {state : State} {spent size : Nat} {live : List Extent} :
    Holds state spent live → 0 < size → size < largest → spent + cost size ≤ limit →
    ∃ ptr later, allocator.malloc state size = .ok (ptr, later) ∧
      Holds later (spent + cost size) (⟨ptr, size⟩ :: live) ∧ allocator.Spares live state later
  free {state : State} {spent : Nat} {front back : List Extent} {extent : Extent} :
    Holds state spent (front ++ extent :: back) →
    ∃ later, allocator.free state extent.start = .ok later ∧ Holds later spent (front ++ back) ∧
      allocator.Spares (front ++ back) state later
  freeNull (state : State) : allocator.free state 0 = .ok state
  realloc {state : State} {spent size : Nat} {front back : List Extent} {extent : Extent} :
    Holds state spent (front ++ extent :: back) → 0 < size → size < largest →
    spent + cost size ≤ limit →
    ∃ ptr later, allocator.realloc state extent.start size = .ok (ptr, later) ∧
      Holds later (spent + cost size) (⟨ptr, size⟩ :: (front ++ back)) ∧
      allocator.Spares (front ++ back) state later ∧
      ∀ index < min extent.length size,
        allocator.memory later (ptr + index) = allocator.memory state (extent.start + index)
  reallocNull (state : State) {size : Nat} : 0 < size →
    allocator.realloc state 0 size = allocator.malloc state size
  reallocZero (state : State) (ptr : Nat) :
    allocator.realloc state ptr 0 = (allocator.free state ptr).map fun later => (0, later)

namespace Contract

variable {allocator : Allocator State Fault} {state : State} {spent : Nat} {live : List Extent}

/-- The bytes of the live blocks fit into the heap. -/
theorem total_le (contract : Contract allocator) (holds : contract.Holds state spent live) :
    (live.map Extent.length).sum ≤ allocator.high state - allocator.low state :=
  Extent.total_le (contract.apart holds) fun _ member => (contract.placed holds member).2.2.2

/-- No other live block starts where one does. -/
theorem start_ne (contract : Contract allocator) {front back : List Extent} {extent : Extent}
    (holds : contract.Holds state spent (front ++ extent :: back)) :
    ∀ other ∈ front ++ back, other.start ≠ extent.start := by
  have apart := contract.apart holds
  have room : ∀ other ∈ front ++ extent :: back, 0 < other.length := fun other member =>
    (contract.placed holds member).2.1
  obtain ⟨-, tail, across⟩ := List.pairwise_append.mp apart
  have own : 0 < extent.length := room extent (by simp)
  intro other member
  cases List.mem_append.mp member with
  | inl inFront =>
      exact (across other inFront extent List.mem_cons_self).start_ne (room other (by simp [inFront])) own
  | inr inBack =>
      exact ((List.pairwise_cons.mp tail).1 other inBack).symm.start_ne
        (room other (by simp [inBack])) own

end Contract

end OsPractices.Library
