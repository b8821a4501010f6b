import OsPractices.Malloc.Tags

/-!
# Pointers to free memory

A pointer into a free block that once was the pointer of a block: the word
before it still says that this block is free. Where free blocks are joined,
that word becomes a byte of a payload, which nothing writes.
-/

set_option autoImplicit false

namespace OsPractices.Malloc

open Library

variable {state state' : State} {layout : Layout} {blocks blocks' : List Block} {block : Block}
  {bins : Bins} {top off : Nat}

/-- The block of a pointer has been released: the pointer lies in a free block,
with the status `UNUSED` before it. -/
structure Cleared (blocks : List Block) (state : State) (off : Nat) : Prop where
  aligned : off % 8 = 0
  status : statAt (words state) off = unused
  inside : ∃ vacant ∈ vacantOf blocks, vacant.off ≤ off ∧ off + 16 ≤ vacant.off + vacant.size

/-- A word of a payload is kept. -/
theorem Keeps.words {offset : Nat} (keeps : Keeps blocks state state')
    (heap : state'.heap = state.heap) (member : block ∈ blocks) (low : block.off ≤ offset)
    (high : offset + 20 ≤ block.off + block.size) :
    Malloc.words state' offset = Malloc.words state offset := by
  unfold Malloc.words
  rw [heap]
  split
  case isFalse => rfl
  case isTrue =>
    refine Memory.load32_congr fun byte above below => ?_
    obtain ⟨position, rfl⟩ := Nat.exists_eq_add_of_le ((Nat.le_add_right _ _).trans above)
    exact keeps block member position ⟨by omega, by omega⟩

theorem Represents.cleared (represents : Represents state layout none)
    (vacant : block ∈ vacantOf layout.blocks) : Cleared layout.blocks state block.off := by
  have bounds := represents.framed.laid.bounds vacant.1
  refine ⟨bounds.2.1, ?_, block, vacant, Nat.le_refl _, by omega⟩
  rw [represents.framed.statAt_eq vacant.1 (by simp), status_eq_unused.mpr vacant.2]

/-- A pointer stays cleared where free blocks only grow. -/
theorem Cleared.step (cleared : Cleared blocks state off)
    (yields : Yields blocks' state ⟨blocks', bins, top⟩ none state')
    (wider : ∀ vacant ∈ vacantOf blocks, ∃ wide ∈ vacantOf blocks',
      wide.off ≤ vacant.off ∧ vacant.off + vacant.size ≤ wide.off + wide.size) :
    Cleared blocks' state' off := by
  obtain ⟨aligned, status, vacant, inVacant, low, high⟩ := cleared
  obtain ⟨wide, inWide, before, behind⟩ := wider vacant inVacant
  cases decEq off wide.off with
  | isTrue first => exact first ▸ yields.represents.cleared inWide
  | isFalse later =>
      have bounds := yields.represents.framed.laid.bounds inWide.1
      have kept := yields.keeps.words yields.heap inWide.1 (by omega : wide.off ≤ off - 8)
        (by omega)
      refine ⟨aligned, ?_, wide, inWide, by omega, by omega⟩
      unfold statAt at status ⊢
      rw [kept, status]

/-- `free` of a cleared pointer does nothing. -/
theorem Cleared.free (cleared : Cleared layout.blocks state off)
    (represents : Represents state layout none) :
    Malloc.free state (state.heap + off) = .ok state := by
  obtain ⟨aligned, status, vacant, inVacant, low, high⟩ := cleared
  have bounds := represents.framed.laid.bounds inVacant.1
  have mapped := represents.framed.ready.toMapped
  have notNull : state.heap + off ≠ null := mapped.ne_null
  have read := stat_at mapped (by omega : off % 4 = 0) (by omega) (by omega)
  unfold Malloc.free
  rw [if_neg notNull, read, status, ok_bind, if_pos (by decide)]
  rfl

/-- What was cleared stays cleared. -/
def Clears (blocks : List Block) (state : State) (blocks' : List Block) (state' : State) : Prop :=
  ∀ off, Cleared blocks state off → Cleared blocks' state' off

theorem Yields.clears (yields : Yields blocks state ⟨blocks, bins, top⟩ none state') :
    Clears blocks state blocks state' :=
  fun _ cleared => cleared.step yields fun vacant inVacant =>
    ⟨vacant, inVacant, Nat.le_refl _, Nat.le_refl _⟩

end OsPractices.Malloc
