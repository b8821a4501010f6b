import OsPractices.Malloc.Layout

/-!
# Valid layouts

The invariant of a layout, and that every operation keeps it. `least` is a
lower bound on the block sizes: 24 for the sizes that the package asks for, 16
where the truncation to 32 bits is allowed to lose a whole payload.
-/

set_option autoImplicit false

namespace OsPractices.Malloc

open Library

@[simp] theorem metaSize_eq : metaSize = 16 := rfl

theorem blockSize_aligned (bytes : Nat) : blockSize bytes % 8 = 0 := by
  unfold blockSize u32 align
  omega

theorem blockSize_lt (bytes : Nat) : blockSize bytes < 2 ^ 32 := by
  unfold blockSize u32
  omega

/-- The size in the tags of the block for a request that 32 bits can hold. -/
theorem blockSize_eq {bytes : Nat} (small : bytes + 24 ≤ 2 ^ 32) :
    blockSize bytes = (bytes + 23) / 8 * 8 := by
  unfold blockSize align u32 u64
  simp only [metaSize_eq, alignment]
  omega

theorem blockSize_ge {bytes : Nat} (small : bytes + 24 ≤ 2 ^ 32) : bytes + 16 ≤ blockSize bytes := by
  rw [blockSize_eq small]
  omega

theorem tag_size {block : Block} (aligned : block.size % 8 = 0) :
    unzipSize block.tag = block.size := zip_size aligned

theorem tag_stat (block : Block) : unzipStat block.tag = block.status := by
  unfold Block.tag Block.status
  split <;> exact zip_stat (by decide)

theorem status_eq_unused {block : Block} : block.status = unused ↔ block.used = false := by
  unfold Block.status
  cases block.used with
  | true => simp [Malloc.used, unused]
  | false => simp

theorem status_ne_border (block : Block) : block.status ≠ border := by
  unfold Block.status
  split <;> decide

/-- The blocks fill the heap between prologue and epilogue. -/
structure Laid (least : Nat) (blocks : List Block) (top : Nat) : Prop where
  tiled : Block.Tiled 32 blocks top
  sizes : ∀ block ∈ blocks, least ≤ block.size ∧ block.size % 8 = 0
  bounded : top ≤ maxHeap

namespace Laid

variable {least top : Nat} {blocks : List Block}

theorem mono {lower : Nat} (laid : Laid least blocks top) (le : lower ≤ least) :
    Laid lower blocks top :=
  ⟨laid.tiled, fun block member => ⟨le.trans (laid.sizes block member).1,
    (laid.sizes block member).2⟩, laid.bounded⟩

theorem aligned (laid : Laid least blocks top) :
    (∀ block ∈ blocks, block.off % 8 = 0) ∧ top % 8 = 0 := by
  obtain ⟨offsets, last⟩ := laid.tiled.multiples (by decide : 8 ∣ 32)
    fun block member => Nat.dvd_of_mod_eq_zero (laid.sizes block member).2
  exact ⟨fun block member => Nat.mod_eq_zero_of_dvd (offsets block member),
    Nat.mod_eq_zero_of_dvd last⟩

theorem bounds (laid : Laid least blocks top) {block : Block} (member : block ∈ blocks) :
    32 ≤ block.off ∧ block.off % 8 = 0 ∧ least ≤ block.size ∧ block.size % 8 = 0 ∧
      block.off + block.size ≤ top ∧ top ≤ maxHeap := by
  obtain ⟨low, high⟩ := laid.tiled.bounds member
  obtain ⟨large, multiple⟩ := laid.sizes block member
  exact ⟨low, laid.aligned.1 block member, large, multiple, high, laid.bounded⟩

theorem eq_of_off_eq (laid : Laid least blocks top) (positive : 0 < least) {left right : Block}
    (leftMember : left ∈ blocks) (rightMember : right ∈ blocks) (same : left.off = right.off) :
    left = right :=
  laid.tiled.eq_of_first_eq leftMember rightMember
    (positive.trans_le (laid.sizes left leftMember).1)
    (positive.trans_le (laid.sizes right rightMember).1) same

/-- The block named in a decomposition occurs nowhere else in it. -/
theorem off_ne (laid : Laid least blocks top) (positive : 0 < least) {front back : List Block}
    {block : Block} (split : blocks = front ++ block :: back) :
    ∀ other ∈ front ++ back, other.off ≠ block.off := by
  subst split
  exact laid.tiled.first_ne fun other member => positive.trans_le (laid.sizes other member).1

theorem locate_eq (laid : Laid least blocks top) (positive : 0 < least) {front back : List Block}
    {block : Block} (split : blocks = front ++ block :: back) :
    locate block.off blocks = some (front, block, back) := by
  have different := laid.off_ne positive split
  subst split
  clear laid
  induction front with
  | nil => simp [locate]
  | cons other rest ih =>
      have apart : other.off ≠ block.off := different other (by simp)
      simp only [List.cons_append, locate, if_neg apart]
      rw [ih fun later member => different later (List.mem_cons_of_mem other member)]
      rfl

theorem sizeOf_eq (laid : Laid least blocks top) (positive : 0 < least) {block : Block}
    (member : block ∈ blocks) (bins : Bins) :
    (⟨blocks, bins, top⟩ : Layout).sizeOf block.off = block.size := by
  unfold Layout.sizeOf
  cases found : blocks.find? (·.off = block.off) with
  | none =>
      have := List.find?_eq_none.mp found block member
      simp at this
  | some other =>
      have same : other.off = block.off := by simpa using List.find?_some found
      rw [laid.eq_of_off_eq positive (List.mem_of_find?_eq_some found) member same]

/-- Replace a stretch of blocks by blocks that fill the same interval. -/
theorem replace {front middle back other : List Block}
    (laid : Laid least (front ++ middle ++ back) top)
    (same : ∀ {left right}, Block.Tiled left middle right → Block.Tiled left other right)
    (sizes : ∀ block ∈ other, least ≤ block.size ∧ block.size % 8 = 0) :
    Laid least (front ++ other ++ back) top := by
  refine ⟨laid.tiled.replace same, fun block member => ?_, laid.bounded⟩
  simp only [List.mem_append] at member
  rcases member with (inFront | inOther) | inBack
  · exact laid.sizes block (by simp [inFront])
  · exact sizes block inOther
  · exact laid.sizes block (by simp [inBack])

end Laid

theorem Bins.mem_of_mem_remove (bins : Bins) {block : Block} {rank off : Nat}
    (member : off ∈ bins.remove block rank) : off ∈ bins rank := by
  simp only [Bins.remove, Function.update_apply] at member
  split at member
  case isTrue same => exact same ▸ List.mem_of_mem_erase member
  case isFalse => exact member

/-- The client's blocks and the free blocks of a stretch of the heap. -/
def liveOf (blocks : List Block) : Set Block := {block | block ∈ blocks ∧ block.used = true}

def vacantOf (blocks : List Block) : Set Block := {block | block ∈ blocks ∧ block.used = false}

/-- The lists contain exactly once, and under its rank, each block of `vacant`. -/
structure Bins.Lists (bins : Bins) (vacant : Set Block) : Prop where
  nodup : ∀ rank, (bins rank).Nodup
  mem_iff : ∀ rank off, off ∈ bins rank ↔
    ∃ block ∈ vacant, block.off = off ∧ getRank block.size = rank

namespace Bins.Lists

variable {bins : Bins} {vacant : Set Block} {block : Block}

theorem mem (lists : bins.Lists vacant) (member : block ∈ vacant) :
    block.off ∈ bins (getRank block.size) :=
  (lists.mem_iff _ _).mpr ⟨block, member, rfl, rfl⟩

theorem notMem (lists : bins.Lists vacant) (fresh : ∀ other ∈ vacant, other.off ≠ block.off)
    (rank : Nat) : block.off ∉ bins rank := by
  intro member
  obtain ⟨other, inVacant, same, _⟩ := (lists.mem_iff _ _).mp member
  exact fresh other inVacant same

theorem push (lists : bins.Lists vacant) (fresh : ∀ other ∈ vacant, other.off ≠ block.off) :
    (bins.push block).Lists (insert block vacant) := by
  constructor
  · intro rank
    cases decEq rank (getRank block.size) with
    | isTrue same =>
        subst same
        simp only [Bins.push, Function.update_self]
        exact List.nodup_cons.mpr ⟨lists.notMem fresh _, lists.nodup _⟩
    | isFalse different =>
        simp only [Bins.push, Function.update_of_ne different]
        exact lists.nodup rank
  · intro rank off
    simp only [Set.mem_insert_iff, exists_eq_or_imp, ← lists.mem_iff]
    cases decEq rank (getRank block.size) with
    | isTrue same =>
        subst same
        simp [Bins.push, eq_comm]
    | isFalse different =>
        simp [Bins.push, Function.update_of_ne different, Ne.symm different]

theorem remove (lists : bins.Lists (insert block vacant))
    (fresh : ∀ other ∈ vacant, other.off ≠ block.off) : (bins.remove block).Lists vacant := by
  constructor
  · intro rank
    cases decEq rank (getRank block.size) with
    | isTrue same =>
        subst same
        simp only [Bins.remove, Function.update_self]
        exact (lists.nodup _).erase _
    | isFalse different =>
        simp only [Bins.remove, Function.update_of_ne different]
        exact lists.nodup rank
  · intro rank off
    have listed := lists.mem_iff rank off
    simp only [Set.mem_insert_iff, exists_eq_or_imp] at listed
    have apart : (∃ other ∈ vacant, other.off = off ∧ getRank other.size = rank) →
        off ≠ block.off := by
      rintro ⟨other, inVacant, rfl, _⟩
      exact fresh other inVacant
    cases decEq rank (getRank block.size) with
    | isTrue same =>
        subst same
        simp only [Bins.remove, Function.update_self, (lists.nodup _).mem_erase_iff, listed]
        grind
    | isFalse different =>
        simp only [Bins.remove, Function.update_of_ne different, listed]
        grind

/-- Pushing a block and removing it again changes nothing. -/
theorem remove_push (bins : Bins) (block : Block) : (bins.push block).remove block = bins := by
  funext rank
  unfold Bins.remove Bins.push
  cases decEq rank (getRank block.size) with
  | isTrue same => simp [same]
  | isFalse different => simp [Function.update_of_ne different]

end Bins.Lists

end OsPractices.Malloc
