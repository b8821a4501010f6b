import OsPractices.Mdriver.Checks

/-!
# The book of live blocks

The blocks that a trace's ids stand for, as the arrays of the driver know them.
-/

set_option autoImplicit false

namespace OsPractices.Mdriver

open Library
open Malloc (null)

/-- A live block and the id that it belongs to. -/
structure Holding where
  index : Int
  extent : Extent

def Holding.range (holding : Holding) : Range := rangeOf holding.index holding.extent

/-- The range list for the blocks of a book. -/
def listed (setting : Setting) (trace : Trace) (book : List Holding) : List Range :=
  if Recorded setting trace then book.map Holding.range else []

section Listed

variable {setting : Setting} {trace : Trace} {driver : Driver}

theorem removeRange_listed {front back : List Holding} {holding : Holding}
    (apart : ∀ other ∈ front, other.extent.start ≠ holding.extent.start)
    (ranges : driver.ranges = listed setting trace (front ++ holding :: back)) :
    (removeRange driver holding.extent.start).ranges = listed setting trace (front ++ back) := by
  have inFront : ∀ range ∈ front.map Holding.range, ¬ decide (range.lo = holding.extent.start) := by
    intro range member
    obtain ⟨other, inside, rfl⟩ := List.mem_map.mp member
    simp [Holding.range, rangeOf, apart other inside]
  change driver.ranges.eraseP (fun range => range.lo = holding.extent.start) = _
  unfold listed at ranges ⊢
  rw [ranges]
  split
  case isTrue =>
    rw [List.map_append, List.eraseP_append_right _ inFront, List.map_cons,
      List.eraseP_cons_of_pos (by simp [Holding.range, rangeOf]), List.map_append]
  case isFalse => rfl

theorem removeNull_listed {book : List Holding}
    (notNull : ∀ holding ∈ book, 0 < holding.extent.start)
    (ranges : driver.ranges = listed setting trace book) :
    (removeRange driver null).ranges = listed setting trace book := by
  change driver.ranges.eraseP (fun range => range.lo = null) = _
  rw [← ranges]
  refine List.eraseP_of_forall_not fun range member => ?_
  rw [ranges, listed] at member
  split at member
  case isTrue =>
    obtain ⟨holding, inside, rfl⟩ := List.mem_map.mp member
    simp [Holding.range, rangeOf, null, Nat.pos_iff_ne_zero.mp (notNull holding inside)]
  case isFalse => exact absurd member List.not_mem_nil

end Listed

/-- The arrays of the trace know the blocks of the book. -/
structure Keeps (trace : Trace) (slots : Slots) (book : List Holding) (driver : Driver) :
    Prop where
  blocksLength : driver.blocks.length = trace.numIds.toNat
  sizesLength : driver.blockSizes.length = trace.numIds.toNat
  basesLength : driver.blockRandBase.length = trace.numIds.toNat
  nodup : (book.map Holding.index).Nodup
  empty : ∀ index, 0 ≤ index → index < trace.numIds → slots index = .empty →
    element driver.blocks index = .ok null ∧ element driver.blockSizes index = .ok 0
  live : ∀ index size, slots index = .live size →
    ∃ holding ∈ book, holding.index = index ∧ holding.extent.length = size
  owned : ∀ holding ∈ book, (0 ≤ holding.index ∧ holding.index < trace.numIds) ∧
    slots holding.index = .live holding.extent.length ∧
    element driver.blocks holding.index = .ok holding.extent.start ∧
    element driver.blockSizes holding.index = .ok holding.extent.length

namespace Keeps

variable {trace : Trace} {slots : Slots} {book : List Holding} {driver : Driver} {index : Int}

theorem inBounds (low : 0 ≤ index) (high : index < trace.numIds) {Value : Type}
    {array : List Value} (length : array.length = trace.numIds.toNat) :
    index.toNat < array.length := by
  omega

theorem initial {start : Driver} (blocks : start.blocks = List.replicate trace.numIds.toNat null)
    (blockSizes : start.blockSizes = List.replicate trace.numIds.toNat 0)
    (basesLength : start.blockRandBase.length = trace.numIds.toNat) :
    Keeps trace Slots.initial [] start where
  blocksLength := by rw [blocks, List.length_replicate]
  sizesLength := by rw [blockSizes, List.length_replicate]
  basesLength := basesLength
  nodup := List.nodup_nil
  empty index low high _ := by
    have below : index.toNat < trace.numIds.toNat := by omega
    rw [blocks, blockSizes]
    exact ⟨element_replicate low below, element_replicate low below⟩
  live := by simp [Slots.initial]
  owned := by simp

theorem of_same (keeps : Keeps trace slots book driver) (after : Driver)
    (blocks : after.blocks = driver.blocks) (blockSizes : after.blockSizes = driver.blockSizes)
    (bases : after.blockRandBase.length = driver.blockRandBase.length) :
    Keeps trace slots book after where
  blocksLength := blocks ▸ keeps.blocksLength
  sizesLength := blockSizes ▸ keeps.sizesLength
  basesLength := bases.trans keeps.basesLength
  nodup := keeps.nodup
  empty := by
    rw [blocks, blockSizes]
    exact keeps.empty
  live := keeps.live
  owned := by
    rw [blocks, blockSizes]
    exact keeps.owned

/-- An id without a block may be taken for a stale one. -/
theorem forget (keeps : Keeps trace slots book driver) (notLive : ¬ (slots index).IsLive) :
    Keeps trace (Function.update slots index .stale) book driver := by
  refine { keeps with
    empty := fun other low high slot => ?_
    live := fun other size slot => ?_
    owned := fun holding member => ?_ }
  · cases decEq other index with
    | isTrue same => simp [same] at slot
    | isFalse apart => exact keeps.empty other low high (by simpa [apart] using slot)
  · cases decEq other index with
    | isTrue same => simp [same] at slot
    | isFalse apart => exact keeps.live other size (by simpa [apart] using slot)
  · obtain ⟨named, slot, arrays⟩ := keeps.owned holding member
    have apart : holding.index ≠ index := by
      intro same
      rw [← same, slot] at notLive
      exact notLive trivial
    exact ⟨named, by simpa [apart] using slot, arrays⟩

theorem remove {front back : List Holding} {holding : Holding}
    (keeps : Keeps trace slots (front ++ holding :: back) driver) :
    Keeps trace (Function.update slots holding.index .stale) (front ++ back) driver := by
  have fewer : ∀ other ∈ front ++ back, other ∈ front ++ holding :: back := by
    intro other member
    cases List.mem_append.mp member with
    | inl inFront => exact List.mem_append_left _ inFront
    | inr inBack => exact List.mem_append_right _ (List.mem_cons_of_mem _ inBack)
  have nodup := keeps.nodup
  rw [List.map_append, List.map_cons, List.nodup_middle, List.nodup_cons, ← List.map_append]
    at nodup
  have apart : ∀ other ∈ front ++ back, other.index ≠ holding.index := fun other member same =>
    nodup.1 (same ▸ List.mem_map_of_mem member)
  refine { keeps with
    nodup := nodup.2
    empty := fun other low high slot => ?_
    live := fun other size slot => ?_
    owned := fun other member => ?_ }
  · cases decEq other holding.index with
    | isTrue same => simp [same] at slot
    | isFalse different => exact keeps.empty other low high (by simpa [different] using slot)
  · cases decEq other holding.index with
    | isTrue same => simp [same] at slot
    | isFalse different =>
        obtain ⟨owner, member, isIndex, length⟩ :=
          keeps.live other size (by simpa [different] using slot)
        refine ⟨owner, ?_, isIndex, length⟩
        cases List.mem_append.mp member with
        | inl inFront => exact List.mem_append_left _ inFront
        | inr inBack =>
            cases List.mem_cons.mp inBack with
            | inl isHolding => exact absurd (isHolding ▸ isIndex).symm different
            | inr inBack => exact List.mem_append_right _ inBack
  · obtain ⟨named, slot, arrays⟩ := keeps.owned other (fewer other member)
    exact ⟨named, by simpa [apart other member] using slot, arrays⟩

theorem index_ne (keeps : Keeps trace (Function.update slots index .stale) book driver)
    {holding : Holding} (member : holding ∈ book) : holding.index ≠ index := by
  intro same
  have slot := (keeps.owned holding member).2.1
  simp [same] at slot

theorem elsewhere (keeps : Keeps trace (Function.update slots index .stale) book driver)
    (after : Driver) (blocksLength : after.blocks.length = driver.blocks.length)
    (sizesLength : after.blockSizes.length = driver.blockSizes.length)
    (basesLength : after.blockRandBase.length = driver.blockRandBase.length)
    (others : ∀ other, other ≠ index → element after.blocks other = element driver.blocks other ∧
      element after.blockSizes other = element driver.blockSizes other) :
    Keeps trace (Function.update slots index .stale) book after := by
  refine ⟨blocksLength.trans keeps.blocksLength, sizesLength.trans keeps.sizesLength,
    basesLength.trans keeps.basesLength, keeps.nodup, fun other low high slot => ?_, keeps.live,
    fun holding member => ?_⟩
  · have different : other ≠ index := by
      intro isIndex
      simp [isIndex] at slot
    obtain ⟨blocks, sizes⟩ := others other different
    rw [blocks, sizes]
    exact keeps.empty other low high slot
  · obtain ⟨named, slot, arrays⟩ := keeps.owned holding member
    obtain ⟨blocks, sizes⟩ := others holding.index (keeps.index_ne member)
    rw [blocks, sizes]
    exact ⟨named, slot, arrays⟩

theorem fillEmpty (keeps : Keeps trace (Function.update slots index .stale) book driver)
    (isBlock : element driver.blocks index = .ok null)
    (isSize : element driver.blockSizes index = .ok 0) :
    Keeps trace (Function.update slots index .empty) book driver := by
  refine { keeps with
    empty := fun other low high slot => ?_
    live := fun other size slot => ?_
    owned := fun holding member => ?_ }
  · cases decEq other index with
    | isTrue isIndex => exact isIndex ▸ ⟨isBlock, isSize⟩
    | isFalse different => exact keeps.empty other low high (by simpa [different] using slot)
  · cases decEq other index with
    | isTrue isIndex => simp [isIndex] at slot
    | isFalse different => exact keeps.live other size (by simpa [different] using slot)
  · obtain ⟨named, slot, arrays⟩ := keeps.owned holding member
    exact ⟨named, by simpa [keeps.index_ne member] using slot, arrays⟩

theorem fillLive (keeps : Keeps trace (Function.update slots index .stale) book driver)
    (named : 0 ≤ index ∧ index < trace.numIds) (extent : Extent)
    (isBlock : element driver.blocks index = .ok extent.start)
    (isSize : element driver.blockSizes index = .ok extent.length) :
    Keeps trace (Function.update slots index (.live extent.length)) (⟨index, extent⟩ :: book)
      driver := by
  refine { keeps with
    nodup := List.nodup_cons.mpr ⟨fun member => ?_, keeps.nodup⟩
    empty := fun other low high slot => ?_
    live := fun other size slot => ?_
    owned := fun holding member => ?_ }
  · obtain ⟨holding, inside, isIndex⟩ := List.mem_map.mp member
    exact keeps.index_ne inside isIndex
  · cases decEq other index with
    | isTrue isIndex => simp [isIndex] at slot
    | isFalse different => exact keeps.empty other low high (by simpa [different] using slot)
  · cases decEq other index with
    | isTrue isIndex =>
        subst isIndex
        rw [Function.update_self, Slot.live.injEq] at slot
        exact ⟨_, List.mem_cons_self, rfl, slot⟩
    | isFalse different =>
        obtain ⟨holding, member, facts⟩ := keeps.live other size (by simpa [different] using slot)
        exact ⟨holding, List.mem_cons_of_mem _ member, facts⟩
  · cases List.mem_cons.mp member with
    | inl isNew =>
        subst isNew
        exact ⟨named, by simp, isBlock, isSize⟩
    | inr inside =>
        obtain ⟨inRange, slot, arrays⟩ := keeps.owned holding inside
        exact ⟨inRange, by simpa [keeps.index_ne inside] using slot, arrays⟩

/-- `-1` stands for no block. -/
theorem freed_null (keeps : Keeps trace slots book driver) :
    (if slots (-1) = .empty then Slot.empty else .stale) = slots (-1) := by
  cases slot : slots (-1) with
  | empty => rfl
  | stale => rfl
  | live size =>
      obtain ⟨holding, member, isIndex, _⟩ := keeps.live (-1) size slot
      have low := (keeps.owned holding member).1.1
      omega

end Keeps

end OsPractices.Mdriver
