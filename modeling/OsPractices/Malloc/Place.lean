import OsPractices.Malloc.Release
import OsPractices.Malloc.Search

/-!
# Placing a block

`split` and `place` on memory that represents a layout: a free block goes to
the client, and what it does not need becomes a free block of its own.
-/

set_option autoImplicit false

namespace OsPractices.Malloc

open Library

variable {state : State} {front back : List Block} {block : Block} {bins : Bins}
  {top size : Nat}

/-- The parts that `split` cuts a block into. -/
theorem Retags.cut (laid : Laid 16 (front ++ block :: back) top) (enough : 16 ≤ size)
    (multiple : size % 8 = 0) (large : size + 16 < block.size) :
    Retags (front ++ block :: back) none
      (front ++ ⟨block.off, size, true⟩ :: ⟨block.off + size, block.size - size, false⟩ :: back)
      (some block.off) ⟨block.off + size, block.size - size, false⟩ top where
  laid := laid.cut (by decide) enough multiple large
  member := by simp
  kept other member apart sound := by
    refine ⟨?_, by simp⟩
    simp only [List.mem_append, List.mem_cons] at member ⊢
    rcases member with inFront | isFirst | isRest | inBack
    · exact .inl inFront
    · exact absurd (by rw [isFirst]) sound
    · exact absurd isRest apart
    · exact .inr (.inr inBack)

theorem ListsStay.cut (unlisted : Unlisted bins block.off)
    (laid : Laid 16 (front ++ block :: back) top) :
    ListsStay bins (front ++ block :: back)
      (front ++ ⟨block.off, size, true⟩ :: ⟨block.off + size, block.size - size, false⟩ :: back)
      (some block.off) := by
  intro rank small other member inList
  have apart : other ≠ block := fun same => unlisted rank small (same ▸ inList)
  have inRest := beside_of_ne member apart
  refine ⟨fun same => laid.off_ne (by decide) rfl other inRest (Option.some.inj same).symm,
    other, ?_, rfl, rfl⟩
  exact mem_beside _ (mem_beside _ inRest)

/-- What `split` leaves: the first part has wrong tags. -/
theorem Represents.split (represents : Represents state ⟨front ++ block :: back, bins, top⟩ none)
    (unlisted : Unlisted bins block.off) (enough : 16 ≤ size) (multiple : size % 8 = 0)
    (large : size + 16 < block.size) :
    Returns (Malloc.split state (state.heap + block.off) size)
      (Yields
        (front ++ ⟨block.off, size, true⟩ :: ⟨block.off + size, block.size - size, false⟩ :: back)
        state
        ⟨front ++ ⟨block.off, size, true⟩ :: ⟨block.off + size, block.size - size, false⟩ :: back,
          bins.push ⟨block.off + size, block.size - size, false⟩, top⟩ (some block.off)) := by
  have limit := maxHeap_eq
  have below := represents.framed.ready.below
  have laid := represents.framed.laid
  have member : block ∈ front ++ block :: back := by simp
  have bounds := laid.bounds member
  have readSize := represents.framed.size member (by simp)
  have newptr : u64 ((state.heap + block.off : Nat) + size) = state.heap + (block.off + size) := by
    unfold u64
    omega
  have remnant : u32 ((block.size : Int) - size) = block.size - size := by
    unfold u32
    omega
  have cut := laid.cut (by decide) enough multiple large
  have restIn : (⟨block.off + size, block.size - size, false⟩ : Block) ∈ front ++
      ⟨block.off, size, true⟩ :: ⟨block.off + size, block.size - size, false⟩ :: back := by simp
  have sound : some block.off ≠ some (block.off + size) := by
    simp only [ne_eq, Option.some.injEq]
    omega
  have fresh : ∀ rank < 3, block.off + size ∉ bins rank := by
    intro rank small inList
    obtain ⟨other, inside, place, _⟩ := represents.node rank small _ inList
    rcases laid.before_or_behind inside member with same | before | behind
    · subst same
      omega
    · omega
    · omega
  have tagged := represents.setTags (.cut laid enough multiple large) (.cut unlisted laid)
  unfold Malloc.split
  rw [readSize, ok_bind]
  simp only [newptr, remnant]
  change Returns (Malloc.setTags state (state.heap + (block.off + size)) (block.size - size) unused
    >>= _) _
  refine Returns.bind tagged fun state₁ yields₁ => ?_
  have pushed := yields₁.represents.listPush restIn sound fresh
  rw [← yields₁.heap]
  change Returns (Malloc.listPush state₁ (state₁.heap + (block.off + size))
    (getRank (block.size - size)) >>= _) _
  refine Returns.bind pushed fun state₂ yields₂ => ?_
  have checked := yields₂.represents.framed.assertStat restIn sound
  rw [yields₂.heap] at checked
  exact .of_eq (bind_eq_ok_iff.mpr ⟨(), checked, rfl⟩) (yields₁.trans yields₂)

/-- A block cut down keeps its first bytes. -/
theorem Covers.shrink {size' : Nat} {used : Bool} (fits : size' ≤ block.size) :
    Covers (front ++ block :: back) (front ++ ⟨block.off, size', used⟩ :: back) := by
  intro other member byte owns
  simp only [List.mem_append, List.mem_cons] at member
  rcases member with inFront | same | inBack
  · exact ⟨other, by simp [inFront], owns⟩
  · subst same
    exact ⟨block, by simp, owns.1, by have := owns.2; simp only at this; omega⟩
  · exact ⟨other, by simp [inBack], owns⟩

theorem placedSize_le (fits : size ≤ block.size) : block.placedSize size ≤ block.size := by
  unfold Block.placedSize
  split
  · exact fits
  · exact Nat.le_refl _

/-- `place` of a block that is in no list. -/
theorem Represents.place_unlisted
    (represents : Represents state ⟨front ++ block :: back, bins, top⟩ none)
    (unlisted : Unlisted bins block.off) (enough : 16 ≤ size) (multiple : size % 8 = 0)
    (fits : size ≤ block.size) :
    Returns (Malloc.place state (state.heap + block.off) size true)
      (Yields (front ++ ⟨block.off, block.placedSize size, true⟩ :: back) state
        (Layout.placeBetween front block back bins top size) none) := by
  have limit := maxHeap_eq
  have member : block ∈ front ++ block :: back := by simp
  have bounds := represents.framed.laid.bounds member
  have readSize := represents.framed.size member (by simp)
  have remnant : u32 ((block.size : Int) - size) = block.size - size := by
    unfold u32
    omega
  unfold Malloc.place
  rw [readSize, ok_bind]
  simp only [if_true, pure_eq_ok, ok_bind, remnant, metaSize_eq]
  cases Nat.decLt (size + 16) block.size with
  | isTrue large =>
      have placed : block.placedSize size = size := if_pos large
      rw [placeBetween_cut large, placed, if_pos (by omega)]
      have covers : Covers
          (front ++ ⟨block.off, size, true⟩ :: ⟨block.off + size, block.size - size, false⟩ :: back)
          (front ++ ⟨block.off, size, true⟩ :: back) := by
        apply Covers.of_subset
        intro other inside
        exact mem_behind _ inside
      refine Returns.bind (represents.split unlisted enough multiple large) fun state₁ yields₁ => ?_
      have marked := yields₁.represents.mark true (by simp)
      rw [yields₁.heap] at marked
      exact marked.mono fun state₂ yields₂ => (yields₁.trans yields₂).cover covers
  | isFalse tight =>
      have placed : block.placedSize size = block.size := if_neg tight
      rw [placeBetween_whole tight, placed, if_neg (by omega)]
      exact represents.mark true (by simp)

/-- `place` of a block that is still in its list. -/
theorem Represents.place (represents : Represents state ⟨front ++ block :: back, bins, top⟩ none)
    (inList : block.off ∈ bins (getRank block.size)) (enough : 16 ≤ size)
    (multiple : size % 8 = 0) (fits : size ≤ block.size) :
    Returns (Malloc.place state (state.heap + block.off) size false)
      (Yields (front ++ ⟨block.off, block.placedSize size, true⟩ :: back) state
        (Layout.placeBetween front block back (bins.remove block) top size) none) := by
  have member : block ∈ front ++ block :: back := by simp
  have readSize := represents.framed.size member (by simp)
  obtain ⟨state₁, run₁, yields₁⟩ := represents.listRemove inList
  have readSize₁ := yields₁.represents.framed.size member (by simp)
  have placed := yields₁.represents.place_unlisted (represents.unlisted_remove inList) enough
    multiple fits
  rw [yields₁.heap] at readSize₁ placed
  have same : Malloc.place state (state.heap + block.off) size false =
      Malloc.place state₁ (state.heap + block.off) size true := by
    unfold Malloc.place
    rw [readSize, readSize₁]
    simp only [ok_bind, if_true, Bool.false_eq_true, if_false, pure_eq_ok, run₁]
  rw [same]
  refine placed.mono fun state₂ yields₂ => ?_
  exact (yields₁.cover (.shrink (placedSize_le fits))).trans yields₂

end OsPractices.Malloc
