import OsPractices.ImplicitList.Chain

/-!
# Calls on a chain

What the functions of `mm-basic.c` do to a chain of blocks, off the branches
that leave it broken: the loop of `malloc` visits the blocks in order, `free`
joins a block with a free one before it, and a block that `malloc` returns is
in use.
-/

set_option autoImplicit false

namespace OsPractices.ImplicitList

open Library
open Malloc (State maxHeap maxHeap_eq null u64 offsetT offsetT_of_small memSbrk memSbrk_granted
  sbrkFailed unzipStat used unused border Block Mapped liveOf liveOf_split Gains status_eq_unused
  status_ne_border)

variable {state later : State} {blocks front back : List Block} {block prev next : Block}
  {top size bytes start fuel : Nat}

/-! ## The loop of malloc -/

/-- The pointers along `NEXT_PTR` come to a header with the status `BORDER`. -/
inductive ScanEnds (state : State) : Nat → Prop where
  | border {ptr : Nat} : stat state ptr = .ok Malloc.border → ScanEnds state ptr
  | next {ptr behind status : Nat} : stat state ptr = .ok status → status ≠ Malloc.border →
      nextPtr state ptr = .ok behind → ScanEnds state behind → ScanEnds state ptr

/-- A block that the loop stops at. -/
def larger (size : Nat) (block : Block) : Bool := !block.used && decide (size < block.size)

theorem larger_iff : larger size block ↔ block.status = unused ∧ size < block.size := by
  unfold larger
  rw [status_eq_unused]
  simp

namespace Chained

theorem scanEndsFrom (chained : Chained state (front ++ back) top)
    (tiled : Block.Tiled start back top) : ScanEnds state (state.heap + start) := by
  induction back generalizing front start with
  | nil =>
      have ends : start = top := tiled
      exact ends ▸ .border chained.stat_top
  | cons block rest ih =>
      obtain ⟨rfl, tail⟩ := tiled
      have member : block ∈ front ++ block :: rest := by simp
      rw [List.append_cons] at chained
      have behind := ih chained tail
      rw [← List.append_cons] at chained
      exact .next (chained.stat member) (status_ne_border block) (chained.nextPtr member) behind

theorem scanEnds (chained : Chained state blocks top) :
    ScanEnds state (ImplicitList.blockList state) := by
  rw [chained.blockList]
  exact @scanEndsFrom state [] blocks top 8 chained chained.filled.tiled

/-- The loop stops at the first free block that is larger, or at the end. -/
theorem scanFrom (chained : Chained state (front ++ back) top)
    (tiled : Block.Tiled start back top) (enough : back.length < fuel) :
    ImplicitList.scan state size fuel (state.heap + start) =
      .ok (((back.find? (larger size)).map (state.heap + ·.off, true)).getD
        (state.heap + top, false)) := by
  induction back generalizing front start fuel with
  | nil =>
      have ends : start = top := tiled
      cases fuel with
      | zero => cases enough
      | succ fuel =>
          unfold ImplicitList.scan
          rw [ends, chained.stat_top, ok_bind, if_neg (not_not.mpr rfl)]
          rfl
  | cons block rest ih =>
      cases fuel with
      | zero => cases enough
      | succ fuel =>
          obtain ⟨rfl, tail⟩ := tiled
          have member : block ∈ front ++ block :: rest := by simp
          have readStat := chained.stat member
          have readSize := chained.size member
          have readNext := chained.nextPtr member
          rw [List.append_cons] at chained
          have behind := ih chained tail (Nat.lt_of_succ_lt_succ enough)
          unfold ImplicitList.scan
          rw [readStat, ok_bind, if_pos (status_ne_border block), ok_bind, readSize, ok_bind,
            List.find?_cons]
          cases stops : larger size block with
          | true =>
              rw [if_pos (larger_iff.mp stops)]
              rfl
          | false =>
              have passes : ¬ (block.status = unused ∧ size < block.size) := by
                rw [← larger_iff, stops]
                simp
              rw [if_neg passes, readNext, ok_bind, behind]

theorem scan (chained : Chained state blocks top) (size : Nat) :
    ImplicitList.scan state size maxHeap (ImplicitList.blockList state) =
      .ok (((blocks.find? (larger size)).map (state.heap + ·.off, true)).getD
        (state.heap + top, false)) := by
  have shorter := chained.filled.tiled.length_le fun block member =>
    Nat.le_trans (by decide) (chained.filled.sizes block member).1
  have limit := chained.filled.bounded
  rw [chained.blockList]
  exact @scanFrom state [] blocks top size 8 maxHeap chained chained.filled.tiled (by omega)

/-! ## free -/

theorem offsetT_size {value : Nat} (small : value ≤ maxHeap) : offsetT value = value := by
  have limit := maxHeap_eq
  exact offsetT_of_small (by omega) (by omega)

/-- A block is joined with the one before it. -/
theorem coalesce (chained : Chained state (front ++ prev :: block :: back) top) :
    Returns (ImplicitList.coalesce state (state.heap + block.off)) fun later =>
      Chained later (front ++ prev.join block :: back) top ∧ later.heap = state.heap ∧
        ∀ offset, top ≤ offset → tagAt later offset = tagAt state offset := by
  have blockIn : block ∈ front ++ prev :: block :: back := by simp
  have prevIn : prev ∈ front ++ prev :: block :: back := by simp
  have joined : prev.join block ∈ front ++ prev.join block :: back := by simp
  have bounds := chained.filled.bounds prevIn
  have limit := chained.filled.bounded
  have multiple : prev.size % 8 = 0 := bounds.2.2.2.1
  have touches : block.off = prev.off + prev.size := chained.filled.tiled.split.2.1
  have blockBounds := chained.filled.bounds blockIn
  have readPrev : prevSize state (state.heap + block.off) = .ok prev.size := by
    unfold prevSize
    rw [chained.prevTag, ok_bind, Malloc.tag_size multiple]
    rfl
  have place : prevPtr state (state.heap + block.off) = .ok (state.heap + prev.off) := by
    have moved : ptrAdd (state.heap + block.off) (-prev.size) = state.heap + prev.off :=
      ptrAdd_at chained.mapped (by omega) (by omega)
    unfold prevPtr
    rw [readPrev, ok_bind, moved]
    rfl
  have sum : offsetT ((block.size : Int) + prev.size) = (prev.join block).size := by
    rw [← Int.natCast_add, offsetT_size (by omega), Nat.add_comm]
    rfl
  have tagged := setTags_eq chained.mapped chained.filled.join joined
  change setTags state (state.heap + prev.off) (prev.join block).size unused = _ at tagged
  refine ⟨putTags state (prev.join block), ?_, chained.retag chained.filled.join joined ?_, rfl,
    fun offset behind => ?_⟩
  · unfold ImplicitList.coalesce
    rw [chained.size blockIn, ok_bind, readPrev, ok_bind, place, ok_bind, sum]
    exact tagged
  · intro other inside apart
    simp only [List.mem_append, List.mem_cons] at inside ⊢
    rcases inside with inFront | isJoined | inBack
    · exact .inl inFront
    · exact absurd isJoined apart
    · exact .inr (.inr (.inr inBack))
  · have range := chained.filled.join.bounds joined
    rw [tagAt_putTags chained.filled.join joined, Function.update_of_ne (by omega),
      Function.update_of_ne (by omega)]

/-- A block gets its tags with another status. -/
theorem mark (chained : Chained state (front ++ block :: back) top) (used : Bool) :
    Returns (setTags state (state.heap + block.off) block.size
        (Block.status ⟨block.off, block.size, used⟩)) fun later =>
      Chained later (front ++ ⟨block.off, block.size, used⟩ :: back) top ∧
        later.heap = state.heap := by
  have filled := chained.filled.mark used
  have member : (⟨block.off, block.size, used⟩ : Block) ∈
      front ++ ⟨block.off, block.size, used⟩ :: back := by simp
  refine ⟨_, setTags_eq chained.mapped filled member, chained.retag filled member ?_, rfl⟩
  exact fun _ inside apart => mem_beside _ (beside_of_ne inside apart)

/-- `free` of the first block reads a word that is not mapped; another block
leaves the blocks in use. -/
theorem free (chained : Chained state (front ++ block :: back) top) :
    ReturnsOr .segv (ImplicitList.free state (state.heap + block.off)) fun later =>
      ∃ blocks, Chained later blocks top ∧ liveOf blocks = liveOf (front ++ back) ∧
        later.heap = state.heap := by
  unfold ImplicitList.free prevStat
  cases List.eq_nil_or_concat front with
  | inl empty =>
      subst empty
      have first : block.off = 8 := chained.filled.tiled.1
      left
      rw [first, prevTag_first chained.mapped]
      rfl
  | inr ends =>
      obtain ⟨front, prev, ends⟩ := ends
      rw [List.concat_eq_append] at ends
      subst ends
      have regroup : front ++ [prev] ++ block :: back = front ++ prev :: block :: back := by simp
      have whole := chained
      rw [regroup] at whole
      rw [whole.prevTag, ok_bind, pure_eq_ok, ok_bind, Malloc.tag_stat]
      right
      cases Nat.decEq prev.status unused with
      | isTrue free =>
          have others : front ++ [prev] ++ back = front ++ prev :: back := by simp
          rw [if_pos free]
          refine whole.coalesce.mono fun joined result => ⟨_, result.1, ?_, result.2.1⟩
          rw [others, liveOf_split, if_neg (by simp [Block.join]), liveOf_split,
            if_neg (by simp [status_eq_unused.mp free])]
      | isFalse busy =>
          have member : block ∈ front ++ [prev] ++ block :: back := by simp
          have bounds := chained.filled.bounds member
          have limit := chained.filled.bounded
          rw [if_neg busy, chained.size member, ok_bind, offsetT_size (by omega)]
          refine (chained.mark false).mono fun marked result => ⟨_, result.1, ?_, result.2⟩
          rw [liveOf_split, if_neg (by simp)]

end Chained

end OsPractices.ImplicitList
