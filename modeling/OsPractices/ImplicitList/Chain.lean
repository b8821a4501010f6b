import OsPractices.ImplicitList.Tags
import OsPractices.Malloc.Operations

/-!
# The chain of blocks

What the tags of `mm-basic.c` mean while the word behind the last block says
`BORDER`: blocks that fill the heap from the first pointer on, each with its
size and status before and behind its payload.
-/

set_option autoImplicit false

namespace OsPractices.ImplicitList

open Library
open Malloc (State maxHeap maxHeap_eq null u64 offsetT align unzipSize unzipStat used unused border
  Block Mapped tag_size tag_stat status_ne_border)

variable {state : State} {blocks blocks' front back : List Block} {block prev next target : Block}
  {top length : Nat}

/-- The blocks fill the heap between the prologue and the epilogue. -/
structure Filled (blocks : List Block) (top : Nat) : Prop where
  tiled : Block.Tiled 8 blocks top
  sizes : ∀ block ∈ blocks, 8 ≤ block.size ∧ block.size % 8 = 0
  bounded : top + 8 ≤ maxHeap

namespace Filled

theorem bounds (filled : Filled blocks top) (member : block ∈ blocks) :
    8 ≤ block.off ∧ block.off % 8 = 0 ∧ 8 ≤ block.size ∧ block.size % 8 = 0 ∧
      block.off + block.size ≤ top := by
  obtain ⟨low, high⟩ := filled.tiled.bounds member
  obtain ⟨large, multiple⟩ := filled.sizes block member
  have places := (filled.tiled.multiples (by decide : 8 ∣ 8)
    fun other inside => Nat.dvd_of_mod_eq_zero (filled.sizes other inside).2).1
  exact ⟨low, Nat.mod_eq_zero_of_dvd (places block member), large, multiple, high⟩

theorem top_bounds (filled : Filled blocks top) : 8 ≤ top ∧ top % 8 = 0 := by
  have last := (filled.tiled.multiples (by decide : 8 ∣ 8)
    fun other inside => Nat.dvd_of_mod_eq_zero (filled.sizes other inside).2).2
  exact ⟨filled.tiled.start_le_stop, Nat.mod_eq_zero_of_dvd last⟩

theorem before_or_behind (filled : Filled blocks top) {left right : Block}
    (leftMember : left ∈ blocks) (rightMember : right ∈ blocks) :
    left = right ∨ left.off + left.size ≤ right.off ∨ right.off + right.size ≤ left.off := by
  cases decEq left right with
  | isTrue same => exact .inl same
  | isFalse different => exact .inr (filled.tiled.apart leftMember rightMember different)

theorem off_ne (filled : Filled (front ++ block :: back) top) :
    ∀ other ∈ front ++ back, other.off ≠ block.off :=
  filled.tiled.first_ne fun other member =>
    Nat.lt_of_lt_of_le (by decide) (filled.sizes other member).1

/-- Replace a stretch of blocks by one block over the same interval. -/
theorem replace {middle : List Block} (filled : Filled (front ++ middle ++ back) top)
    (same : ∀ {left right}, Block.Tiled left middle right → Block.Tiled left [block] right)
    (size : 8 ≤ block.size ∧ block.size % 8 = 0) : Filled (front ++ block :: back) top := by
  have tiled := filled.tiled.replace same
  rw [List.append_assoc, List.singleton_append] at tiled
  refine ⟨tiled, fun other member => ?_, filled.bounded⟩
  simp only [List.mem_append, List.mem_cons] at member
  rcases member with inFront | isBlock | inBack
  · exact filled.sizes other (by simp [inFront])
  · exact isBlock ▸ size
  · exact filled.sizes other (by simp [inBack])

theorem mark (filled : Filled (front ++ block :: back) top) (used : Bool) :
    Filled (front ++ ⟨block.off, block.size, used⟩ :: back) top := by
  have sizes := filled.sizes block (by simp)
  rw [List.append_cons] at filled
  exact filled.replace (fun tiled => tiled) sizes

theorem join (filled : Filled (front ++ block :: next :: back) top) :
    Filled (front ++ block.join next :: back) top := by
  have blockSizes := filled.sizes block (by simp)
  have nextSizes := filled.sizes next (by simp)
  have regroup : front ++ block :: next :: back = front ++ [block, next] ++ back := by simp
  rw [regroup] at filled
  refine filled.replace (fun tiled => ?_) ?_
  · simp only [Tiled, Block.join] at tiled ⊢
    omega
  · simp only [Block.join]
    omega

theorem grow (filled : Filled blocks top) (large : 8 ≤ length) (multiple : length % 8 = 0)
    (room : top + length + 8 ≤ maxHeap) :
    Filled (blocks ++ [⟨top, length, true⟩]) (top + length) := by
  refine ⟨Tiled.append_iff.mpr ⟨top, filled.tiled, rfl, rfl⟩, fun other member => ?_, room⟩
  cases List.mem_append.mp member with
  | inl old => exact filled.sizes other old
  | inr new =>
      rw [List.mem_singleton.mp new]
      exact ⟨large, multiple⟩

end Filled

/-- The heap is a chain of blocks, whatever comes behind the last one. -/
structure Linked (state : State) (blocks : List Block) (top : Nat) : Prop where
  mapped : Mapped state
  base : state.heapBase = state.heap
  brk : state.memBrk = state.heap + (top + 8)
  filled : Filled blocks top
  tags : ∀ block ∈ blocks,
    tagAt state (block.off - 8) = block.tag ∧ tagAt state (block.off + block.size - 16) = block.tag

/-- The heap is a chain of blocks with a `BORDER` behind the last one. -/
structure Chained (state : State) (blocks : List Block) (top : Nat) : Prop extends
    Linked state blocks top where
  ends : unzipStat (tagAt state (top - 8)) = border

/-! ## Reading the chain -/

namespace Linked

theorem size (linked : Linked state blocks top) (member : block ∈ blocks) :
    ImplicitList.size state (state.heap + block.off) = .ok block.size := by
  have bounds := linked.filled.bounds member
  have limit := linked.filled.bounded
  rw [size_at linked.mapped bounds.2.1 bounds.1 (by omega), (linked.tags block member).1,
    tag_size bounds.2.2.2.1]

theorem stat (linked : Linked state blocks top) (member : block ∈ blocks) :
    ImplicitList.stat state (state.heap + block.off) = .ok block.status := by
  have bounds := linked.filled.bounds member
  have limit := linked.filled.bounded
  rw [stat_at linked.mapped bounds.2.1 bounds.1 (by omega), (linked.tags block member).1, tag_stat]

theorem nextPtr (linked : Linked state blocks top) (member : block ∈ blocks) :
    ImplicitList.nextPtr state (state.heap + block.off) =
      .ok (state.heap + (block.off + block.size)) := by
  have bounds := linked.filled.bounds member
  have limit := linked.filled.bounded
  exact nextPtr_of_size linked.mapped (linked.size member) (by omega)

/-- The footer of the block before a block. -/
theorem prevTag (linked : Linked state (front ++ prev :: block :: back) top) :
    ImplicitList.prevTag state (state.heap + block.off) = .ok prev.tag := by
  have prevIn : prev ∈ front ++ prev :: block :: back := by simp
  have blockIn : block ∈ front ++ prev :: block :: back := by simp
  have prevBounds := linked.filled.bounds prevIn
  have bounds := linked.filled.bounds blockIn
  have limit := linked.filled.bounded
  have touches : block.off = prev.off + prev.size := linked.filled.tiled.split.2.1
  rw [prevTag_at linked.mapped bounds.2.1 (by omega) (by omega), touches,
    (linked.tags prev prevIn).2]

theorem blockList (linked : Linked state blocks top) :
    ImplicitList.blockList state = state.heap + 8 := by
  unfold ImplicitList.blockList
  rw [linked.base]
  exact @ptrAdd_at state 0 linked.mapped _ 8 (by decide) (by decide)

end Linked

namespace Chained

theorem stat_top (chained : Chained state blocks top) :
    ImplicitList.stat state (state.heap + top) = .ok border := by
  have bounds := chained.filled.top_bounds
  have limit := chained.filled.bounded
  rw [stat_at chained.mapped bounds.2 bounds.1 (by omega), chained.ends]

/-- The status behind a block: that of the next one, or of the epilogue. -/
theorem nextStat (chained : Chained state (front ++ block :: back) top) :
    ImplicitList.nextStat state (state.heap + block.off) =
      .ok ((back.head?.map Block.status).getD border) := by
  have behind := chained.filled.tiled.split.2
  unfold ImplicitList.nextStat
  rw [chained.nextPtr (by simp), ok_bind]
  cases back with
  | nil =>
      have ends : block.off + block.size = top := behind
      rw [ends]
      exact chained.stat_top
  | cons next rest =>
      have starts : next.off = block.off + block.size := behind.1
      rw [← starts]
      exact chained.stat (by simp)

end Chained

/-! ## Writing tags -/

/-- The two tags of a block are written. -/
def putTags (state : State) (block : Block) : State :=
  put (put state (block.off - 8) block.tag) (block.off + block.size - 16) block.tag

theorem tagAt_putTags (filled : Filled blocks top) (member : target ∈ blocks) :
    tagAt (putTags state target) =
      Function.update (Function.update (tagAt state) (target.off - 8) target.tag)
        (target.off + target.size - 16) target.tag := by
  have bounds := filled.bounds member
  have limit := filled.bounded
  have large := maxHeap_eq
  have small : target.tag % 2 ^ 64 = target.tag := by
    unfold Block.tag Malloc.zip
    omega
  unfold putTags
  rw [tagAt_put (by omega), tagAt_put (by omega), small]

theorem tags_putTags (filled : Filled blocks top) (member : target ∈ blocks) :
    tagAt (putTags state target) (target.off - 8) = target.tag ∧
      tagAt (putTags state target) (target.off + target.size - 16) = target.tag := by
  rw [tagAt_putTags filled member]
  refine ⟨?_, Function.update_self _ _ _⟩
  rw [Function.update_apply]
  split
  · rfl
  · rw [Function.update_self]

theorem setTags_eq (mapped : Mapped state) (filled : Filled blocks top) (member : target ∈ blocks) :
    setTags state (state.heap + target.off) target.size target.status =
      .ok (putTags state target) := by
  have bounds := filled.bounds member
  have limit := filled.bounded
  have low : target.status < 8 := by
    unfold Block.status
    split <;> decide
  exact setTags_at mapped bounds.2.1 bounds.1 bounds.2.2.2.1 bounds.2.2.1 (by omega) low

/-- A block gets new tags; the others were there before. -/
theorem Chained.retag (chained : Chained state blocks top) (filled : Filled blocks' top)
    (member : target ∈ blocks') (kept : ∀ other ∈ blocks', other ≠ target → other ∈ blocks) :
    Chained (putTags state target) blocks' top := by
  have stored := @tagAt_putTags state _ _ _ filled member
  have bounds := filled.bounds member
  have mapped := chained.mapped
  refine ⟨⟨mapped.of_same rfl rfl, chained.base, chained.brk,
    filled, fun other inside => ?_⟩, ?_⟩
  · cases decEq other target with
    | isTrue same =>
        subst same
        exact tags_putTags filled inside
    | isFalse different =>
        have range := filled.bounds inside
        have apart := filled.before_or_behind member inside
        have tags := chained.tags other (kept other inside different)
        rw [stored, Function.update_of_ne (by grind), Function.update_of_ne (by grind),
          Function.update_of_ne (by grind), Function.update_of_ne (by grind)]
        exact tags
  · rw [stored, Function.update_of_ne (by omega), Function.update_of_ne (by omega)]
    exact chained.ends

end OsPractices.ImplicitList
