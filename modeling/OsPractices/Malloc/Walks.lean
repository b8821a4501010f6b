import OsPractices.Malloc.Resize

/-!
# Walks over the heap

The loops of `mm_checkheap`: from the block after the prologue to the epilogue,
and along each free list. On memory that represents a layout they visit its
blocks.
-/

set_option autoImplicit false

namespace OsPractices.Malloc

open Library

variable {state : State} {layout : Layout} {least : Nat}

/-- The pointer to a block. -/
def State.ptrOf (state : State) (block : Block) : Nat := state.heap + block.off

theorem Represents.firstBlock (represents : Represents state layout none) :
    Malloc.firstBlock state = state.heap + 32 := by
  have limit := maxHeap_eq
  have prologue := proBdrPtr_at represents.framed.ready
  unfold Malloc.firstBlock
  rw [prologue]
  exact represents.framed.ready.toMapped.ptrIncr_eq (by decide) (by decide) (by decide) (by omega)

/-- A walk from a block on visits it and the blocks behind it. -/
theorem Represents.heapWalkFrom (represents : Represents state layout none) {fuel : Nat}
    {front back : List Block} (whole : layout.blocks = front ++ back) (enough : back.length < fuel)
    {start : Nat} (tiled : Block.Tiled start back layout.top) :
    Malloc.heapWalk state fuel (state.heap + start) =
      .ok (back.map state.ptrOf, state.heap + layout.top) := by
  have framed := represents.framed
  induction back generalizing front fuel start with
  | nil =>
      cases fuel with
      | zero => cases enough
      | succ fuel =>
          have ends : start = layout.top := tiled
          have low := framed.laid.tiled.start_le_stop
          have aligned := framed.laid.aligned.2
          have bound := framed.laid.bounded
          have read : state.stat (state.heap + layout.top) = .ok border := by
            rw [stat_at framed.ready.toMapped (by omega) (by omega) (by omega)]
            unfold statAt
            rw [framed.epilogue]
            rfl
          unfold Malloc.heapWalk
          rw [ends, read, ok_bind, if_neg (not_not.mpr rfl)]
          rfl
  | cons block rest ih =>
      cases fuel with
      | zero => cases enough
      | succ fuel =>
          obtain ⟨rfl, tail⟩ := tiled
          have member : block ∈ layout.blocks := by simp [whole]
          have readStat := framed.stat member (by simp)
          have readNext := framed.heapNext member (by simp)
          have later := ih (whole.trans (List.append_cons front block rest))
            (Nat.lt_of_succ_lt_succ enough) tail
          unfold Malloc.heapWalk
          rw [readStat, ok_bind, if_pos (status_ne_border block), readNext, ok_bind, later, ok_bind]
          rfl

/-- The walk over the whole heap. -/
theorem Represents.heapWalk (represents : Represents state layout none) :
    Malloc.heapWalk state maxHeap (Malloc.firstBlock state) =
      .ok (layout.blocks.map state.ptrOf, state.heap + layout.top) := by
  have laid := represents.framed.laid
  have shorter := laid.tiled.length_le fun block member => by
    have := (laid.sizes block member).1
    omega
  have bound := laid.bounded
  rw [represents.firstBlock]
  exact represents.heapWalkFrom (List.nil_append _).symm (by omega) laid.tiled

theorem Represents.epiBdrPtr (represents : Represents state layout none) :
    Malloc.epiBdrPtr state = state.heap + layout.top :=
  epiBdrPtr_at represents.framed.ready.toMapped represents.framed.brk represents.framed.laid.bounded

/-- The walk along a list from any of its places. -/
theorem Represents.listWalkFrom (represents : Represents state layout none) {rank fuel : Nat}
    (small : rank < 3) {before : Option Nat} {offs : List Nat}
    (inside : ∀ off ∈ offs, off ∈ layout.bins rank)
    (segment : Segment (links (words state) rank).next (links (words state) rank).prev before offs
      none) (enough : offs.length < fuel) :
    Malloc.listWalk state fuel (state.heap + encodeLink offs.head?) =
      .ok (offs.map (state.heap + ·)) := by
  induction offs generalizing before fuel with
  | nil =>
      obtain ⟨status, read, isBorder⟩ := represents.framed.stat_link
        (by simp : ∀ off ∈ (none : Option Nat), Node layout.blocks none off)
      cases fuel with
      | zero => cases enough
      | succ fuel =>
          unfold Malloc.listWalk
          rw [List.head?_nil, read, ok_bind, if_neg (not_not.mpr (isBorder.mpr rfl))]
          rfl
  | cons off rest ih =>
      cases fuel with
      | zero => cases enough
      | succ fuel =>
          obtain ⟨_, forth, tail⟩ := segment
          rw [Option.or_none] at forth
          have node := represents.node rank small off (inside off List.mem_cons_self)
          have later : ∀ next ∈ rest, next ∈ layout.bins rank :=
            fun next inRest => inside next (List.mem_cons_of_mem _ inRest)
          have target : ∀ next ∈ (links (words state) rank).next off,
              Node layout.blocks none next := by
            intro next points
            rw [forth] at points
            exact represents.node rank small next (later next (List.mem_of_head? points))
          have readNext := represents.framed.listNext rank node target
          rw [forth] at readNext
          have walk := ih later tail (Nat.lt_of_succ_lt_succ enough)
          obtain ⟨block, member, rfl, sound⟩ := node
          have readStat := represents.framed.stat member sound
          unfold Malloc.listWalk
          rw [List.head?_cons, encodeLink_some, readStat, ok_bind,
            if_pos (status_ne_border block), readNext, ok_bind, walk, ok_bind]
          rfl

theorem Represents.listWalk (represents : Represents state layout none) {rank : Nat}
    (small : rank < 3) :
    (Malloc.list state rank >>= Malloc.listWalk state maxHeap) =
      .ok ((layout.bins rank).map (state.heap + ·)) := by
  have listed := represents.listed rank small
  rw [represents.list small, ok_bind, listed.head]
  exact represents.listWalkFrom small (fun _ inList => inList) listed.segment
    (represents.length_lt small)

end OsPractices.Malloc
