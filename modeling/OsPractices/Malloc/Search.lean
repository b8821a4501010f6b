import Mathlib.Data.List.Perm.Subperm
import OsPractices.Malloc.Tags

/-!
# The search for a free block

`find_fit` and the loop over the ranks in `malloc` find what first fit over the
lists of the layout finds.
-/

set_option autoImplicit false

namespace OsPractices.Malloc

open Library

variable {state : State} {layout : Layout}

namespace Represents

theorem sizeOf_eq (represents : Represents state layout none) {block : Block}
    (member : block ∈ layout.blocks) : layout.sizeOf block.off = block.size :=
  represents.framed.laid.sizeOf_eq (by decide) member layout.bins

/-- Every list is shorter than the heap. -/
theorem length_lt (represents : Represents state layout none) {rank : Nat} (small : rank < 3) :
    (layout.bins rank).length < maxHeap := by
  have limit := maxHeap_eq
  have inside : layout.bins rank ⊆ List.range (maxHeap - 1) := by
    intro off inList
    have := represents.framed.lt_node (represents.node rank small off inList)
    exact List.mem_range.mpr (by omega)
  have shorter := (List.Nodup.subperm (represents.listed rank small).nodup inside).length_le
  rw [List.length_range] at shorter
  omega

/-- The loop of `find_fit` from any place of a list. -/
theorem findFitLoop (represents : Represents state layout none) {size rank fuel : Nat}
    (small : rank < 3) {before : Option Nat} {offs : List Nat}
    (inside : ∀ off ∈ offs, off ∈ layout.bins rank)
    (segment : Segment (links (words state) rank).next (links (words state) rank).prev before offs
      none) (enough : offs.length < fuel) :
    Malloc.findFitLoop state size fuel (state.heap + encodeLink offs.head?) =
      .ok (((offs.find? (size ≤ layout.sizeOf ·)).map (state.heap + ·)).getD null) := by
  induction offs generalizing before fuel with
  | nil =>
      obtain ⟨status, read, isBorder⟩ := represents.framed.stat_link
        (by simp : ∀ off ∈ (none : Option Nat), Node layout.blocks none off)
      cases fuel with
      | zero => cases enough
      | succ fuel =>
          unfold Malloc.findFitLoop
          rw [List.head?_nil, read, ok_bind, if_neg (not_not.mpr (isBorder.mpr rfl))]
          rfl
  | cons off rest ih =>
      cases fuel with
      | zero => cases enough
      | succ fuel =>
          obtain ⟨_, forth, tail⟩ := segment
          rw [Option.or_none] at forth
          have node := represents.node rank small off (inside off List.mem_cons_self)
          have later : ∀ next ∈ rest, next ∈ layout.bins rank :=
            fun next inRest => inside next (List.mem_cons_of_mem _ inRest)
          have target : ∀ next ∈ (links (words state) rank).next off,
              Node layout.blocks none next := by
            intro next points
            rw [forth] at points
            exact represents.node rank small next (later next (List.mem_of_head? points))
          have readNext := represents.framed.listNext rank node target
          rw [forth] at readNext
          have search := ih later tail (Nat.lt_of_succ_lt_succ enough)
          obtain ⟨block, member, rfl, sound⟩ := node
          have readStat := represents.framed.stat member sound
          have readSize := represents.framed.size member sound
          unfold Malloc.findFitLoop
          rw [List.head?_cons, encodeLink_some, readStat, ok_bind,
            if_pos (status_ne_border block), readSize, ok_bind, List.find?_cons,
            represents.sizeOf_eq member]
          cases Nat.decLe size block.size with
          | isTrue fits => simp [fits]
          | isFalse small' => simp only [small', if_false, readNext, ok_bind, search, decide_false]

/-- `find_fit` in the list of one rank. -/
theorem findFit (represents : Represents state layout none) (size : Nat) {rank : Nat}
    (small : rank < 3) :
    Malloc.findFit state size rank =
      .ok ((((layout.bins rank).find? (size ≤ layout.sizeOf ·)).map (state.heap + ·)).getD null) := by
  have listed := represents.listed rank small
  unfold Malloc.findFit
  rw [represents.list small, ok_bind, listed.head]
  exact represents.findFitLoop small (fun _ inList => inList) listed.segment
    (represents.length_lt small)

/-- The search of `malloc` over the ranks from one up. -/
theorem fitLoop (represents : Represents state layout none) (size : Nat) {fuel rank : Nat}
    (small : rank < 3) (enough : 3 ≤ rank + fuel) :
    ∃ last, Malloc.fitLoop state size fuel rank =
        .ok (((((List.range' rank (3 - rank)).flatMap layout.bins).find?
          (size ≤ layout.sizeOf ·)).map (state.heap + ·)).getD null, last) ∧
      ∀ off ∈ ((List.range' rank (3 - rank)).flatMap layout.bins).find? (size ≤ layout.sizeOf ·),
        off ∈ layout.bins last := by
  induction fuel generalizing rank with
  | zero => omega
  | succ fuel ih =>
      obtain ⟨more, count⟩ : ∃ more, 3 - rank = more + 1 := ⟨2 - rank, by omega⟩
      have found := represents.findFit size small
      rw [count, List.range'_succ, List.flatMap_cons, List.find?_append]
      unfold Malloc.fitLoop
      rw [found, ok_bind]
      cases first : (layout.bins rank).find? (size ≤ layout.sizeOf ·) with
      | some off =>
          refine ⟨rank, ?_, ?_⟩
          · have notNull : state.heap + off ≠ null := represents.framed.ready.toMapped.ne_null
            simp [notNull]
          · intro other same
            cases same
            exact List.mem_of_find?_eq_some first
      | none =>
          simp only [Option.map_none, Option.getD_none, if_true, Option.none_or]
          cases Nat.decLt (rank + 1) 3 with
          | isTrue below =>
              have rest := ih below (by omega)
              have count' : 3 - (rank + 1) = more := by omega
              rw [count'] at rest
              simp only [stpBlkBits, rankNum_eq, below, if_true]
              exact rest
          | isFalse above =>
              have empty : more = 0 := by omega
              subst empty
              refine ⟨rank + 1, ?_, by simp⟩
              simp [stpBlkBits, above]

end Represents

end OsPractices.Malloc
