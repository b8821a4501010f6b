import OsPractices.Malloc.Represents

/-!
# The free lists in memory

`list_remove` and `list_push` on memory that represents a layout: the stores
they make are the pointer updates of a doubly linked list.
-/

set_option autoImplicit false

namespace OsPractices.Malloc

open Library

/-- What a step of the package leaves: memory for a new layout, and the
payloads of `blocks` as they were. -/
structure Yields (blocks : List Block) (state : State) (layout : Layout) (broken : Option Nat)
    (state' : State) : Prop where
  represents : Represents state' layout broken
  heap : state'.heap = state.heap
  keeps : Keeps blocks state state'

variable {state state' : State} {blocks : List Block} {top : Nat} {broken : Option Nat}
  {layout layout' : Layout} {broken' : Option Nat}

theorem Yields.refl (represents : Represents state layout broken) :
    Yields blocks state layout broken state :=
  ⟨represents, rfl, fun _ _ _ _ => rfl⟩

theorem Yields.trans {state'' : State} (first : Yields blocks state layout broken state')
    (second : Yields blocks state' layout' broken' state'') :
    Yields blocks state layout' broken' state'' :=
  ⟨second.represents, second.heap.trans first.heap, first.keeps.trans first.heap second.keeps⟩

theorem Yields.cover {fewer : List Block} (yields : Yields blocks state layout broken state')
    (covers : Covers blocks fewer) : Yields fewer state layout broken state' :=
  ⟨yields.represents, yields.heap, yields.keeps.cover covers⟩

namespace Framed

theorem link_le (framed : Framed state blocks top broken) {value : Option Nat}
    (node : ∀ off ∈ value, Node blocks broken off) :
    24 ≤ encodeLink value ∧ encodeLink value + 16 ≤ maxHeap ∧ encodeLink value % 8 = 0 := by
  cases value with
  | none => decide
  | some off =>
      have := framed.lt_node (node off rfl)
      simp only [encodeLink]
      omega

theorem ptrDiff_link (framed : Framed state blocks top broken) {value : Option Nat}
    (node : ∀ off ∈ value, Node blocks broken off) :
    ptrDiff (state.heap + encodeLink value) state.heapBase = encodeLink value := by
  have limit := maxHeap_eq
  have := framed.link_le node
  exact framed.ready.ptrDiff_at (by omega)

theorem prePtr_node (framed : Framed state blocks top broken) {off : Nat}
    (node : Node blocks broken off) :
    state.prePtr (state.heap + off) = .ok (state.heap + preAt (words state) off) := by
  obtain ⟨block, member, rfl, sound⟩ := node
  have bounds := framed.laid.bounds member
  have size := framed.sizeAt_eq member sound
  exact prePtr_at framed.ready.toMapped (by omega) (by omega) (by omega) (by omega)

theorem set_next (framed : Framed state blocks top broken) {off : Nat}
    (node : Node blocks broken off) (value : Option Nat) :
    state.set (nexPtr (state.heap + off)) (encodeLink value) =
      .ok (state.setNext (some off) value) := by
  have := framed.lt_node node
  rw [nexPtr_at framed.ready.toMapped (by omega) (by omega), set_at (by omega)]
  rfl

theorem set_prev (framed : Framed state blocks top broken) {off : Nat}
    (node : Node blocks broken off) (value : Option Nat) :
    state.set (state.heap + preAt (words state) off) (encodeLink value) =
      .ok (state.setPrev (some off) value) := by
  obtain ⟨block, member, rfl, sound⟩ := node
  have bounds := framed.laid.bounds member
  have place := framed.preAt_eq member sound
  rw [set_at (by omega)]
  rfl

theorem set_head (framed : Framed state blocks top broken) {rank : Nat} (small : rank < 3)
    (value : Option Nat) :
    state.set (buck state rank) (encodeLink value) = .ok (state.setHead rank value) := by
  have limit := maxHeap_eq
  rw [buck_at framed.ready small, set_at (by omega)]
  rfl

/-- The status at a link is `BORDER` exactly at the ends of a list. -/
theorem stat_link (framed : Framed state blocks top broken) {target : Option Nat}
    (node : ∀ off ∈ target, Node blocks broken off) :
    ∃ status, state.stat (state.heap + encodeLink target) = .ok status ∧
      (status = border ↔ target = none) := by
  have range := framed.link_le node
  have read : state.stat (state.heap + encodeLink target) =
      .ok (statAt (words state) (encodeLink target)) :=
    stat_at framed.ready.toMapped (by omega) (by omega) (by omega)
  refine ⟨_, read, ?_⟩
  cases target with
  | none =>
      have prologue : statAt (words state) 24 = border := by
        unfold statAt
        rw [framed.prologue]
        rfl
      exact iff_of_true prologue rfl
  | some off =>
      obtain ⟨block, member, rfl, sound⟩ := node off rfl
      simp only [encodeLink, framed.statAt_eq member sound]
      exact iff_of_false (status_ne_border block) (by simp)

theorem linkNext (framed : Framed state blocks top broken) {target : Option Nat}
    (node : ∀ off ∈ target, Node blocks broken off) (value : Option Nat) :
    Malloc.linkNext state (state.heap + encodeLink target) (encodeLink value) =
      .ok (state.setNext target value) := by
  obtain ⟨status, read, border⟩ := framed.stat_link node
  unfold Malloc.linkNext
  rw [read, ok_bind]
  cases target with
  | none =>
      rw [if_neg (not_not.mpr (border.mpr rfl))]
      rfl
  | some off =>
      rw [if_pos fun same => nomatch border.mp same]
      exact framed.set_next (node off rfl) value

theorem linkPrev (framed : Framed state blocks top broken) {target : Option Nat}
    (node : ∀ off ∈ target, Node blocks broken off) (value : Option Nat) :
    Malloc.linkPrev state (state.heap + encodeLink target) (encodeLink value) =
      .ok (state.setPrev target value) := by
  obtain ⟨status, read, border⟩ := framed.stat_link node
  unfold Malloc.linkPrev
  rw [read, ok_bind]
  cases target with
  | none =>
      rw [if_neg (not_not.mpr (border.mpr rfl))]
      rfl
  | some off =>
      rw [if_pos fun same => nomatch border.mp same]
      simp only [encodeLink]
      rw [framed.prePtr_node (node off rfl), ok_bind]
      exact framed.set_prev (node off rfl) value

theorem list (framed : Framed state blocks top broken) {rank : Nat} (small : rank < 3)
    (node : ∀ off ∈ (links (words state) rank).head, Node blocks broken off) :
    Malloc.list state rank =
      .ok (state.heap + encodeLink (links (words state) rank).head) := by
  have range := framed.link_le node
  have word : encodeLink (links (words state) rank).head = words state (4 * rank) :=
    encodeLink_decodeLink _
  rw [list_at framed.ready small (by omega), word]

theorem listNext (framed : Framed state blocks top broken) (rank : Nat) {off : Nat}
    (node : Node blocks broken off)
    (target : ∀ next ∈ (links (words state) rank).next off, Node blocks broken next) :
    state.listNext (state.heap + off) =
      .ok (state.heap + encodeLink ((links (words state) rank).next off)) := by
  have place := framed.lt_node node
  have range := framed.link_le target
  have word : encodeLink ((links (words state) rank).next off) = words state (off - 4) :=
    encodeLink_decodeLink _
  rw [listNext_at framed.ready (by omega) (by omega) (by omega) (by omega), word]

theorem listPrev (framed : Framed state blocks top broken) (rank : Nat) {off : Nat}
    (node : Node blocks broken off)
    (target : ∀ prev ∈ (links (words state) rank).prev off, Node blocks broken prev) :
    state.listPrev (state.heap + off) =
      .ok (state.heap + encodeLink ((links (words state) rank).prev off)) := by
  have range := framed.link_le target
  have word : encodeLink ((links (words state) rank).prev off) =
      words state (preAt (words state) off) := encodeLink_decodeLink _
  obtain ⟨block, member, rfl, sound⟩ := node
  have bounds := framed.laid.bounds member
  have size := framed.sizeAt_eq member sound
  rw [listPrev_at framed.ready (by omega) (by omega) (by omega) (by omega) (by omega), word]

/-- The last store of `list_remove`: a head that is the entry moves on. -/
theorem moveHead (framed : Framed state blocks top broken) {rank off : Nat} (small : rank < 3)
    (node : Node blocks broken off) {next : Option Nat}
    (target : ∀ off ∈ next, Node blocks broken off) :
    Returns
      (if state.heap + off = state.heap + encodeLink (links (words state) rank).head then
        state.set (buck state rank) (ptrDiff (state.heap + encodeLink next) state.heapBase)
      else pure state)
      fun state' => Relinked blocks top broken state state' ∧
        ∀ other < 3, Links.AgreesOn (Node blocks broken)
          { links (words state) other with
            head := if other = rank ∧ (links (words state) rank).head = some off then next
              else (links (words state) other).head }
          (links (words state') other) := by
  have place := framed.lt_node node
  cases decEq (links (words state) rank).head (some off) with
  | isTrue first =>
      obtain ⟨step, agrees⟩ := framed.setHead small target
      have run := framed.set_head small next
      refine ⟨_, ?_, step, ?_⟩
      · rw [if_pos (by rw [first, encodeLink_some]), framed.ptrDiff_link target, run]
      · simpa only [first, and_true] using agrees
  | isFalse other =>
      have apart : state.heap + off ≠ state.heap + encodeLink (links (words state) rank).head := by
        intro same
        cases head : (links (words state) rank).head with
        | none =>
            rw [head, encodeLink_none, bdrOff_eq] at same
            omega
        | some first =>
            rw [head, encodeLink_some] at same
            exact other (head.trans (congrArg some (Nat.add_left_cancel same).symm))
      refine ⟨state, if_neg apart, .refl framed, fun rank _ => ?_⟩
      simp only [other, and_false, if_false]
      exact Links.AgreesOn.refl _ _

end Framed

namespace Represents

theorem head_node (represents : Represents state layout broken) {rank : Nat} (small : rank < 3) :
    ∀ off ∈ (links (words state) rank).head, Node layout.blocks broken off :=
  fun off first => represents.node rank small off ((represents.listed rank small).head_mem first)

theorem next_node (represents : Represents state layout broken) {rank off : Nat}
    (small : rank < 3) (member : off ∈ layout.bins rank) :
    ∀ next ∈ (links (words state) rank).next off, Node layout.blocks broken next :=
  fun next points => represents.node rank small next
    ((represents.listed rank small).next_mem member points)

theorem prev_node (represents : Represents state layout broken) {rank off : Nat}
    (small : rank < 3) (member : off ∈ layout.bins rank) :
    ∀ prev ∈ (links (words state) rank).prev off, Node layout.blocks broken prev :=
  fun prev points => represents.node rank small prev
    ((represents.listed rank small).prev_mem member points)

theorem list (represents : Represents state layout broken) {rank : Nat} (small : rank < 3) :
    Malloc.list state rank =
      .ok (state.heap + encodeLink (links (words state) rank).head) :=
  represents.framed.list small (represents.head_node small)

/-- `list_push` of a block that is in no list. -/
theorem listPush (represents : Represents state layout broken) {block : Block}
    (member : block ∈ layout.blocks) (sound : broken ≠ some block.off)
    (fresh : ∀ rank < 3, block.off ∉ layout.bins rank) :
    Returns (Malloc.listPush state (state.heap + block.off) (getRank block.size))
      (Yields layout.blocks state { layout with bins := layout.bins.push block } broken) := by
  have small := getRank_lt block.size
  have node : Node layout.blocks broken block.off := ⟨block, member, rfl, sound⟩
  have headNode := represents.head_node small
  have self : ∀ off ∈ some block.off, Node layout.blocks broken off := by
    intro off same
    cases same
    exact node
  have none : ∀ off ∈ (none : Option Nat), Node layout.blocks broken off := by simp
  have readHead := represents.list small
  have diffSelf := represents.framed.ptrDiff_link self
  -- One turn for each store: what it does to the memory, and to the links.
  have run₁ := represents.framed.linkPrev headNode (some block.off)
  obtain ⟨step₁, agrees₁⟩ := represents.framed.setPrev headNode self
  generalize state.setPrev (links (words state) (getRank block.size)).head (some block.off) =
    state₁ at run₁ step₁ agrees₁
  have diffHead := step₁.framed.ptrDiff_link headNode
  have run₂ := step₁.framed.set_next node (links (words state) (getRank block.size)).head
  obtain ⟨step₂, agrees₂⟩ := step₁.framed.setNext self headNode
  generalize state₁.setNext (some block.off) (links (words state) (getRank block.size)).head =
    state₂ at run₂ step₂ agrees₂
  have pre₃ := step₂.framed.prePtr_node node
  have run₃ := step₂.framed.set_prev node .none
  obtain ⟨step₃, agrees₃⟩ := step₂.framed.setPrev self none
  generalize state₂.setPrev (some block.off) .none = state₃ at run₃ step₃ agrees₃
  have diffSelf₃ := step₃.framed.ptrDiff_link self
  have run₄ := step₃.framed.set_head small (some block.off)
  obtain ⟨step₄, agrees₄⟩ := step₃.framed.setHead small self
  generalize state₃.setHead (getRank block.size) (some block.off) = state₄
    at run₄ step₄ agrees₄
  have all := ((step₁.trans step₂).trans step₃).trans step₄
  rw [step₃.heap, step₂.heap, step₁.heap] at diffSelf₃
  rw [step₂.heap, step₁.heap] at pre₃ run₃
  rw [step₁.heap] at diffHead run₂
  refine ⟨state₄, ?_, ⟨⟨all.framed, ?_, ?_, ?_⟩, all.heap, all.keeps⟩⟩
  · simp only [encodeLink_some, encodeLink_none] at diffSelf diffSelf₃ run₁ run₃ run₄
    unfold Malloc.listPush
    rw [readHead, ok_bind, diffSelf, run₁, ok_bind, diffHead, run₂, ok_bind, pre₃, ok_bind, run₃,
      ok_bind, diffSelf₃, run₄]
  · intro rank below
    have agrees := ((((agrees₁ rank below).setNext _ _).trans (agrees₂ rank below)).setPrev _ _).trans
      (agrees₃ rank below)
    have last := agrees₄ rank below
    have old := represents.listed rank below
    simp only [Bins.push, Function.update_apply]
    cases decEq rank (getRank block.size) with
    | isTrue same =>
        subst same
        rw [if_pos rfl] at last ⊢
        refine ((agrees.withHead (some block.off)).trans last).holds (old.push (fresh _ small)) ?_
        intro off inList
        cases inList with
        | head => exact node
        | tail _ inOld => exact represents.node _ small off inOld
    | isFalse different =>
        rw [if_neg different] at last ⊢
        have headOut : ∀ off ∈ (links (words state) (getRank block.size)).head,
            off ∉ layout.bins rank := fun off first inRank =>
          represents.apart _ below _ small different off inRank
            ((represents.listed _ small).head_mem first)
        have selfOut : ∀ off ∈ some block.off, off ∉ layout.bins rank := by
          intro off same
          cases same
          exact fresh rank below
        exact (agrees.trans last).holds
          (((old.setPrev headOut _).setNext selfOut _).setPrev selfOut _) (represents.node rank below)
  · intro rank below off inList
    simp only [Bins.push, Function.update_apply] at inList
    split at inList
    · cases inList with
      | head => exact node
      | tail _ inOld => exact represents.node _ small off inOld
    · exact represents.node rank below off inList
  · intro left leftSmall right rightSmall different off inLeft inRight
    simp only [Bins.push, Function.update_apply] at inLeft inRight
    split at inLeft
    case isTrue leftSame =>
      rw [if_neg (leftSame ▸ different.symm)] at inRight
      cases inLeft with
      | head => exact fresh right rightSmall inRight
      | tail _ inOld =>
          exact represents.apart _ small right rightSmall (leftSame ▸ different) off inOld inRight
    case isFalse leftOther =>
      split at inRight
      case isTrue rightSame =>
        cases inRight with
        | head => exact fresh left leftSmall inLeft
        | tail _ inOld =>
            exact represents.apart left leftSmall _ small (rightSame ▸ different) off inLeft inOld
      case isFalse rightOther =>
        exact represents.apart left leftSmall right rightSmall different off inLeft inRight

/-- `list_remove` of a block from the list of its rank. -/
theorem listRemove (represents : Represents state layout broken) {block : Block}
    (inList : block.off ∈ layout.bins (getRank block.size)) :
    Returns (Malloc.listRemove state (state.heap + block.off) (getRank block.size))
      (Yields layout.blocks state { layout with bins := layout.bins.remove block } broken) := by
  have small := getRank_lt block.size
  have node := represents.node _ small block.off inList
  have listed := represents.listed _ small
  have headNode := represents.head_node small
  have nextNode := represents.next_node small inList
  have prevNode := represents.prev_node small inList
  have readPrev := represents.framed.listPrev _ node prevNode
  have readNext := represents.framed.listNext _ node nextNode
  have unlinked := listed.unlink inList
  have prevIn : ∀ off ∈ (links (words state) (getRank block.size)).prev block.off,
      off ∈ layout.bins (getRank block.size) := fun off points => listed.prev_mem inList points
  have nextIn : ∀ off ∈ (links (words state) (getRank block.size)).next block.off,
      off ∈ layout.bins (getRank block.size) := fun off points => listed.next_mem inList points
  simp only [Links.unlink] at unlinked
  generalize (links (words state) (getRank block.size)).next block.off = next
    at readNext nextNode nextIn unlinked
  generalize (links (words state) (getRank block.size)).prev block.off = prev
    at readPrev prevNode prevIn unlinked
  -- One turn for each store: what it does to the memory, and to the links.
  have diffNext := represents.framed.ptrDiff_link nextNode
  have run₁ := represents.framed.linkNext prevNode next
  obtain ⟨step₁, agrees₁⟩ := represents.framed.setNext prevNode nextNode
  generalize state.setNext prev next = state₁ at run₁ step₁ agrees₁
  have diffPrev := step₁.framed.ptrDiff_link prevNode
  have run₂ := step₁.framed.linkPrev nextNode prev
  obtain ⟨step₂, agrees₂⟩ := step₁.framed.setPrev nextNode prevNode
  generalize state₁.setPrev next prev = state₂ at run₂ step₂ agrees₂
  have agrees : ∀ rank < 3, Links.AgreesOn (Node layout.blocks broken)
      (((links (words state) rank).setNext prev next).setPrev next prev)
      (links (words state₂) rank) := fun rank below =>
    ((agrees₁ rank below).setPrev _ _).trans (agrees₂ rank below)
  have sameHead := (agrees _ small).head
  have run₃ := step₂.framed.list small (sameHead ▸ headNode)
  obtain ⟨state₃, run₄, step₃, agrees₃⟩ := step₂.framed.moveHead small node nextNode
  have all := (step₁.trans step₂).trans step₃
  rw [step₂.heap, step₁.heap] at run₃ run₄
  rw [step₁.heap] at diffPrev run₂
  refine ⟨state₃, ?_, ⟨⟨all.framed, ?_, ?_, ?_⟩, all.heap, all.keeps⟩⟩
  · unfold Malloc.listRemove
    rw [readPrev, ok_bind, readNext, ok_bind, diffNext, run₁, ok_bind, diffPrev, run₂, ok_bind,
      run₃, ok_bind]
    exact run₄
  · intro rank below
    have last := agrees₃ rank below
    simp only [Bins.remove, Function.update_apply]
    cases decEq rank (getRank block.size) with
    | isTrue same =>
        subst same
        rw [if_pos rfl]
        simp only [true_and, sameHead] at last
        refine (((agrees _ small).withHead _).trans last).holds unlinked fun off inRest => ?_
        exact represents.node _ small off (List.mem_of_mem_erase inRest)
    | isFalse different =>
        rw [if_neg different]
        simp only [different, false_and, if_false] at last
        have old := represents.listed rank below
        have out : ∀ off ∈ layout.bins (getRank block.size), off ∉ layout.bins rank :=
          fun off inThis inRank => represents.apart _ below _ small different off inRank inThis
        exact ((agrees rank below).trans last).holds
          ((old.setNext (fun off points => out off (prevIn off points)) _).setPrev
            (fun off points => out off (nextIn off points)) _) (represents.node rank below)
  · intro rank below off inList
    exact represents.node rank below off (layout.bins.mem_of_mem_remove inList)
  · intro left leftSmall right rightSmall different off inLeft inRight
    exact represents.apart left leftSmall right rightSmall different off
      (layout.bins.mem_of_mem_remove inLeft) (layout.bins.mem_of_mem_remove inRight)

end Represents

end OsPractices.Malloc
