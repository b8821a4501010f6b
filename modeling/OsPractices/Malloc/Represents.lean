import OsPractices.Library.LinkedList
import OsPractices.Malloc.Operations

/-!
# Memory that represents a layout

The tags and links that `mm-advance.c` keeps in memory for a layout. The words
of a block are its header, its `next` link, the payload, its footer and its
`prev` link; the stores of the package go to words of the first or the second
kind, and this module says once what each kind changes.
-/

set_option autoImplicit false

namespace OsPractices.Malloc

open Library

/-- A list link is the offset of a block, or the prologue's at both ends. -/
def decodeLink (word : Nat) : Option Nat := if word = bdrOff then none else some word

def encodeLink : Option Nat → Nat
  | none => bdrOff
  | some off => off

@[simp] theorem encodeLink_none : encodeLink none = bdrOff := rfl

@[simp] theorem encodeLink_some (off : Nat) : encodeLink (some off) = off := rfl

theorem encodeLink_decodeLink (word : Nat) : encodeLink (decodeLink word) = word := by
  unfold decodeLink
  split
  · exact Eq.symm ‹_›
  · rfl

/-- The free list of a rank as a head and two link functions. -/
def links (word : Nat → Nat) (rank : Nat) : Links Nat where
  head := decodeLink (word (4 * rank))
  next off := decodeLink (word (off - 4))
  prev off := decodeLink (word (preAt word off))

/-- No byte of a payload differs. -/
def Keeps (blocks : List Block) (state state' : State) : Prop :=
  ∀ block ∈ blocks, ∀ byte, block.Owns byte →
    state'.mem (state.heap + byte) = state.mem (state.heap + byte)

theorem Keeps.trans {blocks : List Block} {state state' state'' : State}
    (first : Keeps blocks state state') (same : state'.heap = state.heap)
    (second : Keeps blocks state' state'') : Keeps blocks state state'' := by
  intro block member byte owns
  have later := second block member byte owns
  rw [same] at later
  exact later.trans (first block member byte owns)

/-- Every payload byte of the second list is one of the first. -/
def Covers (blocks fewer : List Block) : Prop :=
  ∀ block ∈ fewer, ∀ byte, block.Owns byte → ∃ other ∈ blocks, other.Owns byte

theorem Keeps.cover {blocks fewer : List Block} {state state' : State}
    (keeps : Keeps blocks state state') (covers : Covers blocks fewer) :
    Keeps fewer state state' := by
  intro block member byte owns
  obtain ⟨other, inside, owns'⟩ := covers block member byte owns
  exact keeps other inside byte owns'

theorem Covers.of_subset {blocks fewer : List Block} (subset : fewer ⊆ blocks) :
    Covers blocks fewer := fun block member _ owns => ⟨block, subset member, owns⟩

theorem Covers.trans {blocks fewer least : List Block} (first : Covers blocks fewer)
    (second : Covers fewer least) : Covers blocks least := by
  intro block member byte owns
  obtain ⟨other, inside, owns'⟩ := second block member byte owns
  exact first other inside byte owns'

/-- The tags of the blocks, except those of `broken`, and of the two borders. -/
structure Framed (state : State) (blocks : List Block) (top : Nat) (broken : Option Nat) :
    Prop where
  ready : Ready state
  brk : state.memBrk = state.heap + top
  laid : Laid 16 blocks top
  prologue : words state 16 = zip (2 * wordSize) border
  epilogue : words state (top - 8) = zip 0 border
  tags : ∀ block ∈ blocks, broken ≠ some block.off →
    words state (block.off - 8) = block.tag ∧
      words state (block.off + block.size - 16) = block.tag

/-- An offset of a block whose tags are right. -/
def Node (blocks : List Block) (broken : Option Nat) (off : Nat) : Prop :=
  ∃ block ∈ blocks, block.off = off ∧ broken ≠ some off

structure Represents (state : State) (layout : Layout) (broken : Option Nat) : Prop where
  framed : Framed state layout.blocks layout.top broken
  listed : ∀ rank < 3, (links (words state) rank).Holds (layout.bins rank)
  node : ∀ rank < 3, ∀ off ∈ layout.bins rank, Node layout.blocks broken off
  apart : ∀ left < 3, ∀ right < 3, left ≠ right →
    ∀ off ∈ layout.bins left, off ∉ layout.bins right

namespace Framed

variable {state : State} {blocks : List Block} {top : Nat} {broken : Option Nat}

theorem sizeAt_eq (framed : Framed state blocks top broken) {block : Block}
    (member : block ∈ blocks) (sound : broken ≠ some block.off) :
    sizeAt (words state) block.off = block.size := by
  unfold sizeAt
  rw [(framed.tags block member sound).1, tag_size (framed.laid.sizes block member).2]

theorem statAt_eq (framed : Framed state blocks top broken) {block : Block}
    (member : block ∈ blocks) (sound : broken ≠ some block.off) :
    statAt (words state) block.off = block.status := by
  unfold statAt
  rw [(framed.tags block member sound).1, tag_stat]

theorem preAt_eq (framed : Framed state blocks top broken) {block : Block}
    (member : block ∈ blocks) (sound : broken ≠ some block.off) :
    preAt (words state) block.off = block.off + block.size - 12 := by
  unfold preAt
  rw [framed.sizeAt_eq member sound]

theorem lt_node (framed : Framed state blocks top broken) {off : Nat}
    (node : Node blocks broken off) : 32 ≤ off ∧ off + 16 ≤ maxHeap ∧ off % 8 = 0 := by
  obtain ⟨block, member, rfl, _⟩ := node
  have := framed.laid.bounds member
  omega

theorem decode_node (framed : Framed state blocks top broken) {value : Option Nat}
    (node : ∀ off ∈ value, Node blocks broken off) :
    decodeLink (encodeLink value % 2 ^ 32) = value := by
  have limit := maxHeap_eq
  cases value with
  | none => rfl
  | some off =>
      have := framed.lt_node (node off rfl)
      have small : encodeLink (some off) % 2 ^ 32 = off := Nat.mod_eq_of_lt (by
        simp only [encodeLink]
        omega)
      rw [small]
      unfold decodeLink
      rw [if_neg (by rw [bdrOff_eq]; omega)]

end Framed

/-! ## Stores to links -/

/-- The words of the three lists: the buckets, and two words of each block. -/
def LinkSite (blocks : List Block) (offset : Nat) : Prop :=
  (offset < 12 ∧ offset % 4 = 0) ∨
    ∃ block ∈ blocks, offset = block.off - 4 ∨ offset = block.off + block.size - 12

theorem Laid.before_or_behind {least top : Nat} {blocks : List Block}
    (laid : Laid least blocks top) {left right : Block} (leftMember : left ∈ blocks)
    (rightMember : right ∈ blocks) :
    left = right ∨ left.off + left.size ≤ right.off ∨ right.off + right.size ≤ left.off := by
  cases decEq left right with
  | isTrue same => exact .inl same
  | isFalse different => exact .inr (laid.tiled.apart leftMember rightMember different)

/-- A link word is no tag and no byte of a payload. -/
theorem LinkSite.outside {top offset : Nat} {blocks : List Block} (laid : Laid 16 blocks top)
    (site : LinkSite blocks offset) :
    (offset % 4 = 0 ∧ offset + 4 ≤ maxHeap ∧ offset ≠ 16 ∧ offset ≠ top - 8) ∧
      ∀ block ∈ blocks, offset ≠ block.off - 8 ∧ offset ≠ block.off + block.size - 16 ∧
        (offset + 4 ≤ block.off ∨ block.off + block.size ≤ offset + 16) := by
  have limit := maxHeap_eq
  have start := laid.tiled.start_le_stop
  cases site with
  | inl bucket =>
      refine ⟨by omega, fun block member => ?_⟩
      have := laid.bounds member
      omega
  | inr link =>
      obtain ⟨owner, ownerMember, place⟩ := link
      have ownerBounds := laid.bounds ownerMember
      refine ⟨by omega, fun block member => ?_⟩
      have bounds := laid.bounds member
      rcases laid.before_or_behind ownerMember member with same | before | behind
      · subst same
        omega
      · omega
      · omega

namespace Framed

variable {state : State} {blocks : List Block} {top : Nat} {broken : Option Nat}

theorem put_link (framed : Framed state blocks top broken) {offset : Nat}
    (site : LinkSite blocks offset) (value : Nat) :
    Framed (state.put offset value) blocks top broken ∧
      Keeps blocks state (state.put offset value) := by
  obtain ⟨⟨aligned, _, notPrologue, notEpilogue⟩, notBlock⟩ := site.outside framed.laid
  have same : ∀ other, offset ≠ other → words (state.put offset value) other =
      words state other := fun other different => by
    rw [words_put aligned, Function.update_of_ne different.symm]
  constructor
  · refine ⟨framed.ready.put value, framed.brk, framed.laid, (same _ notPrologue).trans framed.prologue,
      (same _ notEpilogue).trans framed.epilogue, fun block member sound => ?_⟩
    obtain ⟨notHeader, notFooter, _⟩ := notBlock block member
    rw [same _ notHeader, same _ notFooter]
    exact framed.tags block member sound
  · intro block member byte owns
    obtain ⟨_, _, payload⟩ := notBlock block member
    obtain ⟨low, high⟩ := owns
    exact put_mem_of_outside (by omega)

end Framed

/-- `SET(NEX_PTR(..))`, `SET(PRE_PTR(..))` and `SET(BUCK(..))` with a link. The
code skips the first two at the prologue, which stands for null. -/
def State.setNext (state : State) (target value : Option Nat) : State :=
  match target with
  | none => state
  | some off => state.put (off - 4) (encodeLink value)

def State.setPrev (state : State) (target value : Option Nat) : State :=
  match target with
  | none => state
  | some off => state.put (preAt (words state) off) (encodeLink value)

def State.setHead (state : State) (rank : Nat) (value : Option Nat) : State :=
  state.put (4 * rank) (encodeLink value)

/-- `state'` differs from `state` by stores to links. -/
structure Relinked (blocks : List Block) (top : Nat) (broken : Option Nat)
    (state state' : State) : Prop where
  framed : Framed state' blocks top broken
  heap : state'.heap = state.heap
  keeps : Keeps blocks state state'

namespace Relinked

variable {state state' state'' : State} {blocks : List Block} {top : Nat} {broken : Option Nat}

theorem refl (framed : Framed state blocks top broken) :
    Relinked blocks top broken state state :=
  ⟨framed, rfl, fun _ _ _ _ => rfl⟩

theorem trans (first : Relinked blocks top broken state state')
    (second : Relinked blocks top broken state' state'') :
    Relinked blocks top broken state state'' :=
  ⟨second.framed, second.heap.trans first.heap, first.keeps.trans first.heap second.keeps⟩

theorem put (framed : Framed state blocks top broken) {offset : Nat}
    (site : LinkSite blocks offset) (value : Nat) :
    Relinked blocks top broken state (state.put offset value) :=
  ⟨(framed.put_link site value).1, rfl, (framed.put_link site value).2⟩

end Relinked

namespace Framed

variable {state : State} {blocks : List Block} {top : Nat} {broken : Option Nat}

theorem setNext (framed : Framed state blocks top broken) {target value : Option Nat}
    (targetNode : ∀ off ∈ target, Node blocks broken off)
    (valueNode : ∀ off ∈ value, Node blocks broken off) :
    Relinked blocks top broken state (state.setNext target value) ∧
      ∀ rank < 3, Links.AgreesOn (Node blocks broken)
        ((links (words state) rank).setNext target value)
        (links (words (state.setNext target value)) rank) := by
  cases target with
  | none => exact ⟨.refl framed, fun rank _ => Links.AgreesOn.refl _ _⟩
  | some off =>
      obtain ⟨owner, ownerMember, rfl, ownerSound⟩ := targetNode off rfl
      have ownerBounds := framed.laid.bounds ownerMember
      have relinked := Relinked.put framed (.inr ⟨owner, ownerMember, .inl rfl⟩) (encodeLink value)
      refine ⟨relinked, fun rank small => ?_⟩
      have stored : words (state.setNext (some owner.off) value) = Function.update (words state)
          (owner.off - 4) (encodeLink value % 2 ^ 32) := words_put (by omega) _
      refine ⟨?_, ?_, ?_⟩
      · simp only [links, Links.setNext, stored]
        rw [Function.update_of_ne (by omega)]
      · rintro _ ⟨block, member, rfl, _⟩
        have bounds := framed.laid.bounds member
        simp only [links, Links.setNext, stored, Links.setAt_some, Function.update_apply]
        cases decEq block.off owner.off with
        | isTrue same => rw [if_pos (by omega), if_pos same, framed.decode_node valueNode]
        | isFalse different => rw [if_neg (by omega), if_neg different]
      · rintro _ ⟨block, member, rfl, sound⟩
        have bounds := framed.laid.bounds member
        have before := framed.preAt_eq member sound
        have after := relinked.framed.preAt_eq member sound
        simp only [links, Links.setNext]
        rw [before]
        simp only [State.setNext]
        rw [after, words_put (by omega), Function.update_of_ne]
        rcases framed.laid.before_or_behind ownerMember member with same | before | behind
        · subst same
          omega
        · omega
        · omega

theorem setPrev (framed : Framed state blocks top broken) {target value : Option Nat}
    (targetNode : ∀ off ∈ target, Node blocks broken off)
    (valueNode : ∀ off ∈ value, Node blocks broken off) :
    Relinked blocks top broken state (state.setPrev target value) ∧
      ∀ rank < 3, Links.AgreesOn (Node blocks broken)
        ((links (words state) rank).setPrev target value)
        (links (words (state.setPrev target value)) rank) := by
  cases target with
  | none => exact ⟨.refl framed, fun rank _ => Links.AgreesOn.refl _ _⟩
  | some off =>
      obtain ⟨owner, ownerMember, rfl, ownerSound⟩ := targetNode off rfl
      have ownerBounds := framed.laid.bounds ownerMember
      have place := framed.preAt_eq ownerMember ownerSound
      have moved : state.setPrev (some owner.off) value =
          state.put (owner.off + owner.size - 12) (encodeLink value) := by
        simp only [State.setPrev, place]
      have relinked := Relinked.put framed (.inr ⟨owner, ownerMember, .inr rfl⟩) (encodeLink value)
      rw [← moved] at relinked
      refine ⟨relinked, fun rank small => ?_⟩
      have stored : words (state.setPrev (some owner.off) value) = Function.update (words state)
          (owner.off + owner.size - 12) (encodeLink value % 2 ^ 32) := by
        rw [moved]
        exact words_put (by omega) _
      refine ⟨?_, ?_, ?_⟩
      · simp only [links, Links.setPrev, stored]
        rw [Function.update_of_ne (by omega)]
      · rintro _ ⟨block, member, rfl, _⟩
        have bounds := framed.laid.bounds member
        simp only [links, Links.setPrev, stored]
        rw [Function.update_of_ne]
        rcases framed.laid.before_or_behind ownerMember member with same | before | behind
        · subst same
          omega
        · omega
        · omega
      · rintro _ ⟨block, member, rfl, sound⟩
        have bounds := framed.laid.bounds member
        have before := framed.preAt_eq member sound
        have after := relinked.framed.preAt_eq member sound
        simp only [links, Links.setPrev, Links.setAt_some, Function.update_apply]
        rw [before, after, stored, Function.update_apply]
        rcases framed.laid.before_or_behind ownerMember member with same | before | behind
        · subst same
          rw [if_pos rfl, if_pos rfl, framed.decode_node valueNode]
        · rw [if_neg (by omega), if_neg (by omega)]
        · rw [if_neg (by omega), if_neg (by omega)]

theorem setHead (framed : Framed state blocks top broken) {rank : Nat} (small : rank < 3)
    {value : Option Nat} (valueNode : ∀ off ∈ value, Node blocks broken off) :
    Relinked blocks top broken state (state.setHead rank value) ∧
      ∀ other < 3, Links.AgreesOn (Node blocks broken)
        { links (words state) other with
          head := if other = rank then value else (links (words state) other).head }
        (links (words (state.setHead rank value)) other) := by
  have relinked := Relinked.put framed (.inl ⟨by omega, by omega⟩ : LinkSite blocks (4 * rank))
    (encodeLink value)
  have stored : words (state.setHead rank value) = Function.update (words state) (4 * rank)
      (encodeLink value % 2 ^ 32) := words_put (by omega) _
  refine ⟨relinked, fun other otherSmall => ⟨?_, ?_, ?_⟩⟩
  · simp only [links, stored, Function.update_apply]
    cases decEq other rank with
    | isTrue same => rw [if_pos (by omega), if_pos same, framed.decode_node valueNode]
    | isFalse different => rw [if_neg (by omega), if_neg different]
  · rintro _ ⟨block, member, rfl, _⟩
    have bounds := framed.laid.bounds member
    simp only [links, stored]
    rw [Function.update_of_ne (by omega)]
  · rintro _ ⟨block, member, rfl, sound⟩
    have bounds := framed.laid.bounds member
    have before := framed.preAt_eq member sound
    have after := relinked.framed.preAt_eq member sound
    simp only [links]
    rw [before]
    change decodeLink (words _ (preAt (words (state.put (4 * rank) (encodeLink value))) _)) = _
    rw [after, stored, Function.update_of_ne (by omega)]

end Framed

end OsPractices.Malloc
