import OsPractices.Malloc.Allocate

/-!
# Writing payloads

The client, `memcpy` and `memset` write bytes of payloads. Memory that
represents a layout still does so afterwards.
-/

set_option autoImplicit false

namespace OsPractices.Malloc

open Library
open Library.Memory (CopyDirection)

variable {state : State} {layout : Layout} {broken : Option Nat} {mem : Memory}

/-- Outside the payloads of some blocks the memory is as it was. -/
def OnlyPayloads (blocks : List Block) (state : State) (mem : Memory) : Prop :=
  ∀ byte, (∀ block ∈ blocks, ¬ block.Owns byte) → mem (state.heap + byte) =
    state.mem (state.heap + byte)

theorem OnlyPayloads.word {blocks : List Block} (only : OnlyPayloads blocks state mem)
    {offset : Nat}
    (outside : ∀ block ∈ blocks, offset + 4 ≤ block.off ∨ block.off + block.size ≤ offset + 16) :
    words { state with mem := mem } offset = words state offset := by
  unfold words
  split
  case isTrue =>
    apply Memory.load32_congr
    intro target above below
    obtain ⟨byte, rfl⟩ : ∃ byte, target = state.heap + byte :=
      ⟨target - state.heap, by dsimp only at above; omega⟩
    apply only
    intro block member owns
    have := outside block member
    obtain ⟨low, high⟩ := owns
    dsimp only at above below
    omega
  case isFalse => rfl

theorem Represents.withMem (represents : Represents state layout broken)
    (only : OnlyPayloads layout.blocks state mem) :
    Represents { state with mem := mem } layout broken := by
  have framed := represents.framed
  have laid := framed.laid
  have start := laid.tiled.start_le_stop
  have bucket : ∀ rank < 3, words { state with mem := mem } (4 * rank) = words state (4 * rank) := by
    intro rank small
    apply only.word
    intro block member
    have := laid.bounds member
    omega
  -- the four words of a block lie outside every payload
  have fields : ∀ owner ∈ layout.blocks,
      words { state with mem := mem } (owner.off - 8) = words state (owner.off - 8) ∧
      words { state with mem := mem } (owner.off - 4) = words state (owner.off - 4) ∧
      words { state with mem := mem } (owner.off + owner.size - 16) =
        words state (owner.off + owner.size - 16) ∧
      words { state with mem := mem } (owner.off + owner.size - 12) =
        words state (owner.off + owner.size - 12) := by
    intro owner inside
    have ownerBounds := laid.bounds inside
    refine ⟨only.word ?_, only.word ?_, only.word ?_, only.word ?_⟩
    all_goals
      intro block member
      have bounds := laid.bounds member
      rcases laid.before_or_behind inside member with same | before | behind
      · subst same
        omega
      · omega
      · omega
  have framed' : Framed { state with mem := mem } layout.blocks layout.top broken := by
    refine ⟨⟨⟨framed.ready.page, framed.ready.positive, framed.ready.below, framed.ready.maxAddr⟩,
      framed.ready.base⟩, framed.brk, laid, (only.word ?_).trans framed.prologue,
      (only.word ?_).trans framed.epilogue, fun block member sound => ?_⟩
    · intro block member
      have := laid.bounds member
      omega
    · intro block member
      have := laid.bounds member
      omega
    · rw [(fields block member).1, (fields block member).2.2.1]
      exact framed.tags block member sound
  refine ⟨framed', fun rank small => (represents.listed rank small).congr ?_ ?_ ?_,
    represents.node, represents.apart⟩
  · simp only [links, bucket rank small]
  · intro off inList
    obtain ⟨block, member, rfl, _⟩ := represents.node rank small off inList
    simp only [links, (fields block member).2.1]
  · intro off inList
    obtain ⟨block, member, rfl, sound⟩ := represents.node rank small off inList
    have before := framed.preAt_eq member sound
    have after := framed'.preAt_eq member sound
    simp only [links, before, after, (fields block member).2.2.2]

end OsPractices.Malloc
