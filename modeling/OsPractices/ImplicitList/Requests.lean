import OsPractices.ImplicitList.Calls

/-!
# Requests that keep the chain

`malloc` and `realloc` on a chain of blocks. `malloc` marks a block that it
splits as free and plants the `BORDER` one word behind its place; `realloc`
does either to a block that is large enough already. The requests that are
spared these branches leave a chain.
-/

set_option autoImplicit false

namespace OsPractices.ImplicitList

open Library
open Library.Memory (CopyDirection)
open Malloc (State Fault maxHeap maxHeap_eq null u64 u64_of_lt offsetT memSbrk memSbrk_granted
  sbrkFailed memcpy unzipStat used unused border Block Mapped liveOf liveOf_split Gains
  status_eq_unused)

variable {state later : State} {blocks front back : List Block} {block : Block}
  {top size bytes : Nat}

/-! ## The branches that keep the chain -/

/-- `mem_sbrk` has the memory, and the word in front of the new end, which
`malloc` does not write, says `BORDER` already. -/
def GrowsToBorder (state : State) (size : Nat) : Prop :=
  (memSbrk state (offsetT size)).1 ≠ sbrkFailed ∧
    ∃ tag ∈ (get state (state.memBrk + size - 16)).toOption, unzipStat tag = border

/-- The block is not so large that it would be split. -/
def ReusesWhole (state : State) (ptr size : Nat) : Prop :=
  ∀ found ∈ (ImplicitList.size state ptr).toOption, found ≤ size + minBlkSize

/-- `malloc` of so many bytes takes no branch that breaks the chain, and the
size of its block does not wrap around. -/
def Regular (state : State) (bytes : Nat) : Prop :=
  bytes = 0 ∨ bytes + 2 * sizeTSize ≤ blockSize bytes ∧
    ∀ stop ∈ (scan state (blockSize bytes) maxHeap (blockList state)).toOption,
      if stop.2 then ReusesWhole state stop.1 (blockSize bytes)
      else GrowsToBorder state (blockSize bytes)

/-- The size of a block together with a free one behind it. -/
def mergedSize (state : State) (ptr : Nat) : Except Fault Nat := do
  let size ← ImplicitList.size state ptr
  let next ← nextPtr state ptr
  if (← stat state next) = unused then
    let nextSize ← ImplicitList.size state next
    pure (size + nextSize)
  else pure size

/-- `realloc` moves the block, and an `int` holds the request. -/
def RegularRealloc (state : State) (oldptr bytes : Nat) : Prop :=
  bytes = 0 ∨ offsetT bytes = bytes ∧
    (∀ merged ∈ (mergedSize state oldptr).toOption, merged < blockSize bytes) ∧ Regular state bytes

instance (state : State) (size : Nat) : Decidable (GrowsToBorder state size) :=
  inferInstanceAs (Decidable (_ ∧ ∃ tag ∈ (get state _).toOption, _))

instance (state : State) (ptr size : Nat) : Decidable (ReusesWhole state ptr size) :=
  inferInstanceAs (Decidable (∀ found ∈ (ImplicitList.size state ptr).toOption, _))

instance (state : State) (bytes : Nat) : Decidable (Regular state bytes) :=
  inferInstanceAs (Decidable (_ ∨ _ ∧ ∀ stop ∈ (scan state _ _ _).toOption, _))

instance (state : State) (oldptr bytes : Nat) : Decidable (RegularRealloc state oldptr bytes) :=
  inferInstanceAs
    (Decidable (_ ∨ _ ∧ (∀ merged ∈ (mergedSize state oldptr).toOption, _) ∧ Regular _ _))

/-! ## malloc -/

theorem blockSize_multiple (bytes : Nat) : blockSize bytes % 8 = 0 := by
  unfold blockSize Malloc.align
  omega

/-- What `mem_sbrk` answers makes no difference. -/
theorem mallocExtend_of_sbrk {grown : State} {ptr granted : Nat}
    (sbrk : memSbrk state (offsetT size) = (granted, grown)) :
    mallocExtend state ptr size =
      setTags grown ptr size used >>= fun tagged => nextPtr tagged ptr >>= fun behind =>
        set tagged behind (zip 0 border) >>= fun last => pure (ptr, last) := by
  -- the answer is a variable before its pattern is matched, so that it is not evaluated
  have whole : mallocExtend = fun (state : State) (ptr size : Nat) =>
      (fun answer : Nat × State =>
        if answer.1 < 0 then pure (null, answer.2)
        else setTags answer.2 ptr size used >>= fun tagged => nextPtr tagged ptr >>= fun behind =>
          set tagged behind (zip 0 border) >>= fun last => pure (ptr, last))
        (memSbrk state (offsetT size)) := by
    delta mallocExtend
    funext state ptr size
    generalize memSbrk state (offsetT size) = answer
    obtain ⟨granted, grown⟩ := answer
    rfl
  have here := congrFun (congrFun (congrFun whole state) ptr) size
  rw [sbrk] at here
  exact here.trans (if_neg (Nat.not_lt_zero granted))

/-- The condition on a chain of blocks. -/
def Spared (state : State) (blocks : List Block) (top size : Nat) : Prop :=
  match blocks.find? (larger size) with
  | some block => block.size ≤ size + 16
  | none => top + 8 + size ≤ maxHeap ∧ unzipStat (tagAt state (top + size - 8)) = border

/-- A new block in the chain, which is none of the blocks in use. -/
structure Allocates (blocks : List Block) (bytes : Nat) (block : Block) (blocks' : List Block) :
    Prop where
  gains : Gains blocks blocks' block
  room : blockSize bytes ≤ block.size
  kept : ∀ other ∈ blocks, other ∈ blocks' ∨ blockSize bytes < other.size

namespace Chained

theorem mallocReuse (chained : Chained state (front ++ block :: back) top)
    (fits : size < block.size) (whole : block.size ≤ size + 16) :
    Returns (ImplicitList.mallocReuse state (state.heap + block.off) size) fun (ptr, later) =>
      ptr = state.heap + block.off ∧ later.heap = state.heap ∧
        Chained later (front ++ ⟨block.off, block.size, true⟩ :: back) top := by
  have limit := maxHeap_eq
  have member : block ∈ front ++ block :: back := by simp
  have bounds := chained.filled.bounds member
  have bound := chained.filled.bounded
  have least : u64 (size + minBlkSize : Nat) = size + 16 := u64_of_lt (by
    unfold minBlkSize sizeTSize
    omega)
  obtain ⟨marked, run, chained', heap⟩ := chained.mark true
  refine ⟨(state.heap + block.off, marked), ?_, rfl, heap, chained'⟩
  unfold ImplicitList.mallocReuse
  rw [chained.size member, ok_bind]
  change (if u64 (size + minBlkSize : Nat) < block.size then _ else _) = _
  rw [least, if_neg (Nat.not_lt.mpr whole)]
  change setTags state (state.heap + block.off) block.size used = _ at run
  rw [run]
  rfl

/-- The heap has room for the block, and a `BORDER` lies where the next header
will be. -/
theorem room_of_grows (chained : Chained state blocks top) (multiple : size % 8 = 0)
    (grows : GrowsToBorder state size) :
    top + 8 + size ≤ maxHeap ∧ unzipStat (tagAt state (top + size - 8)) = border := by
  have topBounds := chained.filled.top_bounds
  obtain ⟨answered, tag, read, isBorder⟩ := grows
  have place : state.memBrk + size - 16 = state.heap + (top + size - 8) := by
    rw [chained.brk]
    omega
  have within : state.Contains (state.heap + (top + size - 8)) sizeTSize := by
    rw [place] at read
    unfold get at read
    split at read
    case isTrue inside => exact inside
    case isFalse => cases read
  have inside : top + size ≤ maxHeap := by
    unfold Malloc.State.Contains sizeTSize at within
    omega
  rw [place, get_at (by omega) (by omega)] at read
  obtain rfl : tagAt state (top + size - 8) = tag := by simpa [Except.toOption] using read
  refine ⟨?_, isBorder⟩
  unfold memSbrk at answered
  split at answered
  case isTrue => exact absurd rfl answered
  case isFalse granted =>
    rw [offsetT_size (by omega), chained.mapped.maxAddr, chained.brk] at granted
    omega

/-- A new last block. The word behind it, which the code takes for the place of
the `BORDER`, is not read before it has been written again. -/
theorem grow (chained : Chained state blocks top) (nonzero : size ≠ 0) (multiple : size % 8 = 0)
    (room : top + 8 + size ≤ maxHeap) (value : Nat) :
    let later := put (putTags { state with memBrk := state.heap + (top + 8 + size) }
      ⟨top, size, true⟩) (top + size) value
    Linked later (blocks ++ [⟨top, size, true⟩]) (top + size) ∧
      tagAt later (top + size - 8) = tagAt state (top + size - 8) := by
  have mapped := chained.mapped
  have topBounds := chained.filled.top_bounds
  have filled := chained.filled.grow (by omega : 8 ≤ size) multiple (by omega)
  have member : (⟨top, size, true⟩ : Block) ∈ blocks ++ [⟨top, size, true⟩] := by simp
  have same : tagAt { state with memBrk := state.heap + (top + 8 + size) } = tagAt state := rfl
  have stored := @tagAt_putTags { state with memBrk := state.heap + (top + 8 + size) } _ _ _ filled
    member
  rw [same] at stored
  dsimp only
  refine ⟨⟨mapped.of_same rfl rfl, chained.base, ?_, filled,
    fun other inside => ?_⟩, ?_⟩
  · exact congrArg (state.heap + ·) (Nat.add_right_comm top 8 size)
  · have bounds := filled.bounds inside
    rw [tagAt_put (by omega), Function.update_of_ne (by omega), Function.update_of_ne (by omega)]
    cases List.mem_append.mp inside with
    | inl old =>
        have within := chained.filled.bounds old
        rw [stored]
        dsimp only
        rw [Function.update_of_ne (by omega), Function.update_of_ne (by omega),
          Function.update_of_ne (by omega), Function.update_of_ne (by omega)]
        exact chained.tags other old
    | inr new =>
        obtain rfl := List.mem_singleton.mp new
        exact tags_putTags filled member
  · rw [tagAt_put (by omega), Function.update_of_ne (by omega), stored]
    dsimp only
    rw [Function.update_of_ne (by omega), Function.update_of_ne (by omega)]

theorem mallocExtend (chained : Chained state blocks top) (nonzero : size ≠ 0)
    (multiple : size % 8 = 0) (room : top + 8 + size ≤ maxHeap) :
    Returns (ImplicitList.mallocExtend state (state.heap + top) size) fun (ptr, later) =>
      ptr = state.heap + top ∧ later.heap = state.heap ∧
        Linked later (blocks ++ [⟨top, size, true⟩]) (top + size) ∧
          tagAt later (top + size - 8) = tagAt state (top + size - 8) := by
  have mapped := chained.mapped
  have topBounds := chained.filled.top_bounds
  have granted := memSbrk_granted mapped chained.brk room
  rw [← @offsetT_size size (by omega)] at granted
  have filled := chained.filled.grow (by omega : 8 ≤ size) multiple (by omega)
  have member : (⟨top, size, true⟩ : Block) ∈ blocks ++ [⟨top, size, true⟩] := by simp
  have grown := chained.grow nonzero multiple room (zip 0 border)
  dsimp only at grown
  generalize isMiddle : ({ state with memBrk := state.heap + (top + 8 + size) } : State) = middle
    at granted grown
  have heap : middle.heap = state.heap := by rw [← isMiddle]
  have mapped' : Mapped middle := by
    rw [← isMiddle]
    exact mapped.of_same rfl rfl
  have tagged := setTags_eq mapped' filled member
  have written : Mapped (putTags middle ⟨top, size, true⟩) :=
    mapped'.of_same rfl rfl
  have read := size_at written topBounds.2 topBounds.1 (by omega)
  rw [(tags_putTags filled member).1, Malloc.tag_size multiple] at read
  have next := nextPtr_of_size written read (by dsimp only; omega)
  change ImplicitList.nextPtr _ (middle.heap + top) = .ok (middle.heap + (top + size)) at next
  have planted : set (putTags middle ⟨top, size, true⟩) (middle.heap + (top + size))
      (zip 0 border) = .ok (put (putTags middle ⟨top, size, true⟩) (top + size) (zip 0 border)) :=
    @set_at (putTags middle ⟨top, size, true⟩) _ (by omega) _
  change setTags middle (middle.heap + top) size used = _ at tagged
  rw [heap] at tagged next planted
  refine ⟨(state.heap + top, put (putTags middle ⟨top, size, true⟩) (top + size) (zip 0 border)),
    ?_, rfl, heap, grown⟩
  rw [mallocExtend_of_sbrk granted, tagged, ok_bind, next, ok_bind, planted]
  rfl

theorem spared (chained : Chained state blocks top) (nonzero : bytes ≠ 0)
    (regular : Regular state bytes) :
    bytes + 16 ≤ blockSize bytes ∧ Spared state blocks top (blockSize bytes) := by
  obtain ⟨fits, stops⟩ := regular.resolve_left nonzero
  have scanned := chained.scan (blockSize bytes)
  have stops := stops _ (by rw [scanned]; rfl)
  refine ⟨fits, ?_⟩
  unfold Spared
  cases found : blocks.find? (larger (blockSize bytes)) with
  | none =>
      simp only [found, Option.map_none, Option.getD_none, Bool.false_eq_true, if_false] at stops
      exact chained.room_of_grows (blockSize_multiple bytes) stops
  | some block =>
      simp only [found, Option.map_some, Option.getD_some, if_true] at stops
      have member := List.mem_of_find?_eq_some found
      exact stops block.size (by rw [chained.size member]; rfl)

/-- Where `malloc` goes after its loop. -/
theorem malloc_cases (chained : Chained state blocks top) (nonzero : bytes ≠ 0) :
    ImplicitList.malloc state bytes =
      match blocks.find? (larger (blockSize bytes)) with
      | none => ImplicitList.mallocExtend state (state.heap + top) (blockSize bytes)
      | some block =>
          ImplicitList.mallocReuse state (state.heap + block.off) (blockSize bytes) := by
  unfold ImplicitList.malloc
  rw [if_neg nonzero, chained.scan (blockSize bytes), ok_bind]
  cases blocks.find? (larger (blockSize bytes)) with
  | none =>
      rw [Option.map_none, Option.getD_none]
      dsimp only
      rw [if_neg Bool.false_ne_true]
  | some block =>
      rw [Option.map_some, Option.getD_some]
      dsimp only
      rw [if_pos rfl]

/-- `malloc` of a request that takes no branch that breaks the chain. -/
theorem malloc (chained : Chained state blocks top) (nonzero : bytes ≠ 0)
    (fits : bytes + 16 ≤ blockSize bytes) (spared : Spared state blocks top (blockSize bytes)) :
    Returns (ImplicitList.malloc state bytes) fun (ptr, later) =>
      ∃ (block : Block) (blocks' : List Block) (top' : Nat), ptr = state.heap + block.off ∧
        later.heap = state.heap ∧ Chained later blocks' top' ∧
          Allocates blocks bytes block blocks' := by
  have multiple := blockSize_multiple bytes
  unfold Spared at spared
  rw [chained.malloc_cases nonzero]
  cases found : blocks.find? (larger (blockSize bytes)) with
  | none =>
      simp only [found] at spared
      have extended := chained.mallocExtend (by omega) multiple spared.1
      refine extended.mono fun (ptr, later) ⟨place, heap, grown, same⟩ =>
        ⟨⟨top, blockSize bytes, true⟩, _, _, place, heap, ⟨grown, same ▸ spared.2⟩, ⟨?_, rfl, ?_⟩,
          Nat.le_refl _, ?_⟩
      · rw [liveOf_split, if_pos rfl, List.append_nil]
      · intro other live
        have bounds := chained.filled.bounds live.1
        dsimp only
        omega
      · exact fun other inside => .inl (List.mem_append_left _ inside)
  | some block =>
      simp only [found] at spared
      obtain ⟨free, longer⟩ := larger_iff.mp (List.find?_some found)
      have vacant : block.used = false := status_eq_unused.mp free
      have member := List.mem_of_find?_eq_some found
      have different : ∀ other ∈ blocks, other = block ∨ other.off ≠ block.off := by
        intro other inside
        have bounds := chained.filled.bounds inside
        have blockBounds := chained.filled.bounds member
        exact (chained.filled.before_or_behind inside member).imp_right fun apart => by omega
      obtain ⟨front, back, rfl⟩ := List.append_of_mem member
      refine (chained.mallocReuse longer spared).mono fun (ptr, later) ⟨place, heap, marked⟩ =>
        ⟨⟨block.off, block.size, true⟩, _, _, place, heap, marked, ⟨?_, rfl, ?_⟩, longer.le, ?_⟩
      · rw [liveOf_split, if_pos rfl, liveOf_split, if_neg (by simp [vacant])]
      · intro other live
        refine (different other live.1).resolve_left fun same => ?_
        exact absurd (same ▸ live.2) (by simp [vacant])
      · intro other inside
        cases different other inside with
        | inl same => exact .inr (same ▸ longer)
        | inr apart =>
            left
            simp only [List.mem_append, List.mem_cons] at inside ⊢
            rcases inside with inFront | isBlock | inBack
            · exact .inl inFront
            · exact absurd (congrArg Block.off isBlock) apart
            · exact .inr (.inr inBack)

end Chained

end OsPractices.ImplicitList
