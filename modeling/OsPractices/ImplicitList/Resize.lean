import OsPractices.ImplicitList.Requests

/-!
# realloc on a chain

`realloc` first joins a free block behind with its own, so that the block it is
to move is marked as free while `malloc` looks for another. A request that is
larger than both gets another block, and the joined one is freed.
-/

set_option autoImplicit false

namespace OsPractices.ImplicitList

open Library
open Library.Memory (CopyDirection)
open Malloc (State maxHeap maxHeap_eq null u64_of_lt offsetT unzipStat unused border Block liveOf
  liveOf_split liveBut liveBut_split Gains Moves status_eq_unused)

variable {state : State} {blocks front back : List Block} {block : Block}
  {top size bytes offset : Nat} {mem : Memory}

/-! ## Payloads -/

theorem tagAt_congr
    (same : ∀ byte, state.heap + offset ≤ byte → byte < state.heap + offset + 8 →
      mem byte = state.mem byte) :
    tagAt { state with mem := mem } offset = tagAt state offset := by
  have word := Memory.load64_congr same
  unfold tagAt
  dsimp only
  rw [word]

namespace Chained

/-- Bytes of one payload are written. -/
theorem of_payload (chained : Chained state blocks top) (member : block ∈ blocks)
    (same : ∀ byte, byte < state.heap + block.off ∨
      state.heap + (block.off + block.size - 16) ≤ byte → mem byte = state.mem byte) :
    Chained { state with mem := mem } blocks top := by
  have mapped := chained.mapped
  have bounds := chained.filled.bounds member
  -- a word that does not overlap the payload
  have kept : ∀ place, place + 8 ≤ block.off ∨ block.off + block.size ≤ place + 16 →
      tagAt { state with mem := mem } place = tagAt state place := by
    intro place outside
    refine tagAt_congr fun byte low high => same byte ?_
    omega
  refine ⟨⟨mapped.of_same rfl rfl, chained.base, chained.brk,
    chained.filled, fun other inside => ?_⟩, ?_⟩
  · have range := chained.filled.bounds inside
    have tags := chained.tags other inside
    have apart := chained.filled.before_or_behind member inside
    rw [kept _ (by grind), kept _ (by grind)]
    exact tags
  · rw [kept _ (by omega)]
    exact chained.ends

theorem memcpy (chained : Chained state blocks top) (member : block ∈ blocks)
    (room : bytes + 16 ≤ block.size) (direction : CopyDirection) (source : Nat) :
    Returns (Malloc.memcpy direction state (state.heap + block.off) source bytes) fun later =>
      Chained later blocks top ∧ later.heap = state.heap := by
  have bounds := chained.filled.bounds member
  have limit := chained.filled.bounded
  have contains : state.Contains (state.heap + block.off) bytes := ⟨by omega, by omega⟩
  refine ⟨_, if_pos (.inr contains), chained.of_payload member fun byte outside => ?_, rfl⟩
  exact Memory.copy_of_outside (by omega)

/-! ## The block and the one behind it -/

theorem larger_of_small (small : block.size ≤ size) : larger size block = false := by
  unfold larger
  simp [small]

/-- What `absorbNext` makes of a block. -/
structure Absorbs (state : State) (front : List Block) (block : Block) (back : List Block)
    (top : Nat) (later : State) (merged : Block) (rest : List Block) : Prop where
  chained : Chained later (front ++ merged :: rest) top
  off : merged.off = block.off
  live : liveOf (front ++ rest) = liveOf (front ++ back)
  heap : later.heap = state.heap
  size : mergedSize state (state.heap + block.off) = .ok merged.size
  spared : ∀ size, merged.size < size → Spared state (front ++ block :: back) top size →
    Spared later (front ++ merged :: rest) top size

/-- A free block behind is joined with the block. -/
theorem absorbNext (chained : Chained state (front ++ block :: back) top) :
    Returns (ImplicitList.absorbNext state (state.heap + block.off)) fun later =>
      ∃ merged rest, Absorbs state front block back top later merged rest := by
  have member : block ∈ front ++ block :: back := by simp
  have readSize := chained.size member
  have readStat := chained.nextStat
  have readNext := chained.nextPtr member
  have readBehind := readStat
  unfold ImplicitList.nextStat at readBehind
  rw [readNext, ok_bind] at readBehind
  -- nothing is joined
  have alone : (back.head?.map Block.status).getD border ≠ unused →
      Absorbs state front block back top state block back := by
    intro busy
    refine ⟨chained, rfl, rfl, rfl, ?_, fun _ _ spared => spared⟩
    unfold mergedSize
    rw [readSize, ok_bind, readNext, ok_bind, readBehind, ok_bind, if_neg busy]
    rfl
  unfold ImplicitList.absorbNext
  rw [readStat, ok_bind]
  cases back with
  | nil =>
      have busy : ([].head?.map Block.status).getD border ≠ unused := by decide
      exact ⟨state, if_neg busy, block, [], alone busy⟩
  | cons next rest =>
      rw [List.head?_cons, Option.map_some, Option.getD_some] at *
      cases Nat.decEq next.status unused with
      | isTrue free =>
          have touches : next.off = block.off + block.size := chained.filled.tiled.split.2.1
          have readNextSize := chained.size (by simp : next ∈ front ++ block :: next :: rest)
          rw [if_pos free, readNext, ok_bind, ← touches]
          refine chained.coalesce.mono fun later ⟨joined, heap, behind⟩ => ?_
          refine ⟨block.join next, rest, joined, rfl, ?_, heap, ?_, fun size small spared => ?_⟩
          · rw [liveOf_split, if_neg (by simp [status_eq_unused.mp free])]
          · unfold mergedSize
            rw [readSize, ok_bind, readNext, ok_bind, readBehind, ok_bind, if_pos free, ← touches,
              readNextSize, ok_bind]
            rfl
          · have lengths : block.size + next.size < size := small
            unfold Spared at spared ⊢
            have blockSmall : larger size block = false := larger_of_small (by omega)
            have nextSmall : larger size next = false := larger_of_small (by omega)
            rw [List.find?_append, List.find?_cons_of_neg (by simp [larger_of_small small.le])]
            rw [List.find?_append, List.find?_cons_of_neg (by simp [blockSmall]),
              List.find?_cons_of_neg (by simp [nextSmall])] at spared
            have bounds := chained.filled.bounds member
            split at spared
            case h_1 found result => exact spared
            case h_2 result =>
              rw [behind _ (by omega)]
              exact spared
      | isFalse busy => exact ⟨state, if_neg busy, block, next :: rest, alone busy⟩

/-! ## realloc -/

/-! ## realloc -/

/-- Free a block that lies beside the one that `malloc` has returned. -/
theorem freeMoved {merged gained : Block} {rest : List Block} {top' : Nat}
    (chained : Chained state blocks top') (joined : Filled (front ++ merged :: rest) top)
    (small : merged.size < blockSize bytes)
    (allocates : Allocates (front ++ merged :: rest) bytes gained blocks) :
    ReturnsOr .segv (ImplicitList.free state (state.heap + merged.off)) fun later =>
      ∃ blocks' top', Chained later blocks' top' ∧ later.heap = state.heap ∧
        Gains (front ++ rest) blocks' gained := by
  have member : merged ∈ blocks :=
    (allocates.kept merged (by simp)).resolve_right (Nat.lt_asymm small)
  have room := allocates.room
  have gainedLive : gained ∈ liveOf blocks := allocates.gains.live ▸ Set.mem_insert _ _
  have apart : gained.off ≠ merged.off := by
    have bounds := chained.filled.bounds member
    rcases chained.filled.before_or_behind gainedLive.1 member with same | before | behind
    · exact absurd (congrArg Block.size same) (by omega)
    · omega
    · omega
  obtain ⟨before, behind, rfl⟩ := List.append_of_mem member
  refine chained.free.mono fun later ⟨blocks', chained', live, heap⟩ => ?_
  refine ⟨blocks', top', chained', heap, ?_, allocates.gains.used, fun other inside => ?_⟩
  · rw [live, ← liveBut_split chained.filled.off_ne, ← liveBut_split joined.off_ne]
    unfold liveBut
    rw [allocates.gains.live]
    ext other
    constructor
    · intro ⟨inside, different⟩
      exact inside.imp_right fun old => ⟨old, different⟩
    · intro inside
      cases inside with
      | inl isGained => exact ⟨.inl isGained, by rw [isGained]; exact apart⟩
      | inr old => exact ⟨.inr old.1, old.2⟩
  · rw [← liveBut_split joined.off_ne] at inside
    exact allocates.gains.fresh other inside.1

theorem offsetT_fits (fits : offsetT bytes = bytes) : bytes < 2 ^ 31 := by
  have high := @Int.bmod_lt (bytes : Int) (2 ^ 32) (by decide)
  unfold offsetT at fits
  omega

/-- The branch that moves the block. -/
theorem reallocMove {merged : Block} {rest : List Block} (nonzero : bytes ≠ 0)
    (chained : Chained state (front ++ merged :: rest) top) (small : merged.size < blockSize bytes)
    (fits : bytes + 16 ≤ blockSize bytes)
    (spared : Spared state (front ++ merged :: rest) top (blockSize bytes))
    (direction : CopyDirection) :
    ReturnsOr .segv (ImplicitList.reallocMove direction state (state.heap + merged.off) bytes)
      fun (ptr, later) => ∃ (gained : Block) (blocks' : List Block) (top' : Nat),
        ptr = state.heap + gained.off ∧ later.heap = state.heap ∧ Chained later blocks' top' ∧
          Gains (front ++ rest) blocks' gained ∧ bytes + 16 ≤ gained.size := by
  obtain ⟨⟨ptr, given⟩, allocated, gained, blocks, top', place, heap, grown, allocates⟩ :=
    chained.malloc nonzero fits spared
  have gainedLive : gained ∈ liveOf blocks := allocates.gains.live ▸ Set.mem_insert _ _
  have room : bytes + 16 ≤ gained.size := fits.trans allocates.room
  obtain ⟨copied, copy, grown', heap'⟩ :=
    grown.memcpy gainedLive.1 room direction (state.heap + merged.off)
  rw [heap, ← place] at copy
  have freed := grown'.freeMoved chained.filled small allocates
  rw [heap', heap] at freed
  unfold ImplicitList.reallocMove
  rw [allocated, ok_bind]
  dsimp only
  rw [copy, ok_bind]
  refine freed.bind fun later ⟨blocks', top', last, base, gains⟩ => .inr (.ok ?_)
  exact ⟨gained, blocks', top', place, base, last, gains, room⟩

/-- `realloc` off the branches that break the chain. -/
theorem realloc (chained : Chained state blocks top) (member : block ∈ blocks)
    (regular : RegularRealloc state (state.heap + block.off) bytes) (direction : CopyDirection) :
    ReturnsOr .segv (ImplicitList.realloc direction state (state.heap + block.off) bytes)
      fun (ptr, later) => ∃ (ret : Option Nat) (blocks' : List Block) (top' : Nat),
        ptr = (ret.map (state.heap + ·)).getD null ∧ later.heap = state.heap ∧
          Chained later blocks' top' ∧ Moves blocks blocks' block bytes ret ∧
            (bytes < 2 ^ 31 ∨ ret = none) := by
  obtain ⟨front, back, rfl⟩ := List.append_of_mem member
  have others := liveBut_split chained.filled.off_ne
  have notNull : state.heap + block.off ≠ null := by
    have positive := chained.mapped.positive
    unfold null
    omega
  unfold ImplicitList.realloc
  cases Nat.decEq bytes 0 with
  | isTrue zero =>
      rw [if_pos zero]
      refine chained.free.bind fun later ⟨blocks', chained', live, heap⟩ => .inr (.ok ?_)
      exact ⟨none, blocks', top, rfl, heap, chained', ⟨fun _ => live.trans others.symm, nofun⟩,
        .inr rfl⟩
  | isFalse nonzero =>
      obtain ⟨narrow, larger, regular⟩ := regular.resolve_left nonzero
      obtain ⟨fits, spared⟩ := chained.spared nonzero regular
      have low := offsetT_fits narrow
      rw [if_neg nonzero, if_neg notNull]
      obtain ⟨later, absorbed, merged, rest, absorbs⟩ := chained.absorbNext
      have small : merged.size < blockSize bytes := larger _ (by rw [absorbs.size]; rfl)
      have read := absorbs.chained.size (by simp : merged ∈ front ++ merged :: rest)
      have bounds := absorbs.chained.filled.bounds (by simp : merged ∈ front ++ merged :: rest)
      have limit := absorbs.chained.filled.bounded
      have large := maxHeap_eq
      rw [absorbs.heap, absorbs.off] at read
      rw [absorbed, ok_bind, read, ok_bind, offsetT_size (by omega), u64_of_lt (by omega),
        if_neg (Nat.not_le.mpr small), narrow, u64_of_lt (by omega)]
      have moved := absorbs.chained.reallocMove nonzero small fits
        (absorbs.spared _ small spared) direction
      rw [absorbs.heap, absorbs.off] at moved
      refine moved.mono fun result held => ?_
      obtain ⟨gained, blocks', top', place, heap, chained', gains, room⟩ := held
      refine ⟨some gained.off, blocks', top', place, heap, chained', ⟨nofun, ?_⟩, .inl low⟩
      intro off isGained
      cases isGained
      rw [others, ← absorbs.live]
      exact ⟨gained, rfl, gains.used, gains.live, gains.fresh, fun _ => room⟩

end Chained

end OsPractices.ImplicitList
