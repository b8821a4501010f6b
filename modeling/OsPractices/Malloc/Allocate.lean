import OsPractices.Malloc.Place

/-!
# Allocation

`mm_init` makes memory that represents the empty layout, and `malloc` computes
the layout's operation: it places a block that fits, or lets the heap grow.
-/

set_option autoImplicit false

namespace OsPractices.Malloc

open Library

variable {state : State} {layout : Layout} {blocks : List Block} {bins : Bins}
  {top size least : Nat}

/-! ## Growing the heap -/

/-- The heap with a new last block, whose tags are not yet written. -/
def State.grow (state : State) (top size : Nat) : State :=
  State.put { state with memBrk := state.heap + (top + size) } (top + size - 8) (zip 0 border)

/-- `extend` once `mem_sbrk` has answered. -/
theorem extend_of_answer {next : State} {ptr : Nat}
    (sbrk : memSbrk state (offsetT size) = (ptr, next)) :
    extend state size = if ptr = null then pure (null, next)
      else next.set (hdrPtr (epiBdrPtr next)) (zip 0 border) >>= fun last => pure (ptr, last) := by
  -- the answer is a variable before its pattern is matched, so that it is not evaluated
  have whole : extend = fun (state : State) (size : Nat) =>
      (fun granted : Nat × State =>
        if granted.1 = null then pure (null, granted.2)
        else granted.2.set (hdrPtr (epiBdrPtr granted.2)) (zip 0 border) >>= fun last =>
          pure (granted.1, last)) (memSbrk state (offsetT size)) := by
    delta extend
    funext state size
    generalize memSbrk state (offsetT size) = granted
    obtain ⟨ptr, next⟩ := granted
    rfl
  have here := congrFun (congrFun whole state) size
  rwa [sbrk] at here

theorem extend_of_sbrk {next : State} {ptr : Nat} (sbrk : memSbrk state (offsetT size) = (ptr, next))
    (notNull : ptr ≠ null) :
    extend state size =
      next.set (hdrPtr (epiBdrPtr next)) (zip 0 border) >>= fun last => pure (ptr, last) :=
  (extend_of_answer sbrk).trans (if_neg notNull)

theorem extend_granted (represents : Represents state layout none)
    (room : layout.top + size ≤ maxHeap) :
    extend state size = .ok (state.heap + layout.top, state.grow layout.top size) := by
  have limit := maxHeap_eq
  have mapped := represents.framed.ready.toMapped
  have start := represents.framed.laid.tiled.start_le_stop
  have distance : offsetT size = size := offsetT_of_small (by omega) (by omega)
  have granted := memSbrk_granted mapped represents.framed.brk room
  rw [← distance] at granted
  have grown : Mapped { state with memBrk := state.heap + (layout.top + size) } :=
    mapped.of_same rfl rfl
  have epilogue : epiBdrPtr { state with memBrk := state.heap + (layout.top + size) } =
      state.heap + (layout.top + size) := epiBdrPtr_at grown rfl room
  have header : hdrPtr (state.heap + (layout.top + size)) =
      state.heap + (layout.top + size - 8) := hdrPtr_at mapped (by omega) room
  have inside : layout.top + size - 8 + 4 ≤ maxHeap := by omega
  have stored : State.set { state with memBrk := state.heap + (layout.top + size) }
      (state.heap + (layout.top + size - 8)) (zip 0 border) =
        .ok (state.grow layout.top size) := set_at inside (zip 0 border)
  rw [extend_of_sbrk granted mapped.ne_null, epilogue, header, stored]
  rfl

theorem Laid.grow (laid : Laid least blocks top) (enough : least ≤ size) (multiple : size % 8 = 0)
    (room : top + size ≤ maxHeap) (used : Bool) :
    Laid least (blocks ++ [⟨top, size, used⟩]) (top + size) := by
  refine ⟨Tiled.append_iff.mpr ⟨top, laid.tiled, rfl, rfl⟩, fun other member => ?_, room⟩
  cases List.mem_append.mp member with
  | inl old => exact laid.sizes other old
  | inr new =>
      rw [List.mem_singleton.mp new]
      exact ⟨enough, multiple⟩

/-- The layout that the grown heap represents. -/
theorem Represents.grow (represents : Represents state ⟨blocks, bins, top⟩ none)
    (enough : 16 ≤ size) (multiple : size % 8 = 0) (room : top + size ≤ maxHeap) :
    Yields blocks state ⟨blocks ++ [⟨top, size, true⟩], bins, top + size⟩ (some top)
      (state.grow top size) := by
  have limit := maxHeap_eq
  have framed : Framed state blocks top none := represents.framed
  have laid := framed.laid
  have start := laid.tiled.start_le_stop
  have aligned := laid.aligned.2
  have same : ∀ offset, offset ≠ top + size - 8 →
      words (state.grow top size) offset = words state offset := by
    intro offset apart
    unfold State.grow
    rw [words_put (by omega), Function.update_of_ne apart]
    rfl
  have old : ∀ block ∈ blocks, block ∈ blocks ++ [⟨top, size, true⟩] ∧ block.off ≠ top := by
    intro block member
    have := laid.bounds member
    exact ⟨List.mem_append_left _ member, by omega⟩
  have framed' : Framed (state.grow top size) (blocks ++ [⟨top, size, true⟩]) (top + size)
      (some top) := by
    refine ⟨⟨⟨framed.ready.page, framed.ready.positive, framed.ready.below,
      framed.ready.maxAddr⟩, framed.ready.base⟩, rfl, laid.grow enough multiple room true,
      (same _ (by omega)).trans framed.prologue, ?_, fun block member sound => ?_⟩
    · unfold State.grow
      rw [words_put (by omega), Function.update_self]
      rfl
    · cases List.mem_append.mp member with
      | inl inOld =>
          have bounds := laid.bounds inOld
          rw [same _ (by omega), same _ (by omega)]
          exact framed.tags block inOld (by simp)
      | inr isNew => exact absurd (by rw [List.mem_singleton.mp isNew]) sound
  refine ⟨⟨framed', ?_, ?_, represents.apart⟩, rfl, ?_⟩
  · intro rank small
    refine (represents.listed rank small).congr ?_ ?_ ?_
    · simp only [links, same (4 * rank) (by omega)]
    · intro off inList
      have := framed.lt_node (represents.node rank small off inList)
      obtain ⟨block, member, rfl, _⟩ := represents.node rank small off inList
      have bounds := laid.bounds member
      simp only [links, same (block.off - 4) (by omega)]
    · intro off inList
      obtain ⟨block, member, rfl, sound⟩ := represents.node rank small off inList
      have bounds := laid.bounds member
      have before := framed.preAt_eq member sound
      have after := framed'.preAt_eq (old block member).1
        fun isNew => (old block member).2 (Option.some.inj isNew).symm
      simp only [links, before, after]
      rw [same _ (by omega)]
  · intro rank small off inList
    obtain ⟨block, member, rfl, _⟩ := represents.node rank small off inList
    exact ⟨block, (old block member).1, rfl,
      fun isNew => (old block member).2 (Option.some.inj isNew).symm⟩
  · intro block member byte owns
    have bounds := laid.bounds member
    obtain ⟨low, high⟩ := owns
    exact put_mem_of_outside (by omega)

/-- A word keeps the low 32 bits of a size. -/
theorem setTags_u32 (state : State) (ptr size status : Nat) :
    setTags state ptr (u32 size) status = setTags state ptr size status := by
  have word : zip (u32 size) status % 2 ^ 32 = zip size status % 2 ^ 32 := by
    unfold zip u32
    omega
  have stored : ∀ (state : State) (ptr : Nat),
      state.set ptr (zip (u32 size) status) = state.set ptr (zip size status) := by
    intro state ptr
    unfold State.set
    rw [← Memory.store32_mod, word, Memory.store32_mod]
  unfold setTags
  simp only [stored]

/-- `list_init` of a block that is in no list. -/
theorem Represents.listInit (represents : Represents state layout none) {block : Block}
    (member : block ∈ layout.blocks) (fresh : Unlisted layout.bins block.off) :
    Returns (Malloc.listInit state (state.heap + block.off))
      (Yields layout.blocks state layout none) := by
  have node : Node layout.blocks none block.off := ⟨block, member, rfl, by simp⟩
  have self : ∀ off ∈ some block.off, Node layout.blocks none off := by
    intro off same
    cases same
    exact node
  have null : ∀ off ∈ (none : Option Nat), Node layout.blocks none off := by simp
  have run₁ := represents.framed.set_next node .none
  obtain ⟨step₁, agrees₁⟩ := represents.framed.setNext self null
  generalize state.setNext (some block.off) .none = state₁ at run₁ step₁ agrees₁
  have field := step₁.framed.prePtr_node node
  have run₂ := step₁.framed.set_prev node .none
  obtain ⟨step₂, agrees₂⟩ := step₁.framed.setPrev self null
  generalize state₁.setPrev (some block.off) .none = state₂ at run₂ step₂ agrees₂
  rw [step₁.heap] at field run₂
  have all := step₁.trans step₂
  refine ⟨state₂, ?_, ⟨⟨all.framed, fun rank small => ?_, represents.node, represents.apart⟩,
    all.heap, all.keeps⟩⟩
  · rw [encodeLink_none] at run₁ run₂
    unfold Malloc.listInit
    rw [run₁, ok_bind, field, ok_bind, run₂]
  · have out : ∀ off ∈ some block.off, off ∉ layout.bins rank := by
      intro off same
      cases same
      exact fresh rank small
    have agrees := ((agrees₁ rank small).setPrev _ _).trans (agrees₂ rank small)
    exact agrees.holds (((represents.listed rank small).setNext out _).setPrev out _)
      (represents.node rank small)

/-- The branch of `malloc` that lets the heap grow. -/
theorem Represents.mallocExtend (represents : Represents state ⟨blocks, bins, top⟩ none)
    {bytes : Nat} (enough : 16 ≤ u32 bytes) (multiple : u32 bytes % 8 = 0)
    (room : top + u32 bytes ≤ maxHeap) :
    Returns (Malloc.mallocExtend state bytes) fun (ptr, state') => ptr = state.heap + top ∧
      Yields blocks state ⟨blocks ++ [⟨top, u32 bytes, true⟩], bins, top + u32 bytes⟩ none
        state' := by
  have notNull : state.heap + top ≠ null := represents.framed.ready.toMapped.ne_null
  have extended := extend_granted represents room
  have yields₁ := represents.grow enough multiple room
  have laid : Laid 16 (blocks ++ [⟨top, u32 bytes, true⟩]) (top + u32 bytes) :=
    yields₁.represents.framed.laid
  have member : (⟨top, u32 bytes, true⟩ : Block) ∈ blocks ++ [⟨top, u32 bytes, true⟩] := by simp
  have fresh : Unlisted bins top := by
    intro rank small inList
    obtain ⟨other, inside, place, _⟩ := represents.node rank small top inList
    have bounds := represents.framed.laid.bounds inside
    simp only at bounds
    omega
  have old : Covers (blocks ++ [⟨top, u32 bytes, true⟩]) blocks :=
    .of_subset (List.subset_append_left _ _)
  obtain ⟨state₂, run₂, yields₂⟩ := yields₁.represents.mark true (by simp)
  rw [yields₁.heap] at run₂
  have listed := yields₂.represents.listInit member fresh
  rw [yields₂.heap, yields₁.heap] at listed
  obtain ⟨state₃, run₃, yields₃⟩ := listed
  have checked := yields₃.represents.framed.assertStat member (by simp)
  rw [yields₃.heap, yields₂.heap, yields₁.heap] at checked
  have status : Block.status ⟨top, u32 bytes, true⟩ = used := rfl
  rw [status] at run₂ checked
  dsimp only at run₂ run₃ checked
  refine ⟨(state.heap + top, state₃), ?_, rfl, ?_⟩
  · unfold Malloc.mallocExtend
    rw [extended, ok_bind]
    dsimp only
    rw [if_neg notNull, ← setTags_u32, run₂, ok_bind, run₃, ok_bind, checked]
    rfl
  · exact (yields₁.trans (yields₂.cover old)).trans (yields₃.cover old)

/-! ## malloc -/

/-- The free block that the search finds, in the list of the rank it ends with. -/
theorem Layout.Valid.found (valid : layout.Valid least) (positive : 0 < least) {off rank : Nat}
    (found : layout.fit size = some off) (inList : off ∈ layout.bins rank) :
    ∃ block ∈ layout.blocks, block.used = false ∧ block.off = off ∧ size ≤ block.size ∧
      getRank block.size = rank := by
  obtain ⟨block, member, unused, same, fits⟩ := valid.fit_some positive found
  obtain ⟨other, ⟨inside, _⟩, place, isRank⟩ := (valid.lists.mem_iff rank off).mp inList
  rw [valid.laid.eq_of_off_eq positive inside member (place.trans same.symm)] at isRank
  exact ⟨block, member, unused, same, fits, isRank⟩

/-- `malloc` where `mem_sbrk` is not asked for more than it has. -/
theorem Represents.malloc (represents : Represents state layout none) (valid : layout.Valid least)
    (positive : 0 < least) {bytes off : Nat} {next : Layout} (nonzero : bytes ≠ 0)
    (enough : 16 ≤ blockSize bytes) (result : layout.malloc (blockSize bytes) = some (off, next)) :
    Returns (Malloc.malloc state bytes) fun (ptr, state') => ptr = state.heap + off ∧
      Yields (held layout.blocks) state next none state' := by
  have multiple := blockSize_aligned bytes
  obtain ⟨last, search, inList⟩ := represents.fitLoop (blockSize bytes)
    (getRank_lt (blockSize bytes)) (by omega : 3 ≤ getRank (blockSize bytes) + 3)
  change Malloc.fitLoop state (blockSize bytes) rankNum (getRank (blockSize bytes)) =
    .ok (((layout.fit (blockSize bytes)).map (state.heap + ·)).getD null, last) at search
  change ∀ off ∈ layout.fit (blockSize bytes), off ∈ layout.bins last at inList
  unfold Malloc.malloc
  rw [if_neg nonzero]
  change Returns (Malloc.fitLoop state (blockSize bytes) rankNum (getRank (blockSize bytes)) >>= _) _
  rw [search, ok_bind]
  dsimp only
  unfold Layout.malloc at result
  cases found : layout.fit (blockSize bytes) with
  | none =>
      simp only [found] at result
      split at result
      case isFalse => cases result
      case isTrue room =>
        cases result
        rw [Option.map_none, Option.getD_none, if_pos rfl]
        have grown := represents.mallocExtend enough multiple room
        exact grown.mono fun _ ⟨place, yields⟩ =>
          ⟨place, yields.cover (.of_subset fun _ inside => (mem_held.mp inside).1)⟩
  | some place =>
      obtain ⟨block, member, unused, rfl, fits, isRank⟩ :=
        valid.found positive found (inList place found)
      obtain ⟨front, back, whole, located⟩ := valid.splitAt positive member
      simp only [found, located, Option.map_some, Option.some.injEq, Prod.mk.injEq] at result
      obtain ⟨rfl, rfl⟩ := result
      have notNull : state.heap + block.off ≠ null := represents.framed.ready.toMapped.ne_null
      rw [Option.map_some, Option.getD_some, if_neg notNull]
      have listed := inList block.off found
      rw [← isRank] at listed ⊢
      obtain ⟨blocks, bins, top⟩ := layout
      simp only at whole
      subst whole
      obtain ⟨state₁, run₁, yields₁⟩ := represents.listRemove listed
      have placed := yields₁.represents.place_unlisted (represents.unlisted_remove listed) enough
        multiple fits
      rw [yields₁.heap] at placed
      obtain ⟨state₂, run₂, yields₂⟩ := placed
      have gained : (⟨block.off, block.placedSize (blockSize bytes), true⟩ : Block) ∈
          liveOf (Layout.placeBetween front block back (bins.remove block) top
            (blockSize bytes)).blocks := by
        rw [placeBetween_live]
        exact Set.mem_insert _ _
      have checked := yields₂.represents.framed.assertStat gained.1 (by simp)
      have status : Block.status ⟨block.off, block.placedSize (blockSize bytes), true⟩ = used := rfl
      rw [status, yields₂.heap, yields₁.heap] at checked
      have others : held (front ++ block :: back) ⊆ front ++ back := by
        intro other inside
        obtain ⟨inside, used⟩ := mem_held.mp inside
        simp only [List.mem_append, List.mem_cons] at inside ⊢
        rcases inside with inFront | isBlock | inBack
        · exact .inl inFront
        · rw [isBlock, unused] at used
          cases used
        · exact .inr inBack
      have kept₁ : held (front ++ block :: back) ⊆ front ++ block :: back :=
        fun _ inside => (mem_held.mp inside).1
      have kept₂ : held (front ++ block :: back) ⊆
          front ++ ⟨block.off, block.placedSize (blockSize bytes), true⟩ :: back := by
        intro other inside
        exact mem_beside _ (others inside)
      refine ⟨(state.heap + block.off, state₂), ?_, rfl,
        (yields₁.cover (.of_subset kept₁)).trans (yields₂.cover (.of_subset kept₂))⟩
      rw [run₁, ok_bind]
      change (Malloc.place state₁ (state.heap + block.off) (blockSize bytes) true >>= _) = _
      rw [run₂, ok_bind, checked]
      rfl

/-! ## mm_init -/

/-- The memory after `mm_init`, from the first bucket to the epilogue. -/
def State.opened (state : State) : State :=
  (((((State.put { state with memBrk := state.heap + 32, heapBase := state.heap } 0 24).put 4
    24).put 8 24).put 16 (zip 8 border)).put 24 (zip 0 border))

/-- `mm_init` once `mem_sbrk` has answered. -/
theorem mmInit_of_sbrk {next : State} {ptr : Nat}
    (sbrk : memSbrk state (bdrOff + 2 * wordSize : Nat) = (ptr, next)) (notNull : ptr ≠ null) :
    mmInit state =
      (List.range rankNum).foldlM (fun state i => state.set (buck state i) bdrOff)
          { next with heapBase := ptr } >>= fun state =>
        state.set (hdrPtr (proBdrPtr state)) (zip (2 * wordSize) border) >>= fun state =>
          state.set (hdrPtr (epiBdrPtr state)) (zip 0 border) >>= fun state => pure (0, state) := by
  unfold mmInit
  extract_lets size
  rw [sbrk]
  exact if_neg notNull

theorem proBdrPtr_at (ready : Ready state) : proBdrPtr state = state.heap + 24 := by
  have limit := maxHeap_eq
  exact ready.link_at (by rw [bdrOff_eq]; omega)

/-- `SET(BUCK(i), BDR_OFF)` -/
theorem set_buck (ready : Ready state) {rank : Nat} (small : rank < 3) :
    state.set (buck state rank) bdrOff = .ok (state.put (4 * rank) 24) := by
  have limit := maxHeap_eq
  rw [buck_at ready small, set_at (by omega), bdrOff_eq]

theorem mmInit_opens (mapped : Mapped state) (empty : state.memBrk = state.heap) :
    mmInit state = .ok (0, state.opened) := by
  have limit := maxHeap_eq
  have room : 0 + (bdrOff + 2 * wordSize) ≤ maxHeap := by
    rw [bdrOff_eq, wordSize]
    omega
  have brk : state.memBrk = state.heap + 0 := empty
  have granted : memSbrk state (bdrOff + 2 * wordSize : Nat) =
      (state.heap, { state with memBrk := state.heap + 32 }) := by
    rw [memSbrk_granted mapped brk room, bdrOff_eq, wordSize]
    rfl
  have notNull : state.heap ≠ null := @Mapped.ne_null state 0 mapped
  have whole := mmInit_of_sbrk granted notNull
  dsimp only at whole
  rw [whole]
  obtain ⟨first, start⟩ : ∃ first : State,
      first = { state with memBrk := state.heap + 32, heapBase := state.heap } := ⟨_, rfl⟩
  have ready : Ready first := by
    subst start
    exact ⟨mapped.of_same rfl rfl, rfl⟩
  have opened : state.opened =
      ((((first.put 0 24).put 4 24).put 8 24).put 16 (zip 8 border)).put 24 (zip 0 border) := by
    rw [start]
    rfl
  have buckets : (List.range rankNum).foldlM
      (fun state i => State.set state (buck state i) bdrOff) first =
        .ok (((first.put 0 24).put 4 24).put 8 24) := by
    rw [rankNum_eq, show List.range 3 = [0, 1, 2] from rfl]
    simp only [List.foldlM_cons, List.foldlM_nil]
    rw [set_buck ready (by decide), ok_bind, set_buck (ready.put 24) (by decide), ok_bind,
      set_buck ((ready.put 24).put 24) (by decide), ok_bind]
    rfl
  have filled : Ready (((first.put 0 24).put 4 24).put 8 24) :=
    ((ready.put 24).put 24).put 24
  have top : (((first.put 0 24).put 4 24).put 8 24).memBrk =
      (((first.put 0 24).put 4 24).put 8 24).heap + 32 := by
    rw [start]
    rfl
  rw [opened, ← start, buckets, ok_bind]
  generalize ((first.put 0 24).put 4 24).put 8 24 = state' at filled top
  have prologue := proBdrPtr_at filled
  have header := hdrPtr_at filled.toMapped (by decide : 8 ≤ 24) (by omega)
  have tagged : Ready (state'.put 16 (zip 8 border)) := filled.put _
  have epilogue := epiBdrPtr_at tagged.toMapped top (by omega : 32 ≤ maxHeap)
  have header' := hdrPtr_at tagged.toMapped (by decide : 8 ≤ 32) (by omega)
  have set : state'.set (state'.heap + 16) (zip 8 border) = .ok (state'.put 16 (zip 8 border)) :=
    set_at (by omega) _
  have set' : (state'.put 16 (zip 8 border)).set (state'.heap + 24) (zip 0 border) =
      .ok ((state'.put 16 (zip 8 border)).put 24 (zip 0 border)) := set_at (by omega) _
  rw [prologue, header]
  change (state'.set (state'.heap + 16) (zip 8 border) >>= _) = _
  rw [set, ok_bind, epilogue, header']
  change ((state'.put 16 (zip 8 border)).set (state'.heap + 24) (zip 0 border) >>= _) = _
  rw [set', ok_bind]
  rfl

theorem opened_represents (mapped : Mapped state) : Represents state.opened .empty none := by
  have limit := maxHeap_eq
  have stored : words state.opened = Function.update (Function.update (Function.update
      (Function.update (Function.update
        (words { state with memBrk := state.heap + 32, heapBase := state.heap })
        0 24) 4 24) 8 24) 16 (zip 8 border)) 24 (zip 0 border) := by
    unfold State.opened
    rw [words_put (by decide), words_put (by decide), words_put (by decide), words_put (by decide),
      words_put (by decide)]
    rfl
  refine ⟨⟨⟨mapped.of_same rfl rfl, rfl⟩, rfl,
    ⟨rfl, by simp [Layout.empty], by simp only [Layout.empty]; omega⟩, ?_, ?_,
    by simp [Layout.empty]⟩, ?_, by simp [Layout.empty], by simp [Layout.empty]⟩
  · rw [stored]
    rfl
  · rw [stored]
    rfl
  · intro rank small
    refine ⟨?_, List.nodup_nil, trivial⟩
    have bucket : words state.opened (4 * rank) = 24 := by
      rw [stored]
      match rank, small with
      | 0, _ => rfl
      | 1, _ => rfl
      | 2, _ => rfl
    simp only [links, bucket]
    rfl

theorem Layout.empty_valid (least : Nat) : Layout.empty.Valid least where
  laid := ⟨rfl, by simp [empty], by decide⟩
  lists := ⟨fun _ => List.nodup_nil, by simp [empty, vacantOf]⟩
  settled := List.isChain_nil

end OsPractices.Malloc
