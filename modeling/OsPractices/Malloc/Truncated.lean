import OsPractices.Malloc.Allocate

/-!
# Truncated requests

A request just below a multiple of `2 ^ 32` asks for a block of 0 or 8 bytes.
`malloc` then writes tags and links over words that are not its own, but it
does not fault.
-/

set_option autoImplicit false

namespace OsPractices.Malloc

open Library

variable {state state' : State} {layout : Layout} {blocks front back : List Block} {block : Block}
  {bins : Bins} {top size least offset found status value : Nat}

/-- `state'` has the same heap, and differs from `state` in some words only. -/
structure Rewrites (sites : Nat → Prop) (state state' : State) : Prop where
  ready : Ready state'
  heap : state'.heap = state.heap
  brk : state'.memBrk = state.memBrk
  words : ∀ other, ¬ sites other → Malloc.words state' other = Malloc.words state other

theorem Rewrites.trans {sites : Nat → Prop} {state'' : State}
    (first : Rewrites sites state state') (second : Rewrites sites state' state'') :
    Rewrites sites state state'' :=
  ⟨second.ready, second.heap.trans first.heap, second.brk.trans first.brk, fun other outside =>
    (second.words other outside).trans (first.words other outside)⟩

theorem Rewrites.mono {narrow wide : Nat → Prop} (rewrites : Rewrites narrow state state')
    (within : ∀ other, narrow other → wide other) : Rewrites wide state state' :=
  ⟨rewrites.ready, rewrites.heap, rewrites.brk, fun other outside =>
    rewrites.words other fun site => outside (within other site)⟩

theorem Rewrites.put (ready : Ready state) (aligned : offset % 4 = 0) (value : Nat) :
    Rewrites (· = offset) state (state.put offset value) :=
  ⟨ready.put value, rfl, rfl, fun other apart => by
    rw [words_put aligned, Function.update_of_ne apart]⟩

/-- A store at any place of the heap. -/
theorem Rewrites.set (ready : Ready state) (aligned : offset % 4 = 0)
    (inside : offset + 4 ≤ maxHeap) (value : Nat) :
    Returns (state.set (state.heap + offset) value) (Rewrites (· = offset) state) :=
  ⟨_, set_at inside value, .put ready aligned value⟩

/-- The tags at any place of the heap; `found` is the size that the header has
once it is written. -/
theorem setTags_at (ready : Ready state) (aligned : offset % 8 = 0) (low : 16 ≤ offset)
    (stored : unzipSize (zip size status % 2 ^ 32) = found) (inside : offset + found ≤ maxHeap) :
    Returns (setTags state (state.heap + offset) size status) fun state' =>
      Rewrites (fun other => other = offset - 8 ∨ other = offset + found - 16) state state' ∧
        words state' (offset - 8) = zip size status % 2 ^ 32 := by
  have multiple : found % 8 = 0 := by
    rw [← stored]
    unfold unzipSize
    omega
  have ready' : Ready (state.put (offset - 8) (zip size status)) := ready.put _
  have header : words (state.put (offset - 8) (zip size status)) (offset - 8) =
      zip size status % 2 ^ 32 := by
    rw [words_put (by omega), Function.update_self]
  refine ⟨(state.put (offset - 8) (zip size status)).put (offset + found - 16) (zip size status),
    setTags_stores ready.toMapped aligned low stored inside, ?_, ?_⟩
  · exact ((Rewrites.put ready (by omega) _).mono fun _ => .inl).trans
      ((Rewrites.put ready' (by omega) _).mono fun _ => .inr)
  · rw [words_put (by omega), Function.update_apply]
    split
    case isTrue => rfl
    case isFalse => exact header

theorem assertStat_at (ready : Ready state) (aligned : offset % 8 = 0) (high : 8 ≤ offset)
    (inside : offset ≤ maxHeap) (tagged : unzipStat (words state (offset - 8)) = status) :
    assertStat state (state.heap + offset) status = .ok () := by
  unfold assertStat
  rw [stat_at ready.toMapped (by omega) high inside, ok_bind]
  exact if_pos tagged

/-- The size and the status of a tag whose size has been truncated. -/
theorem truncated_tag {bytes : Nat} (multiple : bytes % 8 = 0) (small : status < 8) :
    unzipSize (zip bytes status % 2 ^ 32) = u32 bytes ∧
      unzipStat (zip bytes status % 2 ^ 32) = status := by
  unfold unzipSize unzipStat zip u32
  omega

/-- Where a block at any place of the heap keeps its `prev` link. -/
theorem prePtr_of_size (ready : Ready state) (aligned : offset % 8 = 0) (low : 16 ≤ offset)
    (stored : sizeAt (words state) offset = found) (inside : offset + found ≤ maxHeap) :
    state.prePtr (state.heap + offset) = .ok (state.heap + (offset + found - 12)) := by
  have place := prePtr_at ready.toMapped (by omega : offset % 4 = 0) (by omega) (by omega)
    (by omega)
  unfold preAt at place
  rwa [stored] at place

/-! ## A new block -/

theorem Represents.mallocExtend_truncated (represents : Represents state layout none) {bytes : Nat}
    (multiple : bytes % 8 = 0) (room : layout.top + u32 bytes ≤ maxHeap) :
    Returns (Malloc.mallocExtend state bytes) fun _ => True := by
  have limit := maxHeap_eq
  have framed := represents.framed
  have mapped := framed.ready.toMapped
  have start := framed.laid.tiled.start_le_stop
  have aligned := framed.laid.aligned.2
  have notNull : state.heap + layout.top ≠ null := mapped.ne_null
  have extended := extend_granted represents room
  have short : u32 bytes % 8 = 0 := by
    unfold u32
    omega
  obtain ⟨tagSize, tagStat⟩ := truncated_tag multiple (by decide : used < 8)
  have ready₁ : Ready (state.grow layout.top (u32 bytes)) :=
    ⟨mapped.of_same rfl rfl, framed.ready.base⟩
  have heap₁ : (state.grow layout.top (u32 bytes)).heap = state.heap := rfl
  generalize state.grow layout.top (u32 bytes) = state₁ at extended ready₁ heap₁
  unfold Malloc.mallocExtend
  rw [extended, ok_bind]
  dsimp only
  rw [if_neg notNull, ← heap₁]
  refine Returns.bind (setTags_at ready₁ aligned (by omega) tagSize room)
    fun state₂ ⟨rewrites, header⟩ => ?_
  have field := nexPtr_at rewrites.ready.toMapped (by omega : 8 ≤ layout.top) (by omega)
  have next := Rewrites.set rewrites.ready (by omega : (layout.top - 4) % 4 = 0) (by omega) bdrOff
  unfold Malloc.listInit
  rw [← field] at next
  rw [← rewrites.heap, bind_assoc]
  refine Returns.bind next fun state₃ linked => ?_
  have kept : words state₃ (layout.top - 8) = zip bytes used % 2 ^ 32 := by
    rw [linked.words _ (by omega), header]
  have stored : sizeAt (words state₃) layout.top = u32 bytes := by
    unfold sizeAt
    rw [kept, tagSize]
  have place := prePtr_of_size linked.ready aligned (by omega) stored room
  have prev := Rewrites.set linked.ready (by omega : (layout.top + u32 bytes - 12) % 4 = 0)
    (by omega) bdrOff
  rw [← linked.heap, place, ok_bind]
  refine Returns.bind prev fun state₄ linked' => ?_
  have kept' : unzipStat (words state₄ (layout.top - 8)) = used := by
    rw [linked'.words _ (by omega), kept, tagStat]
  have checked := assertStat_at linked'.ready aligned (by omega) (by omega) kept'
  rw [← linked'.heap, checked]
  exact .ok trivial

/-! ## A free block -/

theorem Represents.framed_without (represents : Represents state ⟨blocks, bins, top⟩ none)
    (member : block ∈ blocks) {sites : Nat → Prop} (rewrites : Rewrites sites state state')
    (inside : ∀ other, sites other → block.off ≤ other ∧ other + 16 ≤ block.off + block.size) :
    Framed state' blocks top (some block.off) := by
  have framed : Framed state blocks top none := represents.framed
  have laid := framed.laid
  have bounds := laid.bounds member
  have kept : ∀ other, other < block.off ∨ block.off + block.size < other + 16 →
      words state' other = words state other := by
    intro other outside
    apply rewrites.words
    intro site
    have := inside other site
    omega
  refine ⟨rewrites.ready, ?_, laid, (kept _ (by omega)).trans framed.prologue,
    (kept _ (by omega)).trans framed.epilogue, fun other otherIn sound => ?_⟩
  · rw [rewrites.brk, rewrites.heap]
    exact framed.brk
  · have otherBounds := laid.bounds otherIn
    obtain ⟨header, footer⟩ := framed.tags other otherIn (by simp)
    rcases laid.before_or_behind member otherIn with same | before | behind
    · exact absurd (congrArg (some ·.off) same) sound
    · rw [kept _ (by omega), kept _ (by omega)]
      exact ⟨header, footer⟩
    · rw [kept _ (by omega), kept _ (by omega)]
      exact ⟨header, footer⟩

/-- `SET(PRE_PTR(list), ..)` of the first block of a list, if there is one. -/
theorem Framed.setPrev_rewrites (framed : Framed state blocks top (some block.off))
    (member : block ∈ blocks) {target : Option Nat}
    (node : ∀ off ∈ target, Node blocks (some block.off) off) (value : Option Nat) :
    Rewrites (fun other => other + 8 < block.off ∨ block.off + block.size ≤ other + 8) state
      (state.setPrev target value) := by
  cases target with
  | none => exact ⟨framed.ready, rfl, rfl, fun _ _ => rfl⟩
  | some off =>
      obtain ⟨owner, ownerIn, rfl, sound⟩ := node off rfl
      have bounds := framed.laid.bounds ownerIn
      have place := framed.preAt_eq ownerIn sound
      have aligned : (owner.off + owner.size - 12) % 4 = 0 := by omega
      have stored := Rewrites.put framed.ready aligned (encodeLink value)
      rw [← place] at stored
      refine stored.mono fun other site => ?_
      rw [site, place]
      rcases framed.laid.before_or_behind member ownerIn with same | before | behind
      · exact absurd (congrArg (some ·.off) same) sound
      · omega
      · omega

/-- `split` with no size at all: the remnant is the whole block. -/
theorem Represents.split_nothing (represents : Represents state ⟨front ++ block :: back, bins, top⟩ none)
    (unlisted : Unlisted bins block.off) (vacant : block.used = false) :
    Returns (Malloc.split state (state.heap + block.off) 0) fun state' =>
      Ready state' ∧ state'.heap = state.heap := by
  have limit := maxHeap_eq
  have below := represents.framed.ready.below
  have member : block ∈ front ++ block :: back := by simp
  have bounds := represents.framed.laid.bounds member
  have readSize := represents.framed.size member (by simp)
  have same : u64 ((state.heap + block.off : Nat) + (0 : Nat)) = state.heap + block.off := by
    unfold u64
    omega
  have whole : u32 ((block.size : Int) - (0 : Nat)) = block.size := by
    unfold u32
    omega
  have isBlock : (⟨block.off, block.size, false⟩ : Block) = block := by
    rw [← vacant]
  have marked := represents.mark false (by simp)
  rw [isBlock] at marked
  unfold Malloc.split
  rw [readSize, ok_bind]
  simp only [same, whole]
  have status : block.status = unused := status_eq_unused.mpr vacant
  rw [status] at marked
  refine Returns.bind marked fun state₁ yields₁ => ?_
  rw [← yields₁.heap]
  refine Returns.bind (yields₁.represents.listPush member (by simp) unlisted) fun state₂ yields₂ => ?_
  have checked := yields₂.represents.framed.assertStat member (by simp)
  rw [status, yields₂.heap] at checked
  exact .of_eq (bind_eq_ok_iff.mpr ⟨(), checked, rfl⟩)
    ⟨yields₂.represents.framed.ready, yields₂.heap⟩

/-- `split` after eight bytes: the remnant starts at the old payload. -/
theorem Represents.split_eight (represents : Represents state ⟨front ++ block :: back, bins, top⟩ none)
    (unlisted : Unlisted bins block.off) (large : 24 < block.size) :
    Returns (Malloc.split state (state.heap + block.off) 8) fun state' =>
      Ready state' ∧ state'.heap = state.heap := by
  have limit := maxHeap_eq
  have framed := represents.framed
  have laid := framed.laid
  have below := framed.ready.below
  have member : block ∈ front ++ block :: back := by simp
  have bounds := laid.bounds member
  have readSize := framed.size member (by simp)
  have newptr : u64 ((state.heap + block.off : Nat) + (8 : Nat)) = state.heap + (block.off + 8) := by
    unfold u64
    omega
  have remnant : u32 ((block.size : Int) - (8 : Nat)) = block.size - 8 := by
    unfold u32
    omega
  have exactly : u32 (block.size - 8 : Nat) = block.size - 8 := u32_of_lt (by omega)
  obtain ⟨tagSize, tagStat⟩ :=
    truncated_tag (by omega : (block.size - 8) % 8 = 0) (by decide : unused < 8)
  rw [exactly] at tagSize
  have small := getRank_lt (block.size - 8)
  unfold Malloc.split
  rw [readSize, ok_bind]
  simp only [newptr, remnant]
  refine Returns.bind (setTags_at framed.ready (by omega) (by omega) tagSize (by omega))
    fun state₁ ⟨rewrites₁, header₁⟩ => ?_
  rw [← rewrites₁.heap]
  -- the first entry of the list lies outside the block
  have framed₁ := represents.framed_without member rewrites₁ (by omega)
  have sameHead : words state₁ (4 * getRank (block.size - 8)) =
      words state (4 * getRank (block.size - 8)) := rewrites₁.words _ (by omega)
  have node : ∀ off ∈ (links (words state₁) (getRank (block.size - 8))).head,
      Node (front ++ block :: back) (some block.off) off := by
    intro off first
    simp only [links, sameHead] at first
    have inList := (represents.listed _ small).head_mem first
    obtain ⟨owner, ownerIn, place, _⟩ := represents.node _ small off inList
    exact ⟨owner, ownerIn, place, fun same => unlisted _ small (Option.some.inj same ▸ inList)⟩
  have distance := framed₁.ready.ptrDiff_at (by omega : block.off + 8 < 2 ^ 32)
  have linked := framed₁.linkPrev node (some (block.off + 8))
  have rewrites₂ := framed₁.setPrev_rewrites member node (some (block.off + 8))
  unfold Malloc.listPush
  rw [framed₁.list small node, ok_bind, distance]
  simp only [bind_assoc]
  rw [← encodeLink_some (block.off + 8), linked, ok_bind, encodeLink_some]
  generalize state₁.setPrev (links (words state₁) (getRank (block.size - 8))).head
    (some (block.off + 8)) = state₂ at rewrites₂
  have header₂ : words state₂ (block.off + 8 - 8) = zip (block.size - 8) unused % 2 ^ 32 := by
    rw [rewrites₂.words _ (by omega), header₁]
  generalize ptrDiff _ _ = link
  -- the links of the remnant, and the bucket
  have field := nexPtr_at rewrites₂.ready.toMapped (by omega : 8 ≤ block.off + 8) (by omega)
  have next := Rewrites.set rewrites₂.ready (by omega : (block.off + 8 - 4) % 4 = 0) (by omega) link
  rw [← field] at next
  rw [← rewrites₂.heap]
  refine Returns.bind next fun state₃ rewrites₃ => ?_
  have header₃ : words state₃ (block.off + 8 - 8) = zip (block.size - 8) unused % 2 ^ 32 := by
    rw [rewrites₃.words _ (by omega), header₂]
  have stored : sizeAt (words state₃) (block.off + 8) = block.size - 8 := by
    unfold sizeAt
    rw [header₃, tagSize]
  have place := prePtr_of_size rewrites₃.ready (by omega) (by omega) stored (by omega)
  have prev := Rewrites.set rewrites₃.ready
    (by omega : (block.off + 8 + (block.size - 8) - 12) % 4 = 0) (by omega) bdrOff
  rw [← rewrites₃.heap, place, ok_bind]
  refine Returns.bind prev fun state₄ rewrites₄ => ?_
  have header₄ : words state₄ (block.off + 8 - 8) = zip (block.size - 8) unused % 2 ^ 32 := by
    rw [rewrites₄.words _ (by omega), header₃]
  generalize ptrDiff _ _ = entry
  have bucket := Rewrites.set rewrites₄.ready
    (by omega : 4 * getRank (block.size - 8) % 4 = 0) (by omega) entry
  rw [← buck_at rewrites₄.ready small] at bucket
  refine Returns.bind bucket fun state₅ rewrites₅ => ?_
  have header₅ : unzipStat (words state₅ (block.off + 8 - 8)) = unused := by
    rw [rewrites₅.words _ (by omega), header₄, tagStat]
  have checked := assertStat_at rewrites₅.ready (by omega : (block.off + 8) % 8 = 0) (by omega)
    (by omega) header₅
  rw [← rewrites₄.heap, ← rewrites₅.heap, checked]
  exact .ok ⟨rewrites₅.ready, rfl⟩

/-- `place` with a truncated size. -/
theorem Represents.place_truncated
    (represents : Represents state ⟨front ++ block :: back, bins, top⟩ none)
    (unlisted : Unlisted bins block.off) (vacant : block.used = false) (short : size < 16)
    (multiple : size % 8 = 0) :
    Returns (Malloc.place state (state.heap + block.off) size true) fun state' =>
      Ready state' ∧ state'.heap = state.heap ∧
        unzipStat (words state' (block.off - 8)) = used := by
  have limit := maxHeap_eq
  have member : block ∈ front ++ block :: back := by simp
  have bounds := represents.framed.laid.bounds member
  have readSize := represents.framed.size member (by simp)
  have remnant : u32 ((block.size : Int) - size) = block.size - size := by
    unfold u32
    omega
  unfold Malloc.place
  rw [readSize, ok_bind]
  simp only [if_true, pure_eq_ok, ok_bind, remnant, metaSize_eq]
  split
  case isTrue large =>
    have cut : Returns (Malloc.split state (state.heap + block.off) size) fun state' =>
        Ready state' ∧ state'.heap = state.heap := by
      have cases : size = 0 ∨ size = 8 := by omega
      cases cases with
      | inl none => exact none ▸ represents.split_nothing unlisted vacant
      | inr eight =>
          subst eight
          exact represents.split_eight unlisted (by omega)
    refine Returns.bind cut fun state₁ ⟨ready₁, heap₁⟩ => ?_
    obtain ⟨tagSize, tagStat⟩ := truncated_tag multiple (by decide : used < 8)
    rw [u32_of_lt (by omega)] at tagSize
    have tagged := setTags_at ready₁ bounds.2.1 (by omega) tagSize (by omega)
    rw [← heap₁]
    exact tagged.mono fun state₂ ⟨rewrites, header⟩ =>
      ⟨rewrites.ready, rewrites.heap, by rw [header, tagStat]⟩
  case isFalse tight =>
    refine (represents.mark true (by simp)).mono fun state₁ yields => ?_
    have tagged := yields.represents.framed.statAt_eq
      (List.mem_append_right front List.mem_cons_self) (by simp)
    exact ⟨yields.represents.framed.ready, yields.heap, tagged⟩

/-- `malloc` of a truncated request returns, unless `mem_sbrk` refuses. -/
theorem Represents.malloc_truncated (represents : Represents state layout none)
    (valid : layout.Valid least) (positive : 0 < least) {bytes : Nat} (nonzero : bytes ≠ 0)
    (short : blockSize bytes < 16) (granted : layout.malloc (blockSize bytes) ≠ none) :
    Returns (Malloc.malloc state bytes) fun _ => True := by
  have multiple := blockSize_aligned bytes
  have aligned : align (u64 (bytes + metaSize)) % 8 = 0 := by
    unfold align
    omega
  obtain ⟨last, search, inList⟩ := represents.fitLoop (blockSize bytes)
    (getRank_lt (blockSize bytes)) (by omega : 3 ≤ getRank (blockSize bytes) + 3)
  change Malloc.fitLoop state (blockSize bytes) rankNum (getRank (blockSize bytes)) =
    .ok (((layout.fit (blockSize bytes)).map (state.heap + ·)).getD null, last) at search
  change ∀ off ∈ layout.fit (blockSize bytes), off ∈ layout.bins last at inList
  unfold Malloc.malloc
  rw [if_neg nonzero]
  change Returns (Malloc.fitLoop state (blockSize bytes) rankNum (getRank (blockSize bytes)) >>= _) _
  rw [search, ok_bind]
  dsimp only
  cases found : layout.fit (blockSize bytes) with
  | none =>
      rw [Option.map_none, Option.getD_none, if_pos rfl]
      unfold Layout.malloc at granted
      simp only [found] at granted
      split at granted
      case isFalse => exact absurd rfl granted
      case isTrue room => exact represents.mallocExtend_truncated aligned room
  | some place =>
      obtain ⟨block, member, vacant, rfl, fits, isRank⟩ :=
        valid.found positive found (inList place found)
      obtain ⟨front, back, whole, located⟩ := valid.splitAt positive member
      have notNull : state.heap + block.off ≠ null := represents.framed.ready.toMapped.ne_null
      rw [Option.map_some, Option.getD_some, if_neg notNull]
      have listed := inList block.off found
      rw [← isRank] at listed ⊢
      obtain ⟨blocks, bins, top⟩ := layout
      simp only at whole
      subst whole
      have bounds := represents.framed.laid.bounds member
      refine Returns.bind (represents.listRemove listed) fun state₁ yields₁ => ?_
      rw [← yields₁.heap]
      refine Returns.bind (yields₁.represents.place_truncated (represents.unlisted_remove listed)
        vacant short multiple) fun state₂ ⟨ready, heap, tagged⟩ => ?_
      have checked := assertStat_at ready bounds.2.1 (by omega) (by omega) tagged
      rw [← heap, checked]
      exact .ok trivial

end OsPractices.Malloc
