import OsPractices.Malloc.Payload

/-!
# realloc and calloc

`realloc` keeps the block, lets it grow into a free block behind it, or moves
its bytes to a new block; `calloc` clears a new block. Both compute the
operations of the layout.
-/

set_option autoImplicit false

namespace OsPractices.Malloc

open Library
open Library.Memory (CopyDirection)

variable {state : State} {layout next : Layout} {front back : List Block} {block succ : Block}
  {bins : Bins} {top size least : Nat}

/-! ## In place -/

/-- The branch of `realloc` that takes in the free block behind. -/
theorem Represents.growInPlace
    (represents : Represents state ⟨front ++ block :: succ :: back, bins, top⟩ none)
    (unlisted : Unlisted bins block.off) (listed : succ.off ∈ bins (getRank succ.size))
    (enough : 16 ≤ size) (multiple : size % 8 = 0) (grows : block.size < size)
    (fits : size ≤ block.size + succ.size) :
    Returns (do
        let state' ← Malloc.listRemove state (state.heap + succ.off) (getRank succ.size)
        let state' ← Malloc.coalesce state' (state.heap + block.off) (state.heap + succ.off) false
        Malloc.place state' (state.heap + block.off) size false)
      (Yields (front ++ block :: back) state
        (Layout.placeBetween front (block.join succ) back (bins.remove succ) top size) none) := by
  have laid := represents.framed.laid
  have stays : Unlisted (bins.remove succ) block.off := fun rank small inList =>
    unlisted rank small (bins.mem_of_mem_remove inList)
  have fewer : Covers (front ++ block :: succ :: back) (front ++ block :: back) := by
    apply Covers.of_subset
    intro other member
    exact mem_behind succ member
  have grown : Covers
      (front ++ ⟨block.off, (block.join succ).placedSize size, true⟩ :: back)
      (front ++ block :: back) := by
    have longer : size ≤ (block.join succ).placedSize size := placedSize_ge fits
    have shrink : Covers
        (front ++ ⟨block.off, (block.join succ).placedSize size, true⟩ :: back)
        (front ++ ⟨block.off, block.size, block.used⟩ :: back) :=
      Covers.shrink (by simp only; omega)
    exact shrink
  refine Returns.bind (represents.listRemove listed) fun state₁ yields₁ => ?_
  rw [← yields₁.heap]
  have merged := yields₁.represents.coalesce_unlisted stays (represents.unlisted_remove listed)
  refine Returns.bind merged fun state₂ yields₂ => ?_
  rw [← yields₂.heap]
  have inList : (block.join succ).off ∈
      ((bins.remove succ).push (block.join succ)) (getRank (block.join succ).size) := by
    simp [Bins.push]
  have placed := yields₂.represents.place inList enough multiple fits
  rw [Bins.Lists.remove_push] at placed
  refine Returns.mono placed fun state₃ yields₃ => ?_
  exact ((yields₁.cover fewer).trans (yields₂.cover .join)).trans (yields₃.cover grown)

/-! ## To a new block -/

/-- A block that `malloc` has just given, and a byte of a block from before. -/
theorem Gains.apart {old : List Block} {gained other : Block} (gains : Gains old layout.blocks gained)
    (laid : Laid least layout.blocks layout.top) (live : other ∈ liveOf old) :
    other.off + other.size ≤ gained.off ∨ gained.off + gained.size ≤ other.off := by
  have gainedLive : gained ∈ liveOf layout.blocks := gains.live ▸ Set.mem_insert _ _
  have otherLive : other ∈ liveOf layout.blocks := gains.live ▸ Set.mem_insert_of_mem _ live
  rcases laid.before_or_behind otherLive.1 gainedLive.1 with same | before | behind
  · exact absurd (congrArg Block.off same) (gains.fresh other live)
  · exact .inl before
  · exact .inr behind

/-- `memcpy` into a block that `malloc` has just given. -/
theorem Represents.memcpy {blocks : List Block} {gained : Block} {direction : CopyDirection}
    {source length : Nat} (represents : Represents state layout none)
    (gains : Gains blocks layout.blocks gained) (inside : length + 16 ≤ gained.size) :
    Returns (Malloc.memcpy direction state (state.heap + gained.off) source length) fun state' =>
      Yields (held blocks) state layout none state' ∧
        ∀ index < length, source + index < state.heap + gained.off ∨
          state.heap + gained.off + length ≤ source + index →
          state'.mem (state.heap + (gained.off + index)) = state.mem (source + index) := by
  have laid := represents.framed.laid
  have gainedLive : gained ∈ liveOf layout.blocks := gains.live ▸ Set.mem_insert _ _
  have bounds := laid.bounds gainedLive.1
  have contains : state.Contains (state.heap + gained.off) length := ⟨by omega, by omega⟩
  refine ⟨_, if_pos (.inr contains), ⟨represents.withMem ?_, rfl, ?_⟩, ?_⟩
  · intro byte outside
    apply Memory.copy_of_outside
    by_contra written
    exact outside gained gainedLive.1 ⟨by omega, by omega⟩
  · intro other member byte owns
    have apart := gains.apart laid (mem_held.mp member)
    have := owns.1
    have := owns.2
    exact Memory.copy_of_outside (by omega)
  · intro index below stays
    rw [← Nat.add_assoc]
    exact Memory.copy_of_inside below stays

/-- What a call that resizes the block leaves: the pointer, the new layout, and
the bytes that the old and the new block have in common. -/
structure Resized (state : State) (blocks : List Block) (block : Block) (bytes : Nat)
    (ret : Option Nat) (next : Layout) (result : Nat × State) : Prop where
  ptr : result.1 = (ret.map (state.heap + ·)).getD null
  yields : Yields (heldBut block.off blocks) state next none result.2
  data : ∀ new ∈ ret, ∀ index, index + 16 < block.size → index < bytes →
    result.2.mem (state.heap + (new + index)) = state.mem (state.heap + (block.off + index))

/-- The branch of `realloc` that moves the block. -/
theorem Represents.move (represents : Represents state layout none) (valid : layout.Valid least)
    (positive : 0 < least) (small : least ≤ 24) (live : block ∈ liveOf layout.blocks)
    {bytes : Nat} {ret : Option Nat} (result : layout.reallocMove block.off bytes = some (ret, next))
    (direction : CopyDirection) :
    Returns (Malloc.reallocMove direction state (state.heap + block.off) bytes)
      (Resized state layout.blocks block bytes ret next) := by
  have limit := maxHeap_eq
  unfold Layout.reallocMove at result
  unfold Malloc.reallocMove
  cases Nat.decEq bytes 0 with
  | isTrue zero =>
      subst zero
      cases result
      have unmoved : Malloc.memcpy direction state null (state.heap + block.off) 0 = .ok state := by
        unfold Malloc.memcpy
        rw [if_pos (.inl rfl)]
        cases direction with
        | ascending => rfl
        | descending => rfl
      have nothing : Malloc.malloc state 0 = .ok (null, state) := if_pos rfl
      rw [nothing, ok_bind]
      dsimp only
      rw [unmoved, ok_bind]
      refine Returns.bind (represents.free valid positive live) fun state₁ yields => ?_
      exact .ok ⟨rfl, yields, nofun⟩
  | isFalse nonzero =>
      rw [if_neg nonzero] at result
      cases allocated : layout.malloc (blockSize bytes) with
      | none => simp [allocated] at result
      | some pair =>
          obtain ⟨new, grown⟩ := pair
          simp only [allocated] at result
          split at result
          case isFalse => cases result
          case isTrue room =>
            cases result
            have whole : bytes + 24 ≤ 2 ^ 32 := by omega
            have large : 24 ≤ blockSize bytes := by
              rw [blockSize_eq whole]
              omega
            have fits := blockSize_ge whole
            obtain ⟨valid', gained, rfl, longer, gains⟩ :=
              valid.malloc positive small (by omega) (blockSize_aligned bytes) allocated
            have live' : block ∈ liveOf grown.blocks := gains.live ▸ Set.mem_insert_of_mem _ live
            have gainedLive : gained ∈ liveOf grown.blocks := gains.live ▸ Set.mem_insert _ _
            refine Returns.bind (represents.malloc valid positive nonzero (by omega) allocated)
              fun ⟨ptr, state₁⟩ ⟨place, yields₁⟩ => ?_
            dsimp only at place yields₁ ⊢
            rw [place, ← yields₁.heap]
            refine Returns.bind (yields₁.represents.memcpy gains (by omega))
              fun state₂ ⟨yields₂, copied⟩ => ?_
            rw [← yields₂.heap]
            refine Returns.bind (yields₂.represents.free valid' positive live')
              fun state₃ yields₃ => ?_
            have heap₁ := yields₁.heap
            have heap₂ := yields₂.heap
            have kept : heldBut block.off layout.blocks ⊆ held layout.blocks :=
              fun _ inside => List.mem_of_mem_filter inside
            have kept' : heldBut block.off layout.blocks ⊆ heldBut block.off grown.blocks := by
              intro other inside
              obtain ⟨old, apart⟩ := mem_heldBut.mp inside
              exact mem_heldBut.mpr ⟨gains.live ▸ Set.mem_insert_of_mem _ old, apart⟩
            refine .ok ⟨?_, ?_, ?_⟩
            · rw [Option.map_some, Option.getD_some, heap₂, heap₁]
            · exact ((yields₁.cover (.of_subset kept)).trans (yields₂.cover (.of_subset kept))).trans
                (yields₃.cover (.of_subset kept'))
            · rintro _ ⟨⟩ index inOld inNew
              have apart := gains.apart valid'.laid live
              have old := yields₁.keeps block (mem_held.mpr live) (block.off + index)
                ⟨by omega, by omega⟩
              have moved := copied index inNew (by omega)
              have kept := yields₃.keeps gained
                (mem_heldBut.mpr ⟨gainedLive, (gains.fresh block live).symm⟩) (gained.off + index)
                ⟨by omega, by omega⟩
              rw [heap₂] at kept
              rw [← heap₁, kept, moved, Nat.add_assoc, heap₁, old]

/-- The client's block is in no free list. -/
theorem Layout.Valid.unlisted (valid : layout.Valid least) (positive : 0 < least)
    (live : block ∈ liveOf layout.blocks) : Unlisted layout.bins block.off := by
  intro rank _ inList
  obtain ⟨other, ⟨inside, vacant⟩, same, _⟩ := (valid.lists.mem_iff rank _).mp inList
  rw [valid.laid.eq_of_off_eq positive inside live.1 same, live.2] at vacant
  cases vacant

/-- The size that `realloc` compares with, and whether it takes in the block
behind. -/
def grownSize (bytes : Nat) : Nat := align (u64 (bytes + metaSize))

def TakesNext (block : Block) (back : List Block) (bytes : Nat) : Prop :=
  ∃ succ ∈ back.head?, succ.used = false ∧ grownSize bytes ≤ block.size + succ.size

theorem grownSize_aligned (bytes : Nat) : grownSize bytes % 8 = 0 := by
  unfold grownSize align
  omega

section Branches

variable (represents : Represents state ⟨front ++ block :: back, bins, top⟩ none) {bytes : Nat}
  (direction : CopyDirection)

include represents

/-- `realloc` keeps a block that is large enough. -/
theorem Represents.realloc_keeps (nonzero : bytes ≠ 0) (fits : grownSize bytes ≤ block.size) :
    Malloc.realloc direction state (state.heap + block.off) bytes =
      .ok (state.heap + block.off, state) := by
  have notNull : state.heap + block.off ≠ null := represents.framed.ready.toMapped.ne_null
  have readSize := represents.framed.size (List.mem_append_right front List.mem_cons_self) (by simp)
  unfold Malloc.realloc
  rw [if_neg nonzero, if_neg notNull, readSize, ok_bind]
  exact if_pos fits

/-- Where the block behind does not help, `realloc` moves the block. -/
theorem Represents.realloc_moves (nonzero : bytes ≠ 0) (grows : ¬ grownSize bytes ≤ block.size)
    (alone : ¬ TakesNext block back bytes) :
    Malloc.realloc direction state (state.heap + block.off) bytes =
      Malloc.reallocMove direction state (state.heap + block.off) (u32 bytes) := by
  have limit := maxHeap_eq
  have member : block ∈ front ++ block :: back := List.mem_append_right front List.mem_cons_self
  have notNull : state.heap + block.off ≠ null := represents.framed.ready.toMapped.ne_null
  have readSize := represents.framed.size member (by simp)
  have readNext := represents.framed.heapNext member (by simp)
  have behind := represents.framed.stat_after
  have bounds := represents.framed.laid.bounds member
  unfold Malloc.realloc
  rw [if_neg nonzero, if_neg notNull, readSize, ok_bind]
  change (if grownSize bytes ≤ block.size then _ else _) = _
  rw [if_neg grows, readNext, ok_bind, behind, ok_bind]
  cases back with
  | nil => exact if_neg (by decide)
  | cons succ rest =>
      rw [List.head?_cons, Option.map_some, Option.getD_some]
      have touches : succ.off = block.off + block.size :=
        represents.framed.laid.tiled.split.2.1
      have succIn : succ ∈ front ++ block :: succ :: rest := by simp
      have readSucc := represents.framed.size succIn (by simp)
      have succBounds := represents.framed.laid.bounds succIn
      have sum : u32 ((block.size : Int) + succ.size) = block.size + succ.size := by
        unfold u32
        omega
      rw [touches] at readSucc
      cases used : succ.used with
      | true => exact if_neg (by simp [status_eq_unused, used])
      | false =>
          have large : ¬ grownSize bytes ≤ block.size + succ.size := fun fits =>
            alone ⟨succ, rfl, used, fits⟩
          rw [if_pos (status_eq_unused.mpr used), readSucc, ok_bind, sum]
          exact if_neg large

end Branches

/-- Where the block behind is free and large enough, `realloc` takes it in. -/
theorem Represents.realloc_grows {rest : List Block} {bytes : Nat}
    (represents : Represents state ⟨front ++ block :: succ :: rest, bins, top⟩ none)
    (direction : CopyDirection) (nonzero : bytes ≠ 0) (grows : ¬ grownSize bytes ≤ block.size)
    (unlisted : Unlisted bins block.off) (listed : succ.off ∈ bins (getRank succ.size))
    (used : succ.used = false) (fits : grownSize bytes ≤ block.size + succ.size) :
    Returns (Malloc.realloc direction state (state.heap + block.off) bytes) fun result =>
      result.1 = state.heap + block.off ∧ Yields (front ++ block :: rest) state
        (Layout.placeBetween front (block.join succ) rest (bins.remove succ) top (grownSize bytes))
        none result.2 := by
  have limit := maxHeap_eq
  have member : block ∈ front ++ block :: succ :: rest := by simp
  have succIn : succ ∈ front ++ block :: succ :: rest := by simp
  have notNull : state.heap + block.off ≠ null := represents.framed.ready.toMapped.ne_null
  have readSize := represents.framed.size member (by simp)
  have readNext := represents.framed.heapNext member (by simp)
  have readStat := represents.framed.stat succIn (by simp)
  have readSucc := represents.framed.size succIn (by simp)
  have bounds := represents.framed.laid.bounds member
  have succBounds := represents.framed.laid.bounds succIn
  have touches : succ.off = block.off + block.size := represents.framed.laid.tiled.split.2.1
  have sum : u32 ((block.size : Int) + succ.size) = block.size + succ.size := by
    unfold u32
    omega
  have whole : u32 (grownSize bytes) = grownSize bytes := u32_of_lt (by omega)
  have grown := represents.growInPlace unlisted listed (by omega) (grownSize_aligned bytes)
    (Nat.lt_of_not_le grows) fits
  obtain ⟨state₁, run, yields⟩ := grown
  rw [touches] at readSucc readStat run
  refine ⟨(state.heap + block.off, state₁), ?_, rfl, yields⟩
  unfold Malloc.realloc
  rw [if_neg nonzero, if_neg notNull, readSize, ok_bind]
  change (if grownSize bytes ≤ block.size then _ else _) = _
  rw [if_neg grows, readNext, ok_bind, readStat, ok_bind, if_pos (status_eq_unused.mpr used),
    readSucc, ok_bind, sum]
  change (if grownSize bytes ≤ block.size + succ.size then
    (Malloc.listRemove state (state.heap + (block.off + block.size)) (getRank succ.size) >>=
      fun state => Malloc.coalesce state _ _ false >>=
        fun state => Malloc.place state _ (u32 (grownSize bytes)) false >>= _) else _) = _
  rw [if_pos fits, whole]
  have all := congrArg
    (fun run => run >>= fun last => Except.ok (state.heap + block.off, last)) run
  simp only [bind_assoc, ok_bind] at all
  exact all

/-- `realloc` of a live block to a size that is not zero. -/
theorem Represents.realloc (represents : Represents state layout none)
    (valid : layout.Valid least) (positive : 0 < least) (small : least ≤ 24)
    (live : block ∈ liveOf layout.blocks) {bytes : Nat} (nonzero : bytes ≠ 0) {ret : Option Nat}
    (result : layout.realloc block.off bytes = some (ret, next)) (direction : CopyDirection) :
    Returns (Malloc.realloc direction state (state.heap + block.off) bytes)
      (Resized state layout.blocks block (u32 bytes) ret next) := by
  obtain ⟨front, back, whole, located⟩ := valid.splitAt positive live.1
  have unlisted := valid.unlisted positive live
  have moved : layout.reallocMove block.off (u32 bytes) = some (ret, next) →
      Returns (Malloc.reallocMove direction state (state.heap + block.off) (u32 bytes))
        (Resized state layout.blocks block (u32 bytes) ret next) := fun result =>
    represents.move valid positive small live result direction
  obtain ⟨blocks, bins, top⟩ := layout
  simp only at whole
  subst whole
  unfold Layout.realloc at result
  simp only [located] at result
  split at result
  case isTrue fits =>
    cases result
    rw [represents.realloc_keeps direction nonzero fits]
    refine .ok ⟨rfl, .refl represents, ?_⟩
    rintro _ ⟨⟩ index _ _
    rfl
  case isFalse grows =>
    cases back with
    | nil =>
        rw [represents.realloc_moves direction nonzero grows (by simp [TakesNext])]
        exact moved result
    | cons succ rest =>
        simp only at result
        split at result
        case isFalse alone =>
          have apart : ¬ TakesNext block (succ :: rest) bytes := by
            rintro ⟨_, ⟨⟩, both⟩
            exact alone both
          rw [represents.realloc_moves direction nonzero grows apart]
          exact moved result
        case isTrue both =>
          obtain ⟨used, fits⟩ := both
          cases result
          have succIn : succ ∈ front ++ block :: succ :: rest := by simp
          refine Returns.mono (represents.realloc_grows direction nonzero grows unlisted
            (valid.lists.mem ⟨succIn, used⟩) used fits) fun result ⟨ptr, yields⟩ => ⟨ptr, ?_, ?_⟩
          · apply yields.cover
            apply Covers.of_subset
            intro other inside
            obtain ⟨⟨inside, busy⟩, _⟩ := mem_heldBut.mp inside
            simp only [List.mem_append, List.mem_cons] at inside ⊢
            rcases inside with inFront | isBlock | isSucc | inRest
            · exact .inl inFront
            · exact .inr (.inl isBlock)
            · rw [isSucc, used] at busy
              cases busy
            · exact .inr (.inr inRest)
          · rintro _ ⟨⟩ index inOld _
            exact yields.keeps block (by simp) (block.off + index) ⟨by omega, by omega⟩

/-! ## calloc -/

/-- `calloc` of no bytes, or of a new block with room for them. -/
theorem Layout.calloc_cases {bytes : Nat} {ret : Option Nat}
    (result : layout.calloc bytes = some (ret, next)) :
    bytes = 0 ∧ ret = none ∧ next = layout ∨
      bytes ≠ 0 ∧ bytes + 24 ≤ 2 ^ 32 ∧ ∃ new, ret = some new ∧
        layout.malloc (blockSize bytes) = some (new, next) := by
  have limit := maxHeap_eq
  unfold Layout.calloc at result
  split at result
  case isTrue zero =>
    cases result
    exact .inl ⟨zero, rfl, rfl⟩
  case isFalse nonzero =>
    split at result
    case h_1 => cases result
    case h_2 new grown allocated =>
      split at result
      case isFalse => cases result
      case isTrue room =>
        cases result
        exact .inr ⟨nonzero, by omega, new, rfl, allocated⟩

theorem Represents.calloc (represents : Represents state layout none) (valid : layout.Valid least)
    (positive : 0 < least) (small : least ≤ 24) {nmemb count : Nat} {ret : Option Nat}
    (result : layout.calloc (u64 (nmemb * count)) = some (ret, next)) :
    Returns (Malloc.calloc state nmemb count) fun (ptr, state') =>
      ptr = (ret.map (state.heap + ·)).getD null ∧
        Yields (held layout.blocks) state next none state' := by
  unfold Malloc.calloc
  generalize u64 ((nmemb : Int) * count) = bytes at result
  dsimp only
  rcases Layout.calloc_cases result with ⟨rfl, rfl, rfl⟩ | ⟨nonzero, whole, new, rfl, allocated⟩
  · have nothing : Malloc.malloc state 0 = .ok (null, state) := if_pos rfl
    have unwritten : memset state null 0 0 = .ok state := by
      unfold memset
      rw [if_pos (.inl rfl)]
      have same : state.mem.fill null 0 0 = state.mem := by
        funext address
        exact Memory.fill_of_outside (by omega)
      rw [same]
    rw [nothing, ok_bind]
    dsimp only
    rw [unwritten, ok_bind]
    exact .ok ⟨rfl, .refl represents⟩
  · have large : 24 ≤ blockSize bytes := by
      rw [blockSize_eq whole]
      omega
    have fits := blockSize_ge whole
    obtain ⟨valid', gained, rfl, longer, gains⟩ :=
      valid.malloc positive small (by omega) (blockSize_aligned bytes) allocated
    refine Returns.bind (represents.malloc valid positive nonzero (by omega) allocated)
      fun ⟨ptr, state₁⟩ ⟨place, yields₁⟩ => ?_
    dsimp only at place yields₁ ⊢
    rw [place, ← yields₁.heap]
    have laid := yields₁.represents.framed.laid
    have gainedLive : gained ∈ liveOf next.blocks := gains.live ▸ Set.mem_insert _ _
    have bounds := laid.bounds gainedLive.1
    have contains : state₁.Contains (state₁.heap + gained.off) bytes := ⟨by omega, by omega⟩
    have cleared : memset state₁ (state₁.heap + gained.off) 0 bytes = .ok _ :=
      if_pos (.inr contains)
    rw [cleared, ok_bind]
    refine .ok ⟨?_, ⟨yields₁.represents.withMem ?_, yields₁.heap, ?_⟩⟩
    · rw [Option.map_some, Option.getD_some, yields₁.heap]
    · intro byte outside
      apply Memory.fill_of_outside
      by_contra written
      exact outside gained gainedLive.1 ⟨by omega, by omega⟩
    · intro other member byte owns
      have apart := gains.apart laid (mem_held.mp member)
      have kept := yields₁.keeps other member byte owns
      have := owns.1
      have := owns.2
      have heap₁ := yields₁.heap
      exact (Memory.fill_of_outside (by omega)).trans kept

end OsPractices.Malloc
