import OsPractices.Malloc.Walks

/-!
# Where memory runs out

`mem_sbrk` reports failure with `(void *)-1`, but its callers test for a null
pointer: they write a tag in front of that address. So each operation faults
exactly where the layout's operation is undefined.
-/

set_option autoImplicit false

namespace OsPractices.Malloc

open Library
open Library.Memory (CopyDirection)

variable {state : State} {layout : Layout} {block : Block} {bytes size least : Nat}

theorem setTags_failed (mapped : Mapped state) (size status : Nat) :
    setTags state sbrkFailed size status = .error .segv := by
  have limit := maxHeap_eq
  have below := mapped.below
  have header : hdrPtr sbrkFailed = 2 ^ 64 - 9 := by decide
  have outside : ¬ state.Contains (2 ^ 64 - 9) wordSize := by
    rintro ⟨_, high⟩
    unfold wordSize at high
    omega
  unfold setTags State.set
  rw [header, if_neg outside]
  rfl

theorem memSbrk_refused (mapped : Mapped state) {top : Nat} (brk : state.memBrk = state.heap + top)
    (small : size < 2 ^ 32) (full : maxHeap < top + size) :
    memSbrk state (offsetT size) = (sbrkFailed, state) := by
  have limit := maxHeap_eq
  have refused : offsetT size < 0 ∨
      (state.memMaxAddr : Int) < state.memBrk + offsetT size := by
    rw [mapped.maxAddr, brk]
    cases Nat.decLt size (2 ^ 31) with
    | isTrue low =>
        rw [offsetT_of_small (by omega) (by omega)]
        omega
    | isFalse high =>
        left
        unfold offsetT
        rw [Int.bmod_def]
        split
        · omega
        · omega
  rw [memSbrk, if_pos refused]

/-- The branch of `malloc` that lets the heap grow, where it cannot. -/
theorem Represents.mallocExtend_refused (represents : Represents state layout none)
    (full : maxHeap < layout.top + u32 bytes) :
    Malloc.mallocExtend state bytes = .error .segv := by
  have mapped := represents.framed.ready.toMapped
  have low := represents.framed.laid.tiled.start_le_stop
  have bound := represents.framed.laid.bounded
  have small : u32 bytes < 2 ^ 32 := by
    unfold u32
    omega
  have refused := memSbrk_refused mapped represents.framed.brk small full
  have notNull : sbrkFailed ≠ null := by decide
  have header := hdrPtr_at mapped (by omega : 8 ≤ layout.top) bound
  have stored : state.set (state.heap + (layout.top - 8)) (zip 0 border) =
      .ok (state.put (layout.top - 8) (zip 0 border)) := set_at (by omega) _
  have extended : extend state (u32 bytes) =
      .ok (sbrkFailed, state.put (layout.top - 8) (zip 0 border)) := by
    rw [extend_of_sbrk refused notNull, represents.epiBdrPtr, header, stored]
    rfl
  have mapped' : Mapped (state.put (layout.top - 8) (zip 0 border)) :=
    mapped.of_same rfl rfl
  unfold Malloc.mallocExtend
  rw [extended, ok_bind]
  dsimp only
  rw [if_neg notNull, setTags_failed mapped']
  rfl

/-- A request for more bytes than the heap can have: the copy or the clearing
that follows leaves the mapped region. -/
theorem not_contains (state : State) (ptr : Nat) (huge : maxHeap < bytes) :
    ¬ (bytes = 0 ∨ state.Contains ptr bytes) := by
  rintro (rfl | ⟨_, _⟩)
  · exact absurd huge (Nat.not_lt_zero _)
  · omega

/-- A block that `malloc` gives has room in the heap for the request. -/
theorem Layout.Valid.room (valid : layout.Valid least) (positive : 0 < least) (small : least ≤ 24)
    (nonzero : bytes ≠ 0) (whole : bytes + 24 ≤ 2 ^ 32) {new : Nat} {next : Layout}
    (result : layout.malloc (blockSize bytes) = some (new, next)) : new + bytes ≤ maxHeap := by
  have large : 24 ≤ blockSize bytes := by
    rw [blockSize_eq whole]
    omega
  have covers := blockSize_ge whole
  obtain ⟨valid', gained, rfl, longer, gains⟩ :=
    valid.malloc positive small (by omega) (blockSize_aligned bytes) result
  have gainedLive : gained ∈ liveOf next.blocks := gains.live ▸ Set.mem_insert _ _
  have bounds := valid'.laid.bounds gainedLive.1
  omega

theorem Layout.Valid.malloc_none (valid : layout.Valid least) (positive : 0 < least) :
    layout.malloc size = none ↔ layout.fit size = none ∧ maxHeap < layout.top + size := by
  unfold Layout.malloc
  cases found : layout.fit size with
  | some off =>
      obtain ⟨block, member, _, rfl, _⟩ := valid.fit_some positive found
      obtain ⟨front, back, _, located⟩ := valid.splitAt positive member
      simp [located]
  | none => simp

theorem Represents.malloc_refused (represents : Represents state layout none)
    (valid : layout.Valid least) (positive : 0 < least) (nonzero : bytes ≠ 0)
    (result : layout.malloc (blockSize bytes) = none) :
    Malloc.malloc state bytes = .error .segv := by
  obtain ⟨noFit, full⟩ := (valid.malloc_none positive).mp result
  obtain ⟨last, search, _⟩ := represents.fitLoop (blockSize bytes)
    (getRank_lt (blockSize bytes)) (by omega : 3 ≤ getRank (blockSize bytes) + 3)
  change Malloc.fitLoop state (blockSize bytes) rankNum (getRank (blockSize bytes)) =
    .ok (((layout.fit (blockSize bytes)).map (state.heap + ·)).getD null, last) at search
  rw [noFit, Option.map_none, Option.getD_none] at search
  unfold Malloc.malloc
  rw [if_neg nonzero]
  change (Malloc.fitLoop state (blockSize bytes) rankNum (getRank (blockSize bytes)) >>= _) = _
  rw [search, ok_bind]
  exact represents.mallocExtend_refused full

theorem Layout.Valid.reallocMove_none (valid : layout.Valid least) (positive : 0 < least)
    (small : least ≤ 24) (whole : bytes + 24 ≤ 2 ^ 32) {off : Nat}
    (result : layout.reallocMove off bytes = none) : layout.malloc (blockSize bytes) = none := by
  unfold Layout.reallocMove at result
  split at result
  case isTrue => cases result
  case isFalse nonzero =>
    cases allocated : layout.malloc (blockSize bytes) with
    | none => rfl
    | some given =>
        simp only [allocated, if_pos (valid.room positive small nonzero whole allocated)] at result
        cases result

theorem Layout.Valid.calloc_none (valid : layout.Valid least) (positive : 0 < least)
    (small : least ≤ 24) (whole : bytes + 24 ≤ 2 ^ 32) (result : layout.calloc bytes = none) :
    layout.malloc (blockSize bytes) = none := by
  unfold Layout.calloc at result
  split at result
  case isTrue => cases result
  case isFalse nonzero =>
    cases allocated : layout.malloc (blockSize bytes) with
    | none => rfl
    | some given =>
        simp only [allocated, if_pos (valid.room positive small nonzero whole allocated)] at result
        cases result

/-- `realloc` is undefined only where moving the block is. -/
theorem Layout.Valid.realloc_none (valid : layout.Valid least) (positive : 0 < least)
    (live : block ∈ liveOf layout.blocks) (result : layout.realloc block.off bytes = none) :
    layout.reallocMove block.off (u32 bytes) = none := by
  obtain ⟨front, back, _, located⟩ := valid.splitAt positive live.1
  simp only [Layout.realloc, located] at result
  split at result
  case isTrue => cases result
  case isFalse =>
    split at result
    case h_1 => exact result
    case h_2 =>
      split at result
      case isTrue => cases result
      case isFalse => exact result

theorem Represents.move_refused (represents : Represents state layout none)
    (valid : layout.Valid least) (positive : 0 < least) (small : least ≤ 24)
    (result : layout.reallocMove block.off bytes = none) (direction : CopyDirection) (ptr : Nat) :
    ∃ fault, Malloc.reallocMove direction state ptr bytes = .error fault := by
  have nonzero : bytes ≠ 0 := by
    rintro rfl
    cases result
  unfold Malloc.reallocMove
  cases Nat.decLt maxHeap bytes with
  | isTrue huge =>
      cases Malloc.malloc state bytes with
      | error fault => exact ⟨fault, rfl⟩
      | ok given =>
          refine ⟨.segv, ?_⟩
          rw [ok_bind]
          dsimp only
          rw [Malloc.memcpy, if_neg (not_contains given.2 given.1 huge)]
          rfl
  | isFalse fits =>
      have limit := maxHeap_eq
      have full := valid.reallocMove_none positive small (by omega) result
      rw [represents.malloc_refused valid positive nonzero full]
      exact ⟨.segv, rfl⟩

theorem Represents.calloc_refused (represents : Represents state layout none)
    (valid : layout.Valid least) (positive : 0 < least) (small : least ≤ 24) {nmemb count : Nat}
    (result : layout.calloc (u64 (nmemb * count)) = none) :
    ∃ fault, Malloc.calloc state nmemb count = .error fault := by
  unfold Malloc.calloc
  generalize u64 ((nmemb : Int) * count) = bytes at result
  dsimp only
  have nonzero : bytes ≠ 0 := by
    rintro rfl
    cases result
  cases Nat.decLt maxHeap bytes with
  | isTrue huge =>
      cases Malloc.malloc state bytes with
      | error fault => exact ⟨fault, rfl⟩
      | ok given =>
          refine ⟨.segv, ?_⟩
          rw [ok_bind]
          rw [memset, if_neg (not_contains given.2 given.1 huge)]
          rfl
  | isFalse fits =>
      have limit := maxHeap_eq
      have full := valid.calloc_none positive small (by omega) result
      rw [represents.malloc_refused valid positive nonzero full]
      exact ⟨.segv, rfl⟩

theorem Represents.realloc_refused (represents : Represents state layout none)
    (valid : layout.Valid least) (positive : 0 < least) (small : least ≤ 24)
    (live : block ∈ liveOf layout.blocks) (nonzero : bytes ≠ 0)
    (result : layout.realloc block.off bytes = none) (direction : CopyDirection) :
    ∃ fault, Malloc.realloc direction state (state.heap + block.off) bytes = .error fault := by
  obtain ⟨front, back, whole, located⟩ := valid.splitAt positive live.1
  have moved : layout.reallocMove block.off (u32 bytes) = none →
      ∃ fault, Malloc.reallocMove direction state (state.heap + block.off) (u32 bytes) =
        .error fault := fun result =>
    represents.move_refused valid positive small result direction _
  obtain ⟨blocks, bins, top⟩ := layout
  simp only at whole
  subst whole
  unfold Layout.realloc at result
  simp only [located] at result
  split at result
  case isTrue => cases result
  case isFalse grows =>
    cases back with
    | nil =>
        rw [represents.realloc_moves direction nonzero grows (by simp [TakesNext])]
        exact moved result
    | cons succ rest =>
        simp only at result
        split at result
        case isTrue => cases result
        case isFalse alone =>
          have apart : ¬ TakesNext block (succ :: rest) bytes := by
            rintro ⟨_, ⟨⟩, both⟩
            exact alone both
          rw [represents.realloc_moves direction nonzero grows apart]
          exact moved result

end OsPractices.Malloc
