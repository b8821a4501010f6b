import OsPractices.Malloc.Region
import OsPractices.Malloc.Safety

/-!
# Requests

Which requests get a block with room for them, and what happens to a request
where memory runs out.
-/

set_option autoImplicit false

namespace OsPractices.Malloc

open Library
open Library.Memory (CopyDirection)

variable {state : State} {layout : Layout} {front back : List Block} {block : Block} {bins : Bins}
  {least top bytes : Nat} {session : Session} {call : Call}

/-! ## Calls that return a pointer -/

theorem memSbrk_ne_null {next : State} {incr : Int} {ptr : Nat} (brk : state.memBrk ≠ null)
    (result : memSbrk state incr = (ptr, next)) : ptr ≠ null := by
  unfold memSbrk at result
  split at result
  case isTrue =>
    obtain rfl := congrArg Prod.fst result
    exact (by decide : sbrkFailed ≠ null)
  case isFalse =>
    obtain rfl := congrArg Prod.fst result
    exact brk

theorem mallocExtend_ne_null {next : State} {ptr : Nat} (brk : state.memBrk ≠ null)
    (result : Malloc.mallocExtend state bytes = .ok (ptr, next)) : ptr ≠ null := by
  obtain ⟨⟨given, grown⟩, sbrk⟩ : ∃ granted, memSbrk state (offsetT (u32 bytes)) = granted :=
    exists_eq'
  have notNull := memSbrk_ne_null brk sbrk
  unfold Malloc.mallocExtend at result
  rw [extend_of_sbrk sbrk notNull, bind_assoc] at result
  obtain ⟨last, _, result⟩ := bind_eq_ok_iff.mp result
  rw [pure_eq_ok, ok_bind] at result
  dsimp only at result
  rw [if_neg notNull] at result
  obtain ⟨_, _, result⟩ := bind_eq_ok_iff.mp result
  obtain ⟨_, _, result⟩ := bind_eq_ok_iff.mp result
  obtain ⟨_, _, result⟩ := bind_eq_ok_iff.mp result
  obtain rfl := congrArg Prod.fst (Except.ok.inj result)
  exact notNull

/-- `malloc` has no way to report a failure. -/
theorem malloc_ne_null {next : State} {ptr : Nat} (brk : state.memBrk ≠ null) (nonzero : bytes ≠ 0)
    (result : Malloc.malloc state bytes = .ok (ptr, next)) : ptr ≠ null := by
  unfold Malloc.malloc at result
  rw [if_neg nonzero] at result
  obtain ⟨⟨found, rank⟩, _, result⟩ := bind_eq_ok_iff.mp result
  dsimp only at result
  split at result
  case isTrue => exact mallocExtend_ne_null brk result
  case isFalse notNull =>
    obtain ⟨_, _, result⟩ := bind_eq_ok_iff.mp result
    obtain ⟨_, _, result⟩ := bind_eq_ok_iff.mp result
    obtain ⟨_, _, result⟩ := bind_eq_ok_iff.mp result
    obtain rfl := congrArg Prod.fst (Except.ok.inj result)
    exact notNull

theorem reallocMove_ne_null {next : State} {direction : CopyDirection} {oldptr ptr : Nat}
    (brk : state.memBrk ≠ null) (nonzero : bytes ≠ 0)
    (result : Malloc.reallocMove direction state oldptr bytes = .ok (ptr, next)) : ptr ≠ null := by
  obtain ⟨⟨given, allocated⟩, new, result⟩ := bind_eq_ok_iff.mp result
  obtain ⟨_, _, result⟩ := bind_eq_ok_iff.mp result
  obtain ⟨_, _, result⟩ := bind_eq_ok_iff.mp result
  obtain rfl := congrArg Prod.fst (Except.ok.inj result)
  exact malloc_ne_null brk nonzero new

/-- `realloc` hands on what `malloc` answers. -/
theorem realloc_ne_null {next : State} {direction : CopyDirection} {oldptr ptr : Nat}
    (brk : state.memBrk ≠ null) (notNull : oldptr ≠ null) (nonzero : u32 bytes ≠ 0)
    (result : Malloc.realloc direction state oldptr bytes = .ok (ptr, next)) : ptr ≠ null := by
  have bytesNonzero : bytes ≠ 0 := by
    rintro rfl
    exact nonzero rfl
  unfold Malloc.realloc at result
  rw [if_neg bytesNonzero, if_neg notNull] at result
  obtain ⟨_, _, result⟩ := bind_eq_ok_iff.mp result
  dsimp only at result
  split at result
  case isTrue =>
    obtain rfl := congrArg Prod.fst (Except.ok.inj result)
    exact notNull
  case isFalse =>
    obtain ⟨_, _, result⟩ := bind_eq_ok_iff.mp result
    obtain ⟨_, _, result⟩ := bind_eq_ok_iff.mp result
    split at result
    case isFalse => exact reallocMove_ne_null brk nonzero result
    case isTrue =>
      obtain ⟨_, _, result⟩ := bind_eq_ok_iff.mp result
      split at result
      case isFalse => exact reallocMove_ne_null brk nonzero result
      case isTrue =>
        obtain ⟨_, _, result⟩ := bind_eq_ok_iff.mp result
        obtain ⟨_, _, result⟩ := bind_eq_ok_iff.mp result
        obtain ⟨_, _, result⟩ := bind_eq_ok_iff.mp result
        obtain rfl := congrArg Prod.fst (Except.ok.inj result)
        exact notNull

theorem State.offset_eq_none {ptr : Nat} : state.offset ptr = none ↔ ptr = null := by
  unfold State.offset
  split
  case isTrue same => simp [same]
  case isFalse different => simp [different]

/-! ## Room for the request -/

/-- A pointer comes with room for the request, and a request for which the tags
have no size is refused with `NULL`. -/
structure Serves (session : Session) (call : Call) : Prop where
  room : ∀ off state', exec session.state call = .ok (some off, state') →
    call.request ≤ state'.capacity off
  refuses : 2 ^ 32 < call.request + 24 → ∃ state', exec session.state call = .ok (none, state')

/-- The requests that no narrowing turns into smaller ones, and those that it
turns into none. -/
def Call.Represented : Call → Prop
  | .malloc size => size.toNat + 24 ≤ 2 ^ 32
  | .calloc nmemb size =>
      nmemb.toNat * size.toNat + 24 ≤ 2 ^ 32 ∨ nmemb.toNat * size.toNat % 2 ^ 64 = 0
  | .realloc _ none size => size.toNat + 24 ≤ 2 ^ 32
  | .realloc _ (some _) size => size.toNat + 24 ≤ 2 ^ 32 ∨ size.toNat % 2 ^ 32 = 0
  | _ => True

theorem Tracks.exec_ret (tracks : Tracks least session layout) (enough : 16 ≤ least)
    (small : least ≤ 24) (allowed : Allowed (Call.Sized least) session call) {ret : Option Nat}
    {state' : State} (run : exec session.state call = .ok (ret, state')) :
    ∃ next, layout.exec call = some (ret, next) ∧
      Tracks least ⟨state', ledger session.live call ret⟩ next := by
  have runs := tracks.represents.exec tracks.valid enough small (tracks.allows allowed)
  cases result : layout.exec call with
  | none =>
      rw [result] at runs
      obtain ⟨fault, failed⟩ := runs
      exact nomatch failed.symm.trans run
  | some given =>
      obtain ⟨ret', next⟩ := given
      rw [result] at runs
      obtain ⟨state'', run', yields⟩ := runs
      obtain ⟨rfl, rfl⟩ := Prod.mk.inj (Except.ok.inj (run'.symm.trans run))
      obtain ⟨valid, grants⟩ :=
        tracks.valid.exec (by omega) small (tracks.allows allowed) result tracks.grants
      exact ⟨next, rfl, ⟨yields.represents, valid, grants⟩⟩

theorem Tracks.serves_small (tracks : Tracks least session layout) (enough : 16 ≤ least)
    (small : least ≤ 24) (passes : session.Passes call) (low : call.Small) :
    Serves session call := by
  have allowed : Allowed (Call.Sized least) session call := ⟨passes, low.sized.mono small⟩
  refine ⟨fun off state' run => ?_, fun high => absurd high (Nat.not_lt.mpr low)⟩
  obtain ⟨next, _, tracks'⟩ := tracks.exec_ret enough small allowed run
  have inside : ⟨off, call.request⟩ ∈ ledger session.live call (some off) :=
    List.mem_append_right _ (List.mem_singleton_self _)
  obtain ⟨block, live, same, room⟩ := tracks'.grant inside
  have capacity := tracks'.represents.capacity live.1
  have fits := room low
  dsimp only at same fits capacity
  rw [← same, capacity, metaSize_eq]
  omega

/-- A call that returns no pointer has room for every pointer it returns. -/
theorem serves_of_none {state' : State} (run : exec session.state call = .ok (none, state')) :
    Serves session call := by
  refine ⟨fun off other returned => ?_, fun _ => ⟨state', run⟩⟩
  cases (Except.ok.inj (run.symm.trans returned))

theorem Tracks.exec_of_layout (tracks : Tracks least session layout) (enough : 16 ≤ least)
    (small : least ≤ 24) (allowed : Allowed (Call.Sized least) session call) {ret : Option Nat}
    {next : Layout} (result : layout.exec call = some (ret, next)) :
    ∃ state', exec session.state call = .ok (ret, state') := by
  have runs := tracks.represents.exec tracks.valid enough small (tracks.allows allowed)
  rw [result] at runs
  obtain ⟨state', run, _⟩ := runs
  exact ⟨state', run⟩

theorem grownSize_ge {bytes : Nat} (large : 2 ^ 32 ≤ bytes) (small : bytes + 2 ^ 32 ≤ 2 ^ 64) :
    2 ^ 32 ≤ grownSize bytes := by
  unfold grownSize align u64
  simp only [metaSize_eq, alignment]
  omega

/-- A multiple of `2 ^ 32` is too large for the block and asks `malloc` for
nothing: the block is released. -/
theorem Layout.Valid.realloc_multiple (valid : layout.Valid least) (positive : 0 < least)
    (live : block ∈ liveOf layout.blocks) (large : 2 ^ 32 ≤ bytes) (small : bytes < 2 ^ 64)
    (multiple : bytes % 2 ^ 32 = 0) :
    layout.realloc block.off bytes = some (none, layout.release block.off) := by
  obtain ⟨front, back, whole, located⟩ := valid.splitAt positive live.1
  have limit := maxHeap_eq
  have high : 2 ^ 32 ≤ align (u64 (bytes + metaSize)) := grownSize_ge large (by omega)
  have bounds := valid.laid.bounds live.1
  have nothing : u32 bytes = 0 := by
    unfold u32
    omega
  have moved : layout.reallocMove block.off (u32 bytes) =
      some (none, layout.release block.off) := if_pos nothing
  simp only [Layout.realloc, located]
  rw [if_neg (by omega)]
  cases back with
  | nil => exact moved
  | cons succ rest =>
      have tiled := valid.laid.tiled
      rw [whole] at tiled
      have touches : succ.off = block.off + block.size := tiled.split.2.1
      have inside : succ ∈ layout.blocks := by simp [whole]
      have succBounds := valid.laid.bounds inside
      rw [moved]
      exact if_neg fun both => by omega

/-- `realloc` returns no pointer only where it asks `malloc` for nothing. -/
theorem Layout.realloc_released {off : Nat} {next : Layout}
    (result : layout.realloc off bytes = some (none, next)) : u32 bytes = 0 := by
  have moved : layout.reallocMove off (u32 bytes) = some (none, next) → u32 bytes = 0 := by
    intro result
    unfold Layout.reallocMove at result
    split at result
    case isTrue zero => exact zero
    case isFalse =>
      split at result
      case h_1 => cases result
      case h_2 =>
        split at result
        case isTrue => cases result
        case isFalse => cases result
  unfold Layout.realloc at result
  dsimp only at result
  split at result
  case h_1 => cases result
  case h_2 =>
    split at result
    case isTrue => cases result
    case isFalse =>
      split at result
      case h_1 => exact moved result
      case h_2 =>
        split at result
        case isTrue => cases result
        case isFalse => exact moved result

theorem Tracks.not_served (tracks : Tracks 16 session layout) (passes : session.Passes call)
    (lost : ¬ call.Represented) : ¬ Serves session call := by
  have brk : session.state.memBrk ≠ null := by
    rw [tracks.represents.framed.brk]
    exact tracks.represents.framed.ready.toMapped.ne_null
  have malloc_null : ∀ {bytes : Nat} {state' : State}, ¬ bytes + 24 ≤ 2 ^ 32 →
      (Malloc.malloc session.state bytes >>= fun given =>
        pure (given.2.offset given.1, given.2)) ≠
        .ok (none, state') := by
    intro bytes state' high run
    obtain ⟨⟨ptr, next⟩, allocated, result⟩ := bind_eq_ok_iff.mp run
    obtain ⟨isNone, rfl⟩ := Prod.mk.inj (Except.ok.inj result)
    exact malloc_ne_null brk (by omega) allocated (State.offset_eq_none.mp isNone)
  intro serves
  cases call with
  | malloc size =>
      obtain ⟨state', run⟩ := serves.refuses (Nat.lt_of_not_le lost)
      exact malloc_null lost run
  | calloc nmemb size =>
      obtain ⟨high, rest⟩ := not_or.mp lost
      obtain ⟨state', run⟩ := serves.refuses (Nat.lt_of_not_le high)
      obtain ⟨next, result, _⟩ :=
        tracks.exec_ret (by decide) (by decide) ⟨passes, trivial⟩ run
      rcases Layout.calloc_cases result with ⟨zero, _⟩ | ⟨_, _, new, isNone, _⟩
      · apply rest
        rw [← Int.natCast_mul] at zero
        unfold u64 at zero
        omega
      · cases isNone
  | free ptr => exact lost trivial
  | realloc direction ptr size =>
      cases ptr with
      | none =>
          obtain ⟨state', run⟩ := serves.refuses (Nat.lt_of_not_le lost)
          simp only [exec, State.address, realloc_null] at run
          exact malloc_null lost run
      | some off =>
          obtain ⟨high, rest⟩ := not_or.mp lost
          obtain ⟨state', run⟩ := serves.refuses (Nat.lt_of_not_le high)
          obtain ⟨next, result, _⟩ :=
            tracks.exec_ret (by decide) (by decide) ⟨passes, trivial⟩ run
          have nonzero : size.toNat ≠ 0 := fun zero => rest (by rw [zero, Nat.zero_mod])
          simp only [Layout.exec, if_neg nonzero] at result
          have nothing := Layout.realloc_released result
          unfold u32 at nothing
          omega
  | write position byte => exact lost trivial

/-- On any reached heap a call serves its request exactly where no narrowing
makes the request smaller but not empty. -/
theorem request_served_iff {region : State} {calls : List Call} {outputs : List (Option Nat)}
    {session : Session} (mapped : Mapped region)
    (reaches : Reaches (Call.Sized 16) region calls outputs session) {call : Call}
    (passes : session.Passes call) : Serves session call ↔ call.Represented := by
  obtain ⟨layout, _, tracks, _⟩ := reaches.tracks mapped (by decide) (by decide)
  have small : call.Small → Serves session call :=
    fun low => tracks.serves_small (by decide) (by decide) passes low
  refine ⟨fun serves => by_contra fun lost => tracks.not_served passes lost serves, fun fits => ?_⟩
  cases call with
  | malloc size => exact small fits
  | calloc nmemb size =>
      cases fits with
      | inl low => exact small low
      | inr multiple =>
          have nothing : u64 (nmemb.toNat * size.toNat) = 0 := by
            rw [← Int.natCast_mul]
            unfold u64
            omega
          have result : layout.exec (.calloc nmemb size) = some (none, layout) := if_pos nothing
          obtain ⟨state', run⟩ :=
            tracks.exec_of_layout (by decide) (by decide) ⟨passes, trivial⟩ result
          exact serves_of_none run
  | free ptr => exact small (by simp [Call.Small, Call.request])
  | realloc direction ptr size =>
      cases ptr with
      | none => exact small fits
      | some off =>
          cases fits with
          | inl low => exact small low
          | inr multiple =>
              cases Nat.decLt size.toNat (2 ^ 32) with
              | isTrue low =>
                  have zero : size.toNat = 0 := by omega
                  exact small (by simp [Call.Small, Call.request, zero])
              | isFalse high =>
                  obtain ⟨block, live, rfl⟩ := tracks.live.mp (passes off rfl)
                  have released := tracks.valid.realloc_multiple (by decide) live
                    (Nat.le_of_not_lt high) size.toNat_lt multiple
                  have result : layout.exec (.realloc direction (some block.off) size) =
                      some (none, layout.release block.off) := by
                    simp only [Layout.exec]
                    rw [if_neg (by omega), released]
                  obtain ⟨state', run⟩ :=
                    tracks.exec_of_layout (by decide) (by decide) ⟨passes, trivial⟩ result
                  exact serves_of_none run
  | write position byte => exact small (by simp [Call.Small, Call.request])

theorem request_served_iff_resized : ∃ session, Reaches (Call.Sized 16) sampleRegion
    [.malloc 100] [some 32] session ∧
      Serves session (.realloc .ascending (some 32) 4294967296) ∧
      ¬ Serves session (.realloc .ascending (some 32) 18446744073709551615) := by
  obtain ⟨session, reaches⟩ := Reaches.of_outputs sampleRegion_mapped
    (by decide +kernel : (Run.exec (Run.guarded Session.step (Allowed (Call.Sized 16))) _
      [.malloc 100]).map Prod.snd = some [some 32])
  obtain ⟨layout, run, tracks, _⟩ := reaches.tracks sampleRegion_mapped (by decide) (by decide)
  have result : Run Layout.step (fun _ _ => True) .empty [.malloc 100] [some 32]
      ⟨[⟨32, 120, true⟩], fun _ => [], 152⟩ := Run.of_exec rfl
  obtain ⟨_, rfl⟩ := run.deterministic result
  have holds : session.Holds 32 := tracks.live.mpr ⟨_, ⟨List.mem_cons_self, rfl⟩, rfl⟩
  have passes : ∀ size : UInt64, session.Passes (.realloc .ascending (some 32) size) := by
    rintro size _ ⟨⟩
    exact holds
  refine ⟨session, reaches, ?_, fun serves => ?_⟩
  · exact (request_served_iff sampleRegion_mapped reaches (passes _)).mpr (.inr (by decide))
  · have fits := (request_served_iff sampleRegion_mapped reaches (passes _)).mp serves
    exact absurd fits (by simp [Call.Represented])

/-- `malloc(2^32)` returns a block without a byte of payload. -/
theorem truncated_malloc_unserved : ∃ session state', Reaches (Call.Sized 16) sampleRegion [] []
    session ∧ exec session.state (.malloc 4294967296) = .ok (some 32, state') ∧
      state'.capacity 32 = 0 ∧ ¬ Serves session (.malloc 4294967296) := by
  obtain ⟨session, reaches⟩ := Reaches.of_outputs sampleRegion_mapped
    (by decide +kernel : (Run.exec (Run.guarded Session.step (Allowed (Call.Sized 16))) _
      []).map Prod.snd = some [])
  obtain ⟨layout, run, tracks, _⟩ := reaches.tracks sampleRegion_mapped (by decide) (by decide)
  obtain ⟨_, rfl⟩ := run.deterministic .nil
  have sized : Allowed (Call.Sized 16) session (.malloc 4294967296) := ⟨trivial, .inr (by decide)⟩
  have result : Layout.empty.exec (.malloc 4294967296) =
      some (some 32, ⟨[⟨32, 16, true⟩], fun _ => [], 48⟩) := rfl
  obtain ⟨state', returned⟩ := tracks.exec_of_layout (by decide) (by decide) sized result
  obtain ⟨next, result', tracks'⟩ := tracks.exec_ret (by decide) (by decide) sized returned
  obtain ⟨_, rfl⟩ := Prod.mk.inj (Option.some.inj (result.symm.trans result'))
  have inside : (⟨32, 16, true⟩ : Block) ∈ [(⟨32, 16, true⟩ : Block)] := List.mem_cons_self
  have capacity := tracks'.represents.capacity inside
  rw [metaSize_eq] at capacity
  refine ⟨session, state', reaches, returned, capacity, fun serves => ?_⟩
  have room := serves.room 32 state' returned
  rw [capacity] at room
  exact absurd room (by decide)

/-! ## Where memory runs out -/

/-- No free block on the heap has `size` bytes. -/
def State.NoFit (state : State) (size : Nat) : Prop :=
  ∀ ptrs, state.Chain ptrs → ∀ ptr ∈ ptrs, state.stat ptr = .ok unused →
    ∀ found, state.size ptr = .ok found → found < size

/-- No free block has `size` bytes, and `mem_sbrk` refuses to add as many. -/
structure State.Exhausted (state : State) (size : Nat) : Prop where
  noFit : state.NoFit size
  refused : memSbrk state (offsetT size) = (sbrkFailed, state)

/-- The block is too small, and so is the free block behind it, if there is one. -/
structure State.MustMove (state : State) (ptr bytes : Nat) : Prop where
  large : ∀ size, state.size ptr = .ok size → size < grownSize bytes
  alone : ∀ size next more, state.size ptr = .ok size → state.heapNext ptr = .ok next →
    state.stat next = .ok unused → state.size next = .ok more → size + more < grownSize bytes

/-- The call needs a new block, and there is no memory for one. -/
def OutOfMemory (state : State) : Call → Prop
  | .malloc size => size.toNat ≠ 0 ∧ state.Exhausted (blockSize size.toNat)
  | .calloc nmemb size => u64 (nmemb.toNat * size.toNat) ≠ 0 ∧
      state.Exhausted (blockSize (u64 (nmemb.toNat * size.toNat)))
  | .realloc _ none size => size.toNat ≠ 0 ∧ state.Exhausted (blockSize size.toNat)
  | .realloc _ (some off) size => u32 size.toNat ≠ 0 ∧
      state.MustMove (state.heap + off) size.toNat ∧
      state.Exhausted (blockSize (u32 size.toNat))
  | _ => False

theorem Represents.noFit_iff (represents : Represents state layout none)
    (valid : layout.Valid least) (positive : 0 < least) {size : Nat} :
    state.NoFit size ↔ layout.fit size = none := by
  have framed := represents.framed
  have readStat : ∀ block ∈ layout.blocks, state.stat (state.ptrOf block) = .ok block.status :=
    fun block inside => framed.stat inside (by simp)
  rw [valid.fit_none positive]
  constructor
  · intro noFit block vacant
    have free := (readStat block vacant.1).trans
      (congrArg Except.ok (status_eq_unused.mpr vacant.2))
    exact noFit _ represents.chain _ (List.mem_map.mpr ⟨block, vacant.1, rfl⟩) free
      block.size (framed.size vacant.1 (by simp))
  · intro short ptrs chain ptr onChain free found read
    obtain rfl := chain.eq represents.chain
    obtain ⟨block, inside, rfl⟩ := List.mem_map.mp onChain
    rw [readStat block inside, Except.ok.injEq, status_eq_unused] at free
    obtain rfl := Except.ok.inj ((framed.size inside (by simp)).symm.trans read)
    exact short block ⟨inside, free⟩

theorem Represents.refused_iff (represents : Represents state layout none) {size : Nat}
    (small : size < 2 ^ 32) :
    memSbrk state (offsetT size) = (sbrkFailed, state) ↔ maxHeap < layout.top + size := by
  have framed := represents.framed
  have mapped := framed.ready.toMapped
  have limit := maxHeap_eq
  refine ⟨fun refused => ?_, memSbrk_refused mapped framed.brk small⟩
  by_contra room
  have distance : offsetT size = size := offsetT_of_small (by omega) (by omega)
  have granted := memSbrk_granted mapped framed.brk (Nat.le_of_not_lt room)
  rw [distance, granted] at refused
  have same := congrArg Prod.fst refused
  have below := mapped.below
  have bound := framed.laid.bounded
  dsimp only [sbrkFailed] at same
  omega

theorem Represents.exhausted_iff (represents : Represents state layout none)
    (valid : layout.Valid least) (positive : 0 < least) {size : Nat} (small : size < 2 ^ 32) :
    state.Exhausted size ↔ layout.malloc size = none := by
  rw [valid.malloc_none positive, ← represents.noFit_iff valid positive,
    ← represents.refused_iff small]
  exact ⟨fun exhausted => ⟨exhausted.noFit, exhausted.refused⟩,
    fun ⟨noFit, refused⟩ => ⟨noFit, refused⟩⟩

/-- `malloc` faults where memory runs out. -/
theorem Represents.malloc_exhausted (represents : Represents state layout none)
    (valid : layout.Valid least) (positive : 0 < least) (nonzero : bytes ≠ 0)
    (exhausted : state.Exhausted (blockSize bytes)) : Malloc.malloc state bytes = .error .segv :=
  represents.malloc_refused valid positive nonzero
    ((represents.exhausted_iff valid positive (blockSize_lt bytes)).mp exhausted)

theorem Represents.mustMove_iff
    (represents : Represents state ⟨front ++ block :: back, bins, top⟩ none) :
    state.MustMove (state.heap + block.off) bytes ↔
      ¬ grownSize bytes ≤ block.size ∧ ¬ TakesNext block back bytes := by
  have framed := represents.framed
  have member : block ∈ front ++ block :: back := by simp
  have readSize := framed.size member (by simp)
  have readNext := framed.heapNext member (by simp)
  have behind := framed.stat_after
  constructor
  · intro mustMove
    refine ⟨Nat.not_le.mpr (mustMove.large _ readSize), ?_⟩
    rintro ⟨succ, first, vacant, fits⟩
    obtain ⟨rest, rfl⟩ : ∃ rest, back = succ :: rest := List.head?_eq_some_iff.mp first
    have inside : succ ∈ front ++ block :: succ :: rest := by simp
    have touches : succ.off = block.off + block.size := framed.laid.tiled.split.2.1
    have readMore := framed.size inside (by simp)
    rw [List.head?_cons, Option.map_some, Option.getD_some, status_eq_unused.mpr vacant] at behind
    rw [touches] at readMore
    have short := mustMove.alone _ _ _ readSize readNext behind readMore
    omega
  · rintro ⟨grows, alone⟩
    refine ⟨fun size read => ?_, fun size ptr more read isNext free readMore => ?_⟩
    · obtain rfl := Except.ok.inj (readSize.symm.trans read)
      omega
    · obtain rfl := Except.ok.inj (readSize.symm.trans read)
      obtain rfl := Except.ok.inj (readNext.symm.trans isNext)
      rw [free] at behind
      cases back with
      | nil => cases behind
      | cons succ rest =>
          have inside : succ ∈ front ++ block :: succ :: rest := by simp
          have touches : succ.off = block.off + block.size := framed.laid.tiled.split.2.1
          have readSucc := framed.size inside (by simp)
          rw [touches] at readSucc
          obtain rfl := Except.ok.inj (readSucc.symm.trans readMore)
          have vacant : succ.used = false := status_eq_unused.mp (Except.ok.inj behind).symm
          exact Nat.lt_of_not_le fun fits => alone ⟨succ, rfl, vacant, fits⟩

theorem Represents.realloc_exhausted (represents : Represents state layout none)
    (valid : layout.Valid least) (positive : 0 < least) (live : block ∈ liveOf layout.blocks)
    (nonzero : u32 bytes ≠ 0) (mustMove : state.MustMove (state.heap + block.off) bytes)
    (exhausted : state.Exhausted (blockSize (u32 bytes))) (direction : CopyDirection) :
    Malloc.realloc direction state (state.heap + block.off) bytes = .error .segv := by
  have failed := represents.malloc_exhausted valid positive nonzero exhausted
  obtain ⟨front, back, whole, _⟩ := valid.splitAt positive live.1
  obtain ⟨blocks, bins, top⟩ := layout
  simp only at whole
  subst whole
  have bytesNonzero : bytes ≠ 0 := by
    rintro rfl
    exact nonzero rfl
  obtain ⟨grows, alone⟩ := represents.mustMove_iff.mp mustMove
  rw [represents.realloc_moves direction bytesNonzero grows alone]
  unfold Malloc.reallocMove
  rw [failed]
  rfl

theorem mmInit_refused (mapped : Mapped state)
    (refused : memSbrk state (bdrOff + 2 * wordSize : Nat) = (sbrkFailed, state)) :
    mmInit state = .error .segv := by
  have limit := maxHeap_eq
  have below := mapped.below
  have notNull : sbrkFailed ≠ null := by decide
  have start : ptrIncr sbrkFailed ((0 : Nat) * wordSize) = sbrkFailed := by decide
  have bucket : buck { state with heapBase := sbrkFailed } 0 = sbrkFailed := start
  have outside : ¬ ({ state with heapBase := sbrkFailed } : State).Contains sbrkFailed wordSize := by
    rintro ⟨_, high⟩
    dsimp only [sbrkFailed, wordSize] at high
    omega
  rw [mmInit_of_sbrk refused notNull]
  change (State.set { state with heapBase := sbrkFailed } (buck _ 0) bdrOff >>= _) >>= _ = _
  rw [bucket, State.set, if_neg outside]
  rfl

/-- A call that gets no memory does not return `NULL`. -/
theorem exec_ne_null {later : State} (brk : state.memBrk ≠ null) (heap : state.heap ≠ null)
    (exhausted : OutOfMemory state call) : exec state call ≠ .ok (none, later) := by
  intro result
  cases call with
  | malloc size =>
      obtain ⟨⟨ptr, _⟩, allocated, result⟩ := bind_eq_ok_iff.mp result
      have isNull := State.offset_eq_none.mp (congrArg Prod.fst (Except.ok.inj result))
      exact malloc_ne_null brk exhausted.1 allocated isNull
  | calloc nmemb size =>
      obtain ⟨⟨ptr, _⟩, cleared, result⟩ := bind_eq_ok_iff.mp result
      have isNull := State.offset_eq_none.mp (congrArg Prod.fst (Except.ok.inj result))
      obtain ⟨⟨_, _⟩, allocated, cleared⟩ := bind_eq_ok_iff.mp cleared
      obtain ⟨_, _, cleared⟩ := bind_eq_ok_iff.mp cleared
      obtain rfl := congrArg Prod.fst (Except.ok.inj cleared)
      exact malloc_ne_null brk exhausted.1 allocated isNull
  | free ptr => exact exhausted
  | realloc direction old size =>
      obtain ⟨⟨ptr, _⟩, resized, result⟩ := bind_eq_ok_iff.mp result
      have isNull := State.offset_eq_none.mp (congrArg Prod.fst (Except.ok.inj result))
      cases old with
      | none =>
          rw [State.address, realloc_null] at resized
          exact malloc_ne_null brk exhausted.1 resized isNull
      | some off =>
          have notNull : state.heap + off ≠ null := fun zero => heap (Nat.add_eq_zero_iff.mp zero).1
          exact realloc_ne_null brk notNull exhausted.1 resized isNull
  | write position byte => exact exhausted

/-- A refused `mem_sbrk` is never reported, whatever requests the run has made: no
call returns `NULL`, and `mm_init` faults. -/
theorem out_of_memory_unreported {region : State} {calls : List Call}
    {outputs : List (Option Nat)} {session : Session} (mapped : Mapped region)
    (reaches : Reaches (fun _ => True) region calls outputs session) :
    (∀ call, OutOfMemory session.state call → ∀ later,
      exec session.state call ≠ .ok (none, later)) ∧
    (memSbrk session.state (bdrOff + 2 * wordSize : Nat) = (sbrkFailed, session.state) →
      mmInit session.state = .error .segv) := by
  obtain ⟨mapped', low⟩ := reaches.region mapped
  have heap : session.state.heap ≠ null := Nat.pos_iff_ne_zero.mp mapped'.positive
  have brk : session.state.memBrk ≠ null := by
    intro isNull
    rw [isNull] at low
    exact heap (Nat.le_zero.mp low)
  exact ⟨fun call exhausted later => exec_ne_null brk heap exhausted, mmInit_refused mapped'⟩

/-- A live block of half the heap has to move and there is no room for another one. -/
theorem out_of_memory_unreported_moving : ∃ session,
    Reaches (fun _ => True) sampleRegion [.malloc 52428800, .malloc 8] [some 32, some 52428848]
      session ∧ session.Holds 32 ∧
    OutOfMemory session.state (.realloc .ascending (some 32) 62914560) ∧
    ∀ later, exec session.state (.realloc .ascending (some 32) 62914560) ≠ .ok (none, later) := by
  obtain ⟨session, reaches⟩ := Reaches.of_outputs sampleRegion_mapped
    (by decide +kernel : (Run.exec (Run.guarded Session.step (Allowed (Call.Sized 16))) _
      [.malloc 52428800, .malloc 8]).map Prod.snd = some [some 32, some 52428848])
  obtain ⟨layout, run, tracks, _⟩ := reaches.tracks sampleRegion_mapped (by decide) (by decide)
  have result : Run Layout.step (fun _ _ => True) .empty [.malloc 52428800, .malloc 8]
      [some 32, some 52428848]
      ⟨[⟨32, 52428816, true⟩, ⟨52428848, 24, true⟩], fun _ => [], 52428872⟩ := Run.of_exec rfl
  obtain ⟨_, rfl⟩ := run.deterministic result
  have holds : session.Holds 32 := tracks.live.mpr ⟨_, ⟨List.mem_cons_self, rfl⟩, rfl⟩
  have represents : Represents session.state ⟨[] ++ ⟨32, 52428816, true⟩ ::
      [⟨52428848, 24, true⟩], fun _ => [], 52428872⟩ none := tracks.represents
  have moves : session.state.MustMove (session.state.heap + 32) 62914560 :=
    represents.mustMove_iff.mpr ⟨by decide, by simp [TakesNext]⟩
  have full : session.state.Exhausted (blockSize 62914560) :=
    (tracks.represents.exhausted_iff tracks.valid (by decide) (blockSize_lt _)).mpr
      ((tracks.valid.malloc_none (by decide)).mpr ⟨by decide, by decide⟩)
  have exhausted : OutOfMemory session.state (.realloc .ascending (some 32) 62914560) :=
    ⟨by decide, moves, full⟩
  have reaches' := reaches.mono fun _ _ => trivial
  exact ⟨session, reaches', holds, exhausted,
    (out_of_memory_unreported sampleRegion_mapped reaches').1 _ exhausted⟩

/-- Where no request has been truncated, each such call faults. -/
theorem out_of_memory_faults {region : State} {calls : List Call} {outputs : List (Option Nat)}
    {session : Session} (mapped : Mapped region)
    (reaches : Reaches (Call.Sized 16) region calls outputs session) :
    (∀ call, session.Passes call → OutOfMemory session.state call →
      exec session.state call = .error .segv) ∧
    (memSbrk session.state (bdrOff + 2 * wordSize : Nat) = (sbrkFailed, session.state) →
      mmInit session.state = .error .segv) := by
  obtain ⟨layout, _, tracks, _⟩ := reaches.tracks mapped (by decide) (by decide)
  have represents := tracks.represents
  refine ⟨fun call passes exhausted => ?_, mmInit_refused represents.framed.ready.toMapped⟩
  have failed : ∀ {bytes : Nat}, bytes ≠ 0 → session.state.Exhausted (blockSize bytes) →
      Malloc.malloc session.state bytes = .error .segv :=
    represents.malloc_exhausted tracks.valid (by decide)
  cases call with
  | malloc size =>
      simp only [exec, failed exhausted.1 exhausted.2, error_bind]
  | calloc nmemb size =>
      simp only [exec, Malloc.calloc, failed exhausted.1 exhausted.2, error_bind]
  | free ptr => exact exhausted.elim
  | realloc direction ptr size =>
      cases ptr with
      | none =>
          simp only [exec, State.address, realloc_null, failed exhausted.1 exhausted.2, error_bind]
      | some off =>
          obtain ⟨block, live, rfl⟩ := tracks.live.mp (passes off rfl)
          obtain ⟨nonzero, mustMove, full⟩ := exhausted
          have moved := represents.realloc_exhausted tracks.valid (by decide) live nonzero mustMove
            full direction
          simp only [exec, State.address, moved, error_bind]
  | write position byte => exact exhausted.elim

/-- On a new heap no free block fits any request. -/
theorem start_exhausted {size : Nat} (tracks : Tracks 16 session .empty) (small : size < 2 ^ 32)
    (huge : maxHeap < size) : session.state.Exhausted size := by
  have noFit : Layout.empty.fit size = none :=
    (tracks.valid.fit_none (by decide)).mpr fun block vacant => nomatch vacant.1
  exact (tracks.represents.exhausted_iff tracks.valid (by decide) small).mpr
    ((tracks.valid.malloc_none (by decide)).mpr
      ⟨noFit, Nat.lt_of_lt_of_le huge (Nat.le_add_left _ _)⟩)

/-- `malloc` of the whole region on a new heap returns no `NULL`. -/
theorem malloc_of_region_unreported : ∃ session, Reaches (Call.Sized 16) sampleRegion [] []
    session ∧ OutOfMemory session.state (.malloc 104857600) ∧
      ¬ ∃ state', exec session.state (.malloc 104857600) = .ok (none, state') := by
  obtain ⟨session, reaches⟩ := Reaches.of_outputs sampleRegion_mapped
    (by decide +kernel : (Run.exec (Run.guarded Session.step (Allowed (Call.Sized 16))) _
      []).map Prod.snd = some [])
  obtain ⟨layout, run, tracks, _⟩ := reaches.tracks sampleRegion_mapped (by decide) (by decide)
  obtain ⟨_, rfl⟩ := run.deterministic .nil
  have exhausted := start_exhausted tracks (by decide) (by decide : maxHeap < blockSize 104857600)
  refine ⟨session, reaches, ⟨by decide, exhausted⟩, ?_⟩
  rintro ⟨state', run⟩
  have failed := tracks.represents.malloc_exhausted tracks.valid (by decide)
    (by decide : 104857600 ≠ 0) exhausted
  have same : (104857600 : UInt64).toNat = 104857600 := by decide
  simp only [exec, same, failed, error_bind, reduceCtorEq] at run

end OsPractices.Malloc
