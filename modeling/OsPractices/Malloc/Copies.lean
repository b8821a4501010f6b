import Mathlib.Data.UInt
import OsPractices.Malloc.Fit
import OsPractices.Malloc.Truncated

/-!
# What realloc keeps and what it copies

A successful `realloc` keeps the bytes that the old and the new block have in
common and leaves all other live blocks alone. Its copy, however, has the
length of the request and not that of the old block.
-/

set_option autoImplicit false

namespace OsPractices.Malloc

open Library
open Library.Memory (CopyDirection)

variable {state later : State} {layout next : Layout} {front back : List Block} {block : Block}
  {bins : Bins} {least top bytes : Nat} {session : Session}

/-- The block at an offset is on the chain and in use. -/
def State.Live (state : State) (off : Nat) : Prop :=
  ∃ ptrs, state.Chain ptrs ∧ state.heap + off ∈ ptrs ∧ state.stat (state.heap + off) = .ok used

theorem status_eq_used : block.status = used ↔ block.used = true := by
  cases busy : block.used with
  | true => simp [Block.status, busy]
  | false => simp [Block.status, busy, used, unused]

theorem Represents.live_iff (represents : Represents state layout none) {off : Nat} :
    state.Live off ↔ ∃ block ∈ liveOf layout.blocks, block.off = off := by
  have framed := represents.framed
  constructor
  · rintro ⟨ptrs, chain, onChain, isUsed⟩
    obtain rfl := chain.eq represents.chain
    obtain ⟨block, inside, place⟩ := List.mem_map.mp onChain
    obtain rfl := Nat.add_left_cancel place
    rw [framed.stat inside (by simp), Except.ok.injEq, status_eq_used] at isUsed
    exact ⟨block, ⟨inside, isUsed⟩, rfl⟩
  · rintro ⟨block, live, rfl⟩
    refine ⟨_, represents.chain, List.mem_map.mpr ⟨block, live.1, rfl⟩, ?_⟩
    rw [framed.stat live.1 (by simp), status_eq_used.mpr live.2]

/-- The new block is live, has room for the request and starts with the bytes
of the old one; the other live blocks are as before, and the old block is gone
if it moved. -/
structure KeepsData (state later : State) (off new bytes : Nat) : Prop where
  heap : later.heap = state.heap
  live : later.Live new
  room : bytes ≤ later.capacity new
  data : ∀ index < min (state.capacity off) bytes,
    later.mem (later.heap + (new + index)) = state.mem (state.heap + (off + index))
  others : ∀ other, state.Live other → other ≠ off →
    other ≠ new ∧ later.Live other ∧
      later.size (later.heap + other) = state.size (state.heap + other) ∧
      ∀ byte, state.Payload (state.heap + other) byte → later.mem byte = state.mem byte
  gone : new ≠ off → ¬ later.Live off

theorem Resized.keepsData {new : Nat} {result : Nat × State}
    (resized : Resized state layout.blocks block bytes (some new) next result)
    (represents : Represents state layout none) (live : block ∈ liveOf layout.blocks)
    (moves : Moves layout.blocks next.blocks block bytes (some new))
    (small : bytes + 24 ≤ 2 ^ 32) : KeepsData state result.2 block.off new bytes := by
  obtain ⟨gained, rfl, busy, left, fresh, longer⟩ := moves.kept new rfl
  have yields := resized.yields
  have framed := represents.framed
  have represents' := yields.represents
  have framed' := represents'.framed
  have gainedLive : gained ∈ liveOf next.blocks := left ▸ Set.mem_insert _ _
  have bounds := framed.laid.bounds live.1
  have room := longer small
  refine ⟨yields.heap, represents'.live_iff.mpr ⟨gained, gainedLive, rfl⟩, ?_, ?_, ?_, ?_⟩
  · rw [represents'.capacity gainedLive.1, metaSize_eq]
    omega
  · intro index below
    rw [represents.capacity live.1, metaSize_eq] at below
    rw [yields.heap]
    exact resized.data gained.off rfl index (by omega) (by omega)
  · intro off isLive apart
    obtain ⟨other, otherLive, rfl⟩ := represents.live_iff.mp isLive
    have stays : other ∈ liveBut block.off layout.blocks := ⟨otherLive, apart⟩
    have inside : other ∈ liveOf next.blocks := left ▸ Set.mem_insert_of_mem _ stays
    refine ⟨fresh other stays, represents'.live_iff.mpr ⟨other, inside, rfl⟩, ?_, ?_⟩
    · rw [framed.size otherLive.1 (by simp), framed'.size inside.1 (by simp)]
    · intro byte inPayload
      obtain ⟨owned, rfl, owns⟩ := (framed.payload_iff otherLive.1).mp inPayload
      exact yields.keeps other (mem_heldBut.mpr stays) owned owns
  · intro moved isLive
    obtain ⟨other, otherLive, place⟩ := represents'.live_iff.mp isLive
    rw [left] at otherLive
    cases otherLive with
    | inl isGained => exact moved (isGained ▸ place)
    | inr old => exact old.2 place

/-- Where `realloc` is undefined, the block has to move. -/
theorem Represents.mustMove (represents : Represents state layout none)
    (valid : layout.Valid least) (positive : 0 < least) (live : block ∈ liveOf layout.blocks)
    (result : layout.realloc block.off bytes = none) :
    state.MustMove (state.heap + block.off) bytes := by
  obtain ⟨front, back, whole, located⟩ := valid.splitAt positive live.1
  obtain ⟨blocks, bins, top⟩ := layout
  simp only at whole
  subst whole
  simp only [Layout.realloc, located] at result
  split at result
  case isTrue => cases result
  case isFalse grows =>
    refine represents.mustMove_iff.mpr ⟨grows, ?_⟩
    rintro ⟨succ, first, vacant, fits⟩
    obtain ⟨rest, rfl⟩ : ∃ rest, back = succ :: rest := List.head?_eq_some_iff.mp first
    have taken : succ.used = false ∧ align (u64 (bytes + metaSize)) ≤ block.size + succ.size :=
      ⟨vacant, fits⟩
    simp only [if_pos taken] at result
    cases result

/-- `realloc` of a live block keeps the data wherever memory is available. -/
theorem realloc_keeps_data {region : State} {calls : List Call} {outputs : List (Option Nat)}
    {session : Session} (mapped : Mapped region)
    (reaches : Reaches (Call.Sized 16) region calls outputs session) {off : Nat}
    (holds : session.Holds off) {size : UInt64} (positive : 0 < size) (small : size < 2 ^ 31)
    (available : ¬ (session.state.MustMove (session.state.heap + off) size.toNat ∧
      session.state.Exhausted (blockSize size.toNat))) (direction : CopyDirection) :
    ∃ new later, exec session.state (.realloc direction (some off) size) = .ok (some new, later) ∧
      KeepsData session.state later off new size.toNat := by
  obtain ⟨layout, _, tracks, _⟩ := reaches.tracks mapped (by decide) (by decide)
  have represents := tracks.represents
  have valid := tracks.valid
  obtain ⟨block, live, rfl⟩ := tracks.live.mp holds
  have nonzero : size.toNat ≠ 0 := Nat.pos_iff_ne_zero.mp (UInt64.lt_iff_toNat_lt.mp positive)
  have below : size.toNat < 2 ^ 31 := UInt64.lt_iff_toNat_lt.mp small
  have whole : u32 size.toNat = size.toNat := u32_of_lt (by omega)
  cases result : layout.realloc block.off size.toNat with
  | none =>
      have moved := valid.realloc_none (by decide) live result
      rw [whole] at moved
      have exhausted := (represents.exhausted_iff valid (by decide) (blockSize_lt _)).mpr
        (valid.reallocMove_none (by decide) (by decide) (by omega) moved)
      exact absurd ⟨represents.mustMove valid (by decide) live result, exhausted⟩ available
  | some given =>
      obtain ⟨ret, next⟩ := given
      obtain ⟨valid', moves⟩ := valid.realloc (by decide) (by decide) live result
      cases ret with
      | none => exact absurd (whole.symm.trans (Layout.realloc_released result)) nonzero
      | some new =>
          obtain ⟨⟨ptr, later⟩, run, resized⟩ :=
            represents.realloc valid (by decide) (by decide) live nonzero result direction
          rw [whole] at resized
          refine ⟨new, later, ?_, resized.keepsData represents live moves (by omega)⟩
          have place := resized.ptr
          have heap : later.heap = session.state.heap := resized.yields.heap
          dsimp only at place
          simp only [exec, State.address, run, ok_bind]
          rw [place, represents.framed.ready.toMapped.offset_address heap]
          rfl

theorem realloc_keeps_data_moved : ∃ session new later,
    Reaches (Call.Sized 16) sampleRegion [.malloc 100, .malloc 8] [some 32, some 152] session ∧
    exec session.state (.realloc .descending (some 32) 200) = .ok (some new, later) ∧
    KeepsData session.state later 32 new 200 := by
  obtain ⟨session, reaches⟩ := Reaches.of_outputs sampleRegion_mapped
    (by decide +kernel : (Run.exec (Run.guarded Session.step (Allowed (Call.Sized 16))) _
      [.malloc 100, .malloc 8]).map Prod.snd = some [some 32, some 152])
  obtain ⟨layout, run, tracks, _⟩ := reaches.tracks sampleRegion_mapped (by decide) (by decide)
  have result : Run Layout.step (fun _ _ => True) .empty [.malloc 100, .malloc 8]
      [some 32, some 152] ⟨[⟨32, 120, true⟩, ⟨152, 24, true⟩], fun _ => [], 176⟩ := Run.of_exec rfl
  obtain ⟨_, rfl⟩ := run.deterministic result
  have holds : session.Holds 32 := tracks.live.mpr ⟨_, ⟨List.mem_cons_self, rfl⟩, rfl⟩
  have room : ¬ session.state.Exhausted (blockSize 200) := by
    rw [tracks.represents.exhausted_iff tracks.valid (by decide) (blockSize_lt 200),
      tracks.valid.malloc_none (by decide)]
    exact fun full => absurd full.2 (by decide)
  obtain ⟨new, later, returned, keeps⟩ := realloc_keeps_data sampleRegion_mapped reaches holds
    (by decide : (0 : UInt64) < 200) (by decide) (fun both => room both.2) .descending
  exact ⟨session, new, later, reaches, returned, keeps⟩

/-- The block at 56 is live and has 96 bytes, and `realloc` of the block at 104 to
24 bytes stays in place and changes a byte of its payload. -/
def growsOver (state : State) : Except Fault Bool := do
  let walk ← Malloc.heapWalk state maxHeap (firstBlock state)
  let size ← state.size (state.heap + 56)
  let status ← state.stat (state.heap + 56)
  let (ret, later) ← Malloc.exec state (.realloc .ascending (some 104) 24)
  pure (decide (walk = ([state.heap + 32, state.heap + 56], epiBdrPtr state) ∧ size = 96 ∧
    status = used ∧ ret = some 104 ∧
    later.mem (state.heap + 96) ≠ state.mem (state.heap + 96)))

/-- `malloc(2^32 - 16)` makes the live blocks at 56 and 104 overlap. Growing the
second one in place writes its header, which lies in the payload of the first. -/
theorem truncated_realloc_overwrites : ∃ session later,
    Reaches (fun _ => True) sampleRegion
      [.malloc 8, .malloc 4294967280, .malloc 32, .malloc 8, .malloc 8, .free (some 56),
        .malloc 80, .free (some 128)]
      [some 32, some 56, some 56, some 104, some 128, some 56] session ∧
    session.Holds 104 ∧ session.Holds 56 ∧
    exec session.state (.realloc .ascending (some 104) 24) = .ok (some 104, later) ∧
    session.state.Payload (session.state.heap + 56) (session.state.heap + 96) ∧
    later.mem (session.state.heap + 96) ≠ session.state.mem (session.state.heap + 96) ∧
    ¬ ∃ new last, exec session.state (.realloc .ascending (some 104) 24) = .ok (some new, last) ∧
      KeepsData session.state last 104 new 24 := by
  have executed : (Run.exec (Run.guarded Session.step (Allowed fun _ => True))
      ⟨(memResetBrk sampleRegion).opened, []⟩
      [.malloc 8, .malloc 4294967280, .malloc 32, .malloc 8, .malloc 8, .free (some 56),
        .malloc 80, .free (some 128)]).map (fun (session, outputs) =>
        (outputs, decide (session.Holds 104 ∧ session.Holds 56),
          (growsOver session.state).toOption)) =
      some ([some 32, some 56, some 56, some 104, some 128, some 56], true, some true) := by
    decide +kernel
  obtain ⟨⟨session, outputs⟩, ends, given⟩ := Option.map_eq_some_iff.mp executed
  simp only [Prod.mk.injEq, decide_eq_true_eq] at given
  obtain ⟨rfl, ⟨holds, holds'⟩, grown⟩ := given
  have reaches : Reaches (fun _ => True) sampleRegion _ _ session :=
    ⟨_, mmInit_opens sampleRegion_mapped rfl, Run.of_exec_guarded ends⟩
  obtain ⟨walk, walked, grown⟩ := bind_eq_ok_iff.mp (eq_ok_of_toOption grown)
  obtain ⟨size, readSize, grown⟩ := bind_eq_ok_iff.mp grown
  obtain ⟨status, readStatus, grown⟩ := bind_eq_ok_iff.mp grown
  obtain ⟨⟨ret, later⟩, returned, values⟩ := bind_eq_ok_iff.mp grown
  obtain ⟨rfl, rfl, rfl, rfl, differ⟩ := of_decide_eq_true (Except.ok.inj values)
  have payload : session.state.Payload (session.state.heap + 56) (session.state.heap + 96) :=
    ⟨96, readSize, by omega, by rw [metaSize_eq]; omega⟩
  have live : session.state.Live 56 :=
    ⟨_, walked, List.mem_cons_of_mem _ List.mem_cons_self, readStatus⟩
  refine ⟨session, later, reaches, holds, holds', returned, payload, differ, ?_⟩
  rintro ⟨new, last, again, keeps⟩
  obtain rfl : later = last := congrArg Prod.snd (Except.ok.inj (returned.symm.trans again))
  obtain ⟨_, _, _, unchanged⟩ := keeps.others 56 live (by decide)
  exact differ (unchanged _ payload)

/-! ## The copy -/

/-- `reallocMove` up to its `memcpy`: the memory there, the target and the length
of the copy. -/
def moveCopy (state : State) (orgsize : Nat) : Except Fault (Option (State × Nat × Nat)) := do
  let (newptr, state) ← malloc state orgsize
  return some (state, newptr, orgsize)

theorem moveCopy_eq_some_iff {given : State} {target length : Nat} :
    moveCopy state bytes = .ok (some (given, target, length)) ↔
      Malloc.malloc state bytes = .ok (target, given) ∧ length = bytes := by
  constructor
  · intro copied
    obtain ⟨⟨new, next⟩, allocated, rest⟩ := bind_eq_ok_iff.mp copied
    obtain ⟨rfl, rfl, rfl⟩ : next = given ∧ new = target ∧ bytes = length := by
      simpa [pure_eq_ok] using rest
    exact ⟨allocated, rfl⟩
  · rintro ⟨allocated, rfl⟩
    rw [moveCopy, allocated]
    rfl

/-- `realloc` up to its `memcpy`, where it gets there. -/
def reallocCopy (state : State) (oldptr size : Nat) : Except Fault (Option (State × Nat × Nat)) := do
  if size = 0 then return none
  if oldptr = null then return none
  else
    let orgsize := u32 size
    let oldsize ← state.size oldptr
    let size := align (u64 (size + metaSize))
    if size ≤ oldsize then return none
    let next ← state.heapNext oldptr
    if (← state.stat next) = unused then
      let nexsize ← state.size next
      if size ≤ u32 (oldsize + nexsize) then return none
      else moveCopy state orgsize
    else moveCopy state orgsize

/-- What `realloc` does, given its way to the copy: where it gets to the copy it
makes it and releases the old block, and elsewhere the order of the copy makes
no difference. -/
def CopiesAs (oldptr : Nat) (copy : Except Fault (Option (State × Nat × Nat)))
    (run : CopyDirection → Except Fault (Nat × State)) : Prop :=
  match copy with
  | .error _ => ∀ direction, ∃ fault, run direction = .error fault
  | .ok none => ∀ direction other, run direction = run other
  | .ok (some (given, target, length)) => ∀ direction, run direction = do
      let state ← Malloc.memcpy direction given target oldptr length
      let state ← Malloc.free state oldptr
      return (target, state)

theorem moveCopy_copies (state : State) (oldptr orgsize : Nat) :
    CopiesAs oldptr (moveCopy state orgsize) fun direction =>
      Malloc.reallocMove direction state oldptr orgsize := by
  unfold moveCopy Malloc.reallocMove
  cases Malloc.malloc state orgsize with
  | error fault => exact fun _ => ⟨fault, rfl⟩
  | ok given => exact fun _ => rfl

/-- The way to the copy is that of `realloc`. -/
theorem realloc_copies (state : State) (oldptr size : Nat) :
    CopiesAs oldptr (reallocCopy state oldptr size) fun direction =>
      Malloc.realloc direction state oldptr size := by
  have moved := moveCopy_copies state oldptr (u32 size)
  unfold reallocCopy Malloc.realloc
  split
  case isTrue => exact fun _ _ => rfl
  case isFalse =>
    split
    case isTrue => exact fun _ _ => rfl
    case isFalse =>
      dsimp only
      cases state.size oldptr with
      | error fault => exact fun _ => ⟨fault, rfl⟩
      | ok oldsize =>
          simp only [ok_bind]
          split
          case isTrue => exact fun _ _ => rfl
          case isFalse =>
            cases state.heapNext oldptr with
            | error fault => exact fun _ => ⟨fault, rfl⟩
            | ok next =>
                simp only [ok_bind]
                cases state.stat next with
                | error fault => exact fun _ => ⟨fault, rfl⟩
                | ok status =>
                    simp only [ok_bind]
                    split
                    case isFalse => exact moved
                    case isTrue =>
                      cases state.size next with
                      | error fault => exact fun _ => ⟨fault, rfl⟩
                      | ok nexsize =>
                          simp only [ok_bind]
                          split
                          case isTrue => exact fun _ _ => rfl
                          case isFalse => exact moved

/-- Where the block stays there is no copy; where it moves, the copy is that of
`reallocMove`. -/
theorem Represents.reallocCopy
    (represents : Represents state ⟨front ++ block :: back, bins, top⟩ none) (nonzero : bytes ≠ 0) :
    (state.MustMove (state.heap + block.off) bytes →
      Malloc.reallocCopy state (state.heap + block.off) bytes = moveCopy state (u32 bytes)) ∧
    (¬ state.MustMove (state.heap + block.off) bytes →
      Malloc.reallocCopy state (state.heap + block.off) bytes = .ok none) := by
  have limit := maxHeap_eq
  have framed := represents.framed
  have member : block ∈ front ++ block :: back := by simp
  have notNull : state.heap + block.off ≠ null := framed.ready.toMapped.ne_null
  have readSize := framed.size member (by simp)
  have readNext := framed.heapNext member (by simp)
  have behind := framed.stat_after
  have bounds := framed.laid.bounds member
  rw [represents.mustMove_iff]
  unfold Malloc.reallocCopy
  rw [if_neg nonzero, if_neg notNull, readSize]
  simp only [ok_bind, readNext, behind]
  change (_ → (if grownSize bytes ≤ block.size then _ else _) = _) ∧
    (_ → (if grownSize bytes ≤ block.size then _ else _) = _)
  split
  case isTrue fits => exact ⟨fun both => absurd fits both.1, fun _ => rfl⟩
  case isFalse grows =>
    cases back with
    | nil => exact ⟨fun _ => if_neg (by decide), fun both => absurd ⟨grows, by simp [TakesNext]⟩ both⟩
    | cons succ rest =>
        have inside : succ ∈ front ++ block :: succ :: rest := by simp
        have touches : succ.off = block.off + block.size := framed.laid.tiled.split.2.1
        have readSucc := framed.size inside (by simp)
        have succBounds := framed.laid.bounds inside
        have sum : u32 ((block.size : Int) + succ.size) = block.size + succ.size := by
          unfold u32
          omega
        rw [touches] at readSucc
        simp only [List.head?_cons, Option.map_some, Option.getD_some, readSucc, ok_bind, sum,
          status_eq_unused]
        cases busy : succ.used with
        | true =>
            exact ⟨fun _ => if_neg (by decide), fun both =>
              absurd ⟨grows, by simp [TakesNext, busy]⟩ both⟩
        | false =>
            rw [if_pos rfl]
            change (_ → (if grownSize bytes ≤ block.size + succ.size then _ else _) = _) ∧
              (_ → (if grownSize bytes ≤ block.size + succ.size then _ else _) = _)
            split
            case isTrue fits =>
              exact ⟨fun both => absurd ⟨succ, rfl, busy, fits⟩ both.2, fun _ => rfl⟩
            case isFalse alone =>
              have apart : ¬ TakesNext block (succ :: rest) bytes := by
                rintro ⟨_, ⟨⟩, _, fits⟩
                exact alone fits
              exact ⟨fun _ => rfl, fun both => absurd ⟨grows, apart⟩ both⟩

/-- The copy reads bytes of the old payload only, and does not overlap what it
writes. -/
def CopiesOwned (state : State) (oldptr size : Nat) : Prop :=
  ∀ given target length, reallocCopy state oldptr size = .ok (some (given, target, length)) →
    (∀ index < length, state.Payload oldptr (oldptr + index)) ∧
      (length = 0 ∨ target + length ≤ oldptr ∨ oldptr + length ≤ target)

/-- There is no copy, because the block stays or there is no memory for a new
one, or truncation to 32 bits makes the copy short. -/
def NoLongCopy (state : State) (off size : Nat) : Prop :=
  size = 0 ∨ ¬ state.MustMove (state.heap + off) size ∨
    (u32 size ≠ 0 ∧ state.Exhausted (blockSize (u32 size))) ∨ u32 size ≤ state.capacity off

theorem Represents.moveCopy_owned (represents : Represents state layout none)
    (valid : layout.Valid 16) (live : block ∈ liveOf layout.blocks) {length : Nat}
    (short : length + 16 ≤ block.size) {given : State} {target : Nat}
    (allocated : Malloc.malloc state length = .ok (target, given)) :
    (∀ index < length, state.Payload (state.heap + block.off) (state.heap + block.off + index)) ∧
      (length = 0 ∨ target + length ≤ state.heap + block.off ∨
        state.heap + block.off + length ≤ target) := by
  have limit := maxHeap_eq
  have bounds := represents.framed.laid.bounds live.1
  refine ⟨fun index below => (represents.framed.payload_iff live.1).mpr
    ⟨block.off + index, by omega, by omega, by omega⟩, ?_⟩
  cases Nat.decEq length 0 with
  | isTrue zero => exact .inl zero
  | isFalse nonzero =>
      right
      have whole : length + 24 ≤ 2 ^ 32 := by omega
      have enough := blockSize_ge whole
      cases result : layout.malloc (blockSize length) with
      | none =>
          have failed := represents.malloc_refused valid (by decide) nonzero result
          exact nomatch failed.symm.trans allocated
      | some pair =>
          obtain ⟨off, next⟩ := pair
          obtain ⟨valid', gained, rfl, longer, gains⟩ := valid.malloc (by decide) (by decide)
            (by omega) (blockSize_aligned length) result
          obtain ⟨_, run, place, _⟩ :=
            represents.malloc valid (by decide) nonzero (by omega) result
          obtain rfl := Except.ok.inj (run.symm.trans allocated)
          have apart := gains.apart valid'.laid live
          dsimp only at place
          omega

theorem Represents.reallocCopy_live (represents : Represents state layout none)
    (valid : layout.Valid least) (positive : 0 < least) (live : block ∈ liveOf layout.blocks)
    (nonzero : bytes ≠ 0) :
    (state.MustMove (state.heap + block.off) bytes →
      Malloc.reallocCopy state (state.heap + block.off) bytes = moveCopy state (u32 bytes)) ∧
    (¬ state.MustMove (state.heap + block.off) bytes →
      Malloc.reallocCopy state (state.heap + block.off) bytes = .ok none) := by
  obtain ⟨front, back, whole, _⟩ := valid.splitAt positive live.1
  obtain ⟨blocks, bins, top⟩ := layout
  simp only at whole
  subst whole
  exact represents.reallocCopy nonzero

/-- Where the layout has room, `malloc` returns, be the request truncated or not. -/
theorem Represents.malloc_returns (represents : Represents state layout none)
    (valid : layout.Valid 16) (nonzero : bytes ≠ 0)
    (available : layout.malloc (blockSize bytes) ≠ none) :
    Returns (Malloc.malloc state bytes) fun _ => True := by
  cases Nat.decLt (blockSize bytes) 16 with
  | isTrue short => exact represents.malloc_truncated valid (by decide) nonzero short available
  | isFalse enough =>
      obtain ⟨⟨new, next⟩, result⟩ := Option.ne_none_iff_exists'.mp available
      exact (represents.malloc valid (by decide) nonzero (Nat.le_of_not_lt enough) result).mono
        fun _ _ => trivial

/-- A copy that is not short reads past the old payload. -/
theorem Represents.noLongCopy (represents : Represents state layout none)
    (valid : layout.Valid 16) (live : block ∈ liveOf layout.blocks) (nonzero : bytes ≠ 0)
    (owned : CopiesOwned state (state.heap + block.off) bytes) :
    NoLongCopy state block.off bytes := by
  have bounds := valid.laid.bounds live.1
  have capacity := represents.capacity live.1
  rw [metaSize_eq] at capacity
  have moving := (represents.reallocCopy_live valid (by decide) live nonzero).1
  by_contra long
  obtain ⟨_, long⟩ := not_or.mp long
  obtain ⟨moves, long⟩ := not_or.mp long
  obtain ⟨granted, long⟩ := not_or.mp long
  have some : u32 bytes ≠ 0 := by omega
  have available : layout.malloc (blockSize (u32 bytes)) ≠ none := fun result => granted
    ⟨some, (represents.exhausted_iff valid (by decide) (blockSize_lt _)).mpr result⟩
  obtain ⟨⟨target, given⟩, run, _⟩ := represents.malloc_returns valid some available
  have copied := (moving (not_not.mp moves)).trans (moveCopy_eq_some_iff.mpr ⟨run, rfl⟩)
  have inside := (owned given target (u32 bytes) copied).1 (state.capacity block.off) (by omega)
  obtain ⟨byte, place, _, high⟩ := (represents.framed.payload_iff live.1).mp inside
  omega

/-- The copy of `realloc` stays within the old block exactly where it is no
longer than that. -/
theorem realloc_copies_owned_iff {region : State} {calls : List Call}
    {outputs : List (Option Nat)} {session : Session} (mapped : Mapped region)
    (reaches : Reaches (Call.Sized 16) region calls outputs session) {off : Nat}
    (holds : session.Holds off) (size : UInt64) :
    CopiesOwned session.state (session.state.heap + off) size.toNat ↔
      NoLongCopy session.state off size.toNat := by
  obtain ⟨layout, _, tracks, _⟩ := reaches.tracks mapped (by decide) (by decide)
  have represents := tracks.represents
  have valid := tracks.valid
  obtain ⟨block, live, rfl⟩ := tracks.live.mp holds
  have bounds := valid.laid.bounds live.1
  have capacity := represents.capacity live.1
  rw [metaSize_eq] at capacity
  generalize size.toNat = bytes
  cases Nat.decEq bytes 0 with
  | isTrue zero =>
      have nothing : reallocCopy session.state (session.state.heap + block.off) bytes = .ok none :=
        if_pos zero
      exact ⟨fun _ => .inl zero, fun _ given target length copied =>
        nomatch nothing.symm.trans copied⟩
  | isFalse nonzero =>
      obtain ⟨moving, staying⟩ := represents.reallocCopy_live valid (by decide) live nonzero
      constructor
      · exact represents.noLongCopy valid live nonzero
      · intro short given target length copied
        by_cases moves : session.state.MustMove (session.state.heap + block.off) bytes
        case neg => exact nomatch (staying moves).symm.trans copied
        case pos =>
          rw [moving moves] at copied
          obtain ⟨allocated, rfl⟩ := moveCopy_eq_some_iff.mp copied
          rcases short with zero | stays | ⟨some, exhausted⟩ | fits
          · exact absurd zero nonzero
          · exact absurd moves stays
          · have failed := represents.malloc_exhausted valid (by decide) some exhausted
            exact nomatch failed.symm.trans allocated
          · exact represents.moveCopy_owned valid live (by omega) allocated

theorem realloc_copies_owned_truncated : ∃ session,
    Reaches (Call.Sized 16) sampleRegion [.malloc 8] [some 32] session ∧
      CopiesOwned session.state (session.state.heap + 32) 4294967300 := by
  obtain ⟨session, reaches⟩ := Reaches.of_outputs sampleRegion_mapped
    (by decide +kernel : (Run.exec (Run.guarded Session.step (Allowed (Call.Sized 16))) _
      [.malloc 8]).map Prod.snd = some [some 32])
  obtain ⟨layout, run, tracks, _⟩ := reaches.tracks sampleRegion_mapped (by decide) (by decide)
  have result : Run Layout.step (fun _ _ => True) .empty [.malloc 8] [some 32]
      ⟨[⟨32, 24, true⟩], fun _ => [], 56⟩ := Run.of_exec rfl
  obtain ⟨_, rfl⟩ := run.deterministic result
  have inside : (⟨32, 24, true⟩ : Block) ∈ [(⟨32, 24, true⟩ : Block)] := List.mem_cons_self
  have capacity := tracks.represents.capacity inside
  have holds : session.Holds 32 := tracks.live.mpr ⟨_, ⟨inside, rfl⟩, rfl⟩
  have short : u32 (4294967300 : UInt64).toNat ≤ session.state.capacity 32 := by
    rw [capacity]
    decide
  exact ⟨session, reaches, (realloc_copies_owned_iff sampleRegion_mapped reaches holds
    4294967300).mpr (.inr (.inr (.inr short)))⟩

/-- Growing a block of 8 bytes at the end of the heap to 100 bytes copies 100
bytes, over the heap's end and onto themselves. -/
theorem realloc_copies_beyond_block : ∃ session given,
    Reaches (Call.Sized 16) sampleRegion [.malloc 8] [some 32] session ∧
      reallocCopy session.state (session.state.heap + 32) 100 =
        .ok (some (given, session.state.heap + 56, 100)) ∧
      ¬ CopiesOwned session.state (session.state.heap + 32) 100 := by
  obtain ⟨session, reaches⟩ := Reaches.of_outputs sampleRegion_mapped
    (by decide +kernel : (Run.exec (Run.guarded Session.step (Allowed (Call.Sized 16))) _
      [.malloc 8]).map Prod.snd = some [some 32])
  obtain ⟨layout, run, tracks, _⟩ := reaches.tracks sampleRegion_mapped (by decide) (by decide)
  have result : Run Layout.step (fun _ _ => True) .empty [.malloc 8] [some 32]
      ⟨[⟨32, 24, true⟩], fun _ => [], 56⟩ := Run.of_exec rfl
  obtain ⟨_, rfl⟩ := run.deterministic result
  have represents : Represents session.state ⟨[] ++ ⟨32, 24, true⟩ :: [], fun _ => [], 56⟩ none :=
    tracks.represents
  have moves : session.state.MustMove (session.state.heap + 32) 100 :=
    represents.mustMove_iff.mpr ⟨by decide, by simp [TakesNext]⟩
  have copy : reallocCopy session.state (session.state.heap + 32) 100 =
      moveCopy session.state 100 := (represents.reallocCopy (by decide)).1 moves
  obtain ⟨⟨target, given⟩, allocated, place, _⟩ := represents.malloc tracks.valid (by decide)
    (by decide : 100 ≠ 0) (by decide) (rfl : Layout.malloc _ (blockSize 100) = some (56, _))
  have copied : reallocCopy session.state (session.state.heap + 32) 100 =
      .ok (some (given, session.state.heap + 56, 100)) := by
    rw [copy, moveCopy, allocated, ← place]
    rfl
  refine ⟨session, given, reaches, copied, fun owned => ?_⟩
  have read := (owned _ _ _ copied).1 8 (by decide)
  have inside : (⟨32, 24, true⟩ : Block) ∈ [(⟨32, 24, true⟩ : Block)] := List.mem_cons_self
  obtain ⟨byte, place, _, high⟩ := (tracks.represents.framed.payload_iff inside).mp read
  dsimp only at place high
  omega

end OsPractices.Malloc
