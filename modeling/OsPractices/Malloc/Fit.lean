import OsPractices.Malloc.Requests

/-!
# The segregated search

The search over the lists from the request's rank up, first fit in each, is a
search of the whole heap: it fails only where no free block fits, and what it
finds is in the lowest list that holds a fitting block.
-/

set_option autoImplicit false

namespace OsPractices.Malloc

open Library

variable {state : State} {layout : Layout} {least size : Nat} {session : Session}

/-- The first hit of a search list by list is in the first list with a hit. -/
theorem find_flatMap_lowest {lists : Nat → List Nat} {test : Nat → Bool} {start count off : Nat}
    (found : ((List.range' start count).flatMap lists).find? test = some off) :
    ∃ rank < start + count, (lists rank).find? test = some off ∧
      ∀ lower < rank, start ≤ lower → ∀ other ∈ lists lower, ¬ test other := by
  rw [List.find?_flatMap, List.findSome?_eq_some_iff] at found
  obtain ⟨front, rank, back, whole, hit, missed⟩ := found
  have sorted : (front ++ rank :: back).Pairwise (· < ·) := whole ▸ List.pairwise_lt_range'
  have inRange : ∀ other, other ∈ front ++ rank :: back ↔ start ≤ other ∧ other < start + count :=
    fun other => whole ▸ List.mem_range'_1
  refine ⟨rank, ((inRange rank).mp (by simp)).2, hit, fun lower below above other inList => ?_⟩
  have searched : lower ∈ front ++ rank :: back :=
    (inRange lower).mpr ⟨above, below.trans ((inRange rank).mp (by simp)).2⟩
  have before : lower ∈ front := by
    cases List.mem_append.mp searched with
    | inl inFront => exact inFront
    | inr inBack =>
        cases inBack with
        | head => exact absurd below (Nat.lt_irrefl _)
        | tail _ later =>
            have behind := (List.pairwise_cons.mp (List.pairwise_append.mp sorted).2.1).1 lower later
            exact absurd below (Nat.lt_asymm behind)
  exact List.find?_eq_none.mp (missed lower before) other inList

/-- The block at `ptr` is the first fitting one of the lowest list that holds
a fitting block. -/
def State.LowestFit (state : State) (size ptr : Nat) : Prop :=
  ∃ rank < rankNum, (∃ front back, state.ListOf rank (front ++ ptr :: back) ∧
      ∀ other ∈ front, ∀ found, state.size other = .ok found → found < size) ∧
    (∃ found, state.size ptr = .ok found ∧ size ≤ found) ∧
    ∀ lower < rank, ∀ entries, state.ListOf lower entries →
      ∀ other ∈ entries, ∀ found, state.size other = .ok found → found < size

theorem State.ListOf.eq {rank : Nat} {ptrs others : List Nat} (left : state.ListOf rank ptrs)
    (right : state.ListOf rank others) : ptrs = others :=
  Except.ok.inj (left.2.1.symm.trans right.2.1)

theorem Represents.lowestFit (represents : Represents state layout none)
    (valid : layout.Valid least) (positive : 0 < least) {off : Nat}
    (found : layout.fit size = some off) : state.LowestFit size (state.heap + off) := by
  have framed := represents.framed
  -- a listed pointer is the block of its list entry
  have entry : ∀ {rank : Nat} {ptr : Nat}, ptr ∈ (layout.bins rank).map (state.heap + ·) →
      ∃ block ∈ layout.blocks, block.off ∈ layout.bins rank ∧ ptr = state.heap + block.off ∧
        getRank block.size = rank ∧ state.size ptr = .ok block.size := by
    intro rank ptr listed
    obtain ⟨off, inList, rfl⟩ := List.mem_map.mp listed
    obtain ⟨block, ⟨inside, _⟩, rfl, isRank⟩ := (valid.lists.mem_iff rank off).mp inList
    exact ⟨block, inside, inList, rfl, isRank, framed.size inside (by simp)⟩
  obtain ⟨rank, bound, hit, missed⟩ := find_flatMap_lowest found
  have small : rank < 3 := by
    have := getRank_lt size
    omega
  obtain ⟨fits, front, back, whole, before⟩ := List.find?_eq_some_iff_append.mp hit
  have listOf := represents.listOf small
  have inList : state.heap + off ∈ (layout.bins rank).map (state.heap + ·) := by
    rw [whole]
    simp
  obtain ⟨block, inside, _, place, _, readSize⟩ := entry inList
  obtain rfl := Nat.add_left_cancel place
  refine ⟨rank, by rw [rankNum_eq]; exact small,
    ⟨front.map (state.heap + ·), back.map (state.heap + ·), ?_, ?_⟩, ⟨block.size, readSize, ?_⟩, ?_⟩
  · rw [whole, List.map_append, List.map_cons] at listOf
    exact listOf
  · intro other inFront size' read
    obtain ⟨off', inFront', rfl⟩ := List.mem_map.mp inFront
    have listed : state.heap + off' ∈ (layout.bins rank).map (state.heap + ·) := by
      rw [whole]
      simp [inFront']
    obtain ⟨block', inside', _, place', _, readSize'⟩ := entry listed
    obtain rfl := Nat.add_left_cancel place'
    obtain rfl := Except.ok.inj (readSize'.symm.trans read)
    have unfit := before block'.off inFront'
    rw [valid.sizeOf_eq positive inside'] at unfit
    simpa using unfit
  · rw [valid.sizeOf_eq positive inside] at fits
    simpa using fits
  · intro lower below entries entriesOf other inEntries size' read
    obtain rfl := entriesOf.eq (represents.listOf (below.trans small))
    obtain ⟨block', inside', inBin, rfl, isRank, readSize'⟩ := entry inEntries
    obtain rfl := Except.ok.inj (readSize'.symm.trans read)
    cases Nat.decLt lower (getRank size) with
    | isTrue unsearched =>
        by_contra fits'
        have order := getRank_mono (Nat.le_of_not_lt fits')
        omega
    | isFalse searched =>
        have unfit := missed lower below (Nat.le_of_not_lt searched) block'.off inBin
        rw [valid.sizeOf_eq positive inside'] at unfit
        simpa using unfit

theorem Layout.malloc_top {next : Layout} {off : Nat}
    (result : layout.malloc size = some (off, next)) :
    match layout.fit size with
    | some found => off = found ∧ next.top = layout.top
    | none => off = layout.top ∧ next.top = layout.top + size := by
  unfold Layout.malloc at result
  cases found : layout.fit size with
  | some candidate =>
      simp only [found, Option.map_eq_some_iff] at result
      obtain ⟨⟨front, block, back⟩, _, given⟩ := result
      cases given
      exact ⟨rfl, rfl⟩
  | none =>
      simp only [found] at result
      split at result
      case isTrue =>
        cases result
        exact ⟨rfl, rfl⟩
      case isFalse => cases result

theorem blockSize_of_small {bytes : Nat} (small : bytes + 24 ≤ 2 ^ 32) :
    blockSize bytes = align (bytes + metaSize) := by
  unfold blockSize u32 align u64
  simp only [metaSize_eq, alignment]
  omega

/-- `malloc` lets the heap grow exactly where no free block of the whole heap fits, and
otherwise takes a block of the lowest list that holds a fitting one. -/
def State.SearchesAll (state : State) (size : Nat) : Prop :=
  ∃ ptr later, Malloc.malloc state size = .ok (ptr, later) ∧
    (later.memBrk ≠ state.memBrk ↔ state.NoFit (align (size + metaSize))) ∧
    (state.NoFit (align (size + metaSize)) →
      later.memBrk = state.memBrk + align (size + metaSize)) ∧
    (¬ state.NoFit (align (size + metaSize)) →
      later.memBrk = state.memBrk ∧ state.LowestFit (align (size + metaSize)) ptr)

/-- It does so wherever the heap can grow if it has to. -/
theorem malloc_search_complete_iff {region : State} {calls : List Call}
    {outputs : List (Option Nat)} {session : Session} (mapped : Mapped region)
    (reaches : Reaches (Call.Sized 16) region calls outputs session) {size : Nat}
    (positive : 0 < size) (small : size < 2 ^ 31 - 24) :
    session.state.SearchesAll size ↔ ¬ session.state.Exhausted (align (size + metaSize)) := by
  obtain ⟨layout, _, tracks, _⟩ := reaches.tracks mapped (by decide) (by decide)
  have represents := tracks.represents
  have nonzero : size ≠ 0 := Nat.pos_iff_ne_zero.mp positive
  have representable : size + 24 ≤ 2 ^ 32 := by omega
  have enough := blockSize_ge representable
  have noFit := @Represents.noFit_iff _ _ _ represents tracks.valid (by decide) (blockSize size)
  unfold State.SearchesAll
  rw [← blockSize_of_small representable]
  constructor
  · intro ⟨ptr, later, run, _⟩ exhausted
    rw [represents.malloc_exhausted tracks.valid (by decide) nonzero exhausted] at run
    cases run
  intro granted
  cases allocated : layout.malloc (blockSize size) with
  | none =>
      exact absurd ((represents.exhausted_iff tracks.valid (by decide) (blockSize_lt size)).mpr
        allocated) granted
  | some given =>
      obtain ⟨off, next⟩ := given
      obtain ⟨⟨ptr, later⟩, run, rfl, yields⟩ := represents.malloc tracks.valid (by decide)
        nonzero (by omega) allocated
      have before := represents.framed.brk
      have after : later.memBrk = later.heap + next.top := yields.represents.framed.brk
      have heap : later.heap = session.state.heap := yields.heap
      have moved := Layout.malloc_top allocated
      refine ⟨_, later, run, ?_⟩
      cases found : layout.fit (blockSize size) with
      | none =>
          rw [found] at moved
          have grown : later.memBrk = session.state.memBrk + blockSize size := by
            rw [after, heap, moved.2, before, Nat.add_assoc]
          have none := noFit.mpr found
          refine ⟨⟨fun _ => none, fun _ => by omega⟩, fun _ => grown, fun fits => absurd none fits⟩
      | some candidate =>
          rw [found] at moved
          obtain ⟨rfl, sameTop⟩ := moved
          have same : later.memBrk = session.state.memBrk := by
            rw [after, heap, sameTop, before]
          have fits : ¬ session.state.NoFit (blockSize size) := fun none =>
            nomatch (noFit.mp none).symm.trans found
          exact ⟨⟨fun grown => absurd same grown, fun none => absurd none fits⟩,
            fun none => absurd none fits,
            fun _ => ⟨same, represents.lowestFit tracks.valid (by decide) found⟩⟩

theorem malloc_search_complete_iff_reuse : ∃ session ptr later,
    Reaches (Call.Sized 16) sampleRegion [.malloc 100, .malloc 8, .free (some 32)]
      [some 32, some 152] session ∧
    Malloc.malloc session.state 50 = .ok (ptr, later) ∧
      later.memBrk = session.state.memBrk ∧ session.state.LowestFit 72 ptr := by
  obtain ⟨session, reaches⟩ := Reaches.of_outputs sampleRegion_mapped
    (by decide +kernel : (Run.exec (Run.guarded Session.step (Allowed (Call.Sized 16))) _
      [.malloc 100, .malloc 8, .free (some 32)]).map Prod.snd = some [some 32, some 152])
  obtain ⟨layout, run, tracks, _⟩ := reaches.tracks sampleRegion_mapped (by decide) (by decide)
  have result : Run Layout.step (fun _ _ => True) .empty
      [.malloc 100, .malloc 8, .free (some 32)] [some 32, some 152]
      ⟨[⟨32, 120, false⟩, ⟨152, 24, true⟩], Bins.push (fun _ => []) ⟨32, 120, true⟩, 176⟩ :=
    Run.of_exec rfl
  obtain ⟨_, rfl⟩ := run.deterministic result
  have needed : align (50 + metaSize) = 72 := by decide
  have fits : ¬ session.state.NoFit (align (50 + metaSize)) := by
    rw [needed, tracks.represents.noFit_iff tracks.valid (by decide),
      tracks.valid.fit_none (by decide)]
    intro short
    exact absurd (short ⟨32, 120, false⟩ ⟨List.mem_cons_self, rfl⟩) (by decide)
  obtain ⟨ptr, later, run, _, _, found⟩ := (malloc_search_complete_iff sampleRegion_mapped reaches
    (by decide : 0 < 50) (by decide)).mpr fun exhausted => fits exhausted.noFit
  obtain ⟨same, lowest⟩ := found fits
  exact ⟨session, ptr, later, reaches, run, same, needed ▸ lowest⟩

/-- The first block is free and has room for `malloc(8)`, and yet the heap grows. -/
def growsBeside (state : State) : Except Fault Bool := do
  let walk ← Malloc.heapWalk state maxHeap (firstBlock state)
  let size ← state.size (state.heap + 32)
  let status ← state.stat (state.heap + 32)
  let (_, later) ← Malloc.malloc state 8
  pure (decide (walk = ([state.heap + 32, state.heap + 56, state.heap + 80], epiBdrPtr state) ∧
    size = 24 ∧ status = unused ∧ later.memBrk ≠ state.memBrk))

/-- `malloc(2^32 - 8)` makes a block of 8 bytes, whose two links are one word. Once
it is free, the list ends behind it and the block that was freed before is lost. -/
theorem truncated_block_hides_free : ∃ session ptr later,
    Reaches (fun _ => True) sampleRegion
      [.malloc 8, .malloc 8, .malloc 4294967288, .free (some 32), .free (some 80)]
      [some 32, some 56, some 80] session ∧
    ¬ session.state.NoFit (align (8 + metaSize)) ∧
    Malloc.malloc session.state 8 = .ok (ptr, later) ∧ later.memBrk ≠ session.state.memBrk ∧
    ¬ session.state.SearchesAll 8 := by
  have executed : (Run.exec (Run.guarded Session.step (Allowed fun _ => True))
      ⟨(memResetBrk sampleRegion).opened, []⟩
      [.malloc 8, .malloc 8, .malloc 4294967288, .free (some 32), .free (some 80)]).map
        (fun (session, outputs) => (outputs, (growsBeside session.state).toOption)) =
      some ([some 32, some 56, some 80], some true) := by
    decide +kernel
  obtain ⟨⟨session, outputs⟩, ends, given⟩ := Option.map_eq_some_iff.mp executed
  simp only [Prod.mk.injEq] at given
  obtain ⟨rfl, grown⟩ := given
  have reaches : Reaches (fun _ => True) sampleRegion _ _ session :=
    ⟨_, mmInit_opens sampleRegion_mapped rfl, Run.of_exec_guarded ends⟩
  obtain ⟨walk, walked, grown⟩ := bind_eq_ok_iff.mp (eq_ok_of_toOption grown)
  obtain ⟨size, readSize, grown⟩ := bind_eq_ok_iff.mp grown
  obtain ⟨status, readStatus, grown⟩ := bind_eq_ok_iff.mp grown
  obtain ⟨⟨ptr, later⟩, allocated, values⟩ := bind_eq_ok_iff.mp grown
  obtain ⟨rfl, rfl, rfl, differ⟩ := of_decide_eq_true (Except.ok.inj values)
  have fits : ¬ session.state.NoFit (align (8 + metaSize)) := by
    intro none
    have short := none _ walked _ List.mem_cons_self readStatus _ readSize
    exact absurd short (by decide)
  refine ⟨session, ptr, later, reaches, fits, allocated, differ, ?_⟩
  rintro ⟨ptr', later', again, grows, _⟩
  obtain rfl : later = later' := congrArg Prod.snd (Except.ok.inj (allocated.symm.trans again))
  exact fits (grows.mp differ)

/-- Where `mem_sbrk` refuses, no block fits and yet the heap does not grow either. -/
theorem refused_request_grows_nothing : ∃ session, Reaches (Call.Sized 16) sampleRegion [] []
    session ∧ session.state.NoFit (align (104857600 + metaSize)) ∧
      ¬ ∃ ptr later, Malloc.malloc session.state 104857600 = .ok (ptr, later) ∧
        later.memBrk = session.state.memBrk + align (104857600 + metaSize) := by
  obtain ⟨session, reaches⟩ := Reaches.of_outputs sampleRegion_mapped
    (by decide +kernel : (Run.exec (Run.guarded Session.step (Allowed (Call.Sized 16))) _
      []).map Prod.snd = some [])
  obtain ⟨layout, run, tracks, _⟩ := reaches.tracks sampleRegion_mapped (by decide) (by decide)
  obtain ⟨_, rfl⟩ := run.deterministic .nil
  have exhausted := start_exhausted tracks (by decide) (by decide : maxHeap < blockSize 104857600)
  have failed := tracks.represents.malloc_exhausted tracks.valid (by decide)
    (by decide : 104857600 ≠ 0) exhausted
  have needed : blockSize 104857600 = align (104857600 + metaSize) := by decide
  refine ⟨session, reaches, needed ▸ exhausted.noFit, ?_⟩
  rintro ⟨ptr, later, run, _⟩
  exact nomatch failed.symm.trans run

end OsPractices.Malloc
