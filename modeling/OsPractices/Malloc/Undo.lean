import OsPractices.Malloc.Requests

/-!
# Undoing an allocation

A block from a free list, given back at once. No free block has a free
neighbour, so `free` finds nothing to merge with but the remnant that `malloc`
has cut off.
-/

set_option autoImplicit false

namespace OsPractices.Malloc

open Library

variable {state later last : State} {layout next : Layout} {front back : List Block}
  {block succ : Block} {bins : Bins} {top least size off : Nat}

/-! ## On layouts -/

theorem absorbPrev_busy (busy : ∀ prev ∈ front.getLast?, prev.used = true) :
    (Layout.absorbPrev front block bins).1 = front ++ [block] := by
  unfold Layout.absorbPrev
  cases found : front.getLast? with
  | none =>
      rw [List.getLast?_eq_none_iff.mp found]
      rfl
  | some prev =>
      have used := busy prev found
      simp only [used, if_true]

/-- Between two blocks that are in use nothing is merged. -/
theorem releaseBetween_alone (before : ∀ prev ∈ front.getLast?, prev.used = true)
    (behind : ∀ other ∈ back.head?, other.used = true) :
    (Layout.releaseBetween front block back bins top).blocks =
      front ++ ⟨block.off, block.size, false⟩ :: back := by
  have merged : Layout.absorbNext { block with used := false } (bins.push block) back =
      ({ block with used := false }, back, bins.push block) := by
    cases back with
    | nil => rfl
    | cons other rest => exact if_pos (behind other rfl)
  unfold Layout.releaseBetween
  simp only [merged, absorbPrev_busy before, List.append_assoc, List.singleton_append]

/-- Behind a block that is in use only the free block behind is merged. -/
theorem releaseBetween_next (before : ∀ prev ∈ front.getLast?, prev.used = true)
    (free : succ.used = false) :
    (Layout.releaseBetween front block (succ :: back) bins top).blocks =
      front ++ ⟨block.off, block.size + succ.size, false⟩ :: back := by
  unfold Layout.releaseBetween Layout.absorbNext
  simp only [free, Bool.false_eq_true, if_false, absorbPrev_busy before, List.append_assoc,
    List.singleton_append, Block.join]

theorem Layout.Valid.release_split (valid : layout.Valid least) (positive : 0 < least)
    (split : layout.blocks = front ++ block :: back) :
    layout.release block.off = Layout.releaseBetween front block back layout.bins layout.top := by
  unfold Layout.release
  rw [valid.laid.locate_eq positive split]

/-- The neighbours of a free block are in use. -/
theorem Layout.Valid.neighbours (valid : layout.Valid least)
    (split : layout.blocks = front ++ block :: back) (free : block.used = false) :
    (∀ prev ∈ front.getLast?, prev.used = true) ∧ ∀ other ∈ back.head?, other.used = true := by
  obtain ⟨⟨_, before⟩, _, behind⟩ := settled_split.mp (split ▸ valid.settled)
  have busy : ¬ block.used = true := by simp [free]
  exact ⟨fun prev final => (before prev final).resolve_right busy,
    fun other head => (behind other head).resolve_left busy⟩

/-- `free` joins what `malloc` has cut, and nothing else. -/
theorem Layout.Valid.release_malloc (valid : layout.Valid least) (positive : 0 < least)
    (small : least ≤ 24) (enough : least ≤ size) (multiple : size % 8 = 0)
    (found : layout.fit size ≠ none) (result : layout.malloc size = some (off, next)) :
    (next.release off).blocks = layout.blocks := by
  obtain ⟨valid', _⟩ := valid.malloc positive small enough multiple result
  obtain ⟨candidate, fits⟩ := Option.ne_none_iff_exists'.mp found
  obtain ⟨block, member, free, rfl, large⟩ := valid.fit_some positive fits
  obtain ⟨front, back, split, located⟩ := valid.splitAt positive member
  obtain ⟨before, behind⟩ := valid.neighbours split free
  have isBlock : (⟨block.off, block.size, false⟩ : Block) = block := by rw [← free]
  unfold Layout.malloc at result
  simp only [fits, located, Option.map_some, Option.some.injEq, Prod.mk.injEq] at result
  obtain ⟨rfl, rfl⟩ := result
  rw [split]
  cases Nat.decLt (size + 16) block.size with
  | isTrue cut =>
      rw [placeBetween_cut cut] at valid' ⊢
      have whole : size + (block.size - size) = block.size := Nat.add_sub_cancel' large
      have joined := @releaseBetween_next front back ⟨block.off, size, true⟩
        ⟨block.off + size, block.size - size, false⟩
        ((layout.bins.remove block).push ⟨block.off + size, block.size - size, false⟩) layout.top
        before rfl
      rw [valid'.release_split positive rfl, joined, whole, isBlock]
  | isFalse tight =>
      rw [placeBetween_whole tight] at valid' ⊢
      rw [valid'.release_split positive rfl, releaseBetween_alone before behind, isBlock]

/-- The blocks determine the members of the lists. -/
theorem Bins.Lists.perm {others : Bins} {vacant : Set Block} (lists : bins.Lists vacant)
    (lists' : others.Lists vacant) (rank : Nat) : (bins rank).Perm (others rank) := by
  refine (List.perm_ext_iff_of_nodup (lists.nodup rank) (lists'.nodup rank)).mpr fun off => ?_
  rw [lists.mem_iff, lists'.mem_iff]

/-! ## On memory -/

/-- A block as `mm_checkheap` finds it. -/
structure Record where
  address : Nat
  size : Nat
  status : Nat

/-- The blocks of the heap in the order of their addresses. -/
def State.Blocks (state : State) (records : List Record) : Prop :=
  state.Chain (records.map Record.address) ∧
    ∀ record ∈ records, state.size record.address = .ok record.size ∧
      state.stat record.address = .ok record.status

/-- The same blocks, and the same members in every free list. -/
structure Restores (state state' : State) : Prop where
  blocks : ∃ records, state.Blocks records ∧ state'.Blocks records
  lists : ∀ rank < rankNum, ∃ ptrs others, state.ListOf rank ptrs ∧ state'.ListOf rank others ∧
    ptrs.Perm others

/-- `malloc` gets the block for a request from a free list. -/
def State.Listed (state : State) (bytes : Nat) : Prop :=
  bytes ≠ 0 ∧ ∃ ptr rank, ptr ≠ null ∧
    fitLoop state (blockSize bytes) rankNum (getRank (blockSize bytes)) = .ok (ptr, rank)

def State.record (state : State) (block : Block) : Record :=
  ⟨state.ptrOf block, block.size, block.status⟩

theorem Represents.blocks (represents : Represents state layout none) :
    state.Blocks (layout.blocks.map state.record) := by
  refine ⟨?_, fun record inside => ?_⟩
  · rw [List.map_map]
    exact represents.chain
  · obtain ⟨block, member, rfl⟩ := List.mem_map.mp inside
    exact ⟨represents.framed.size member (by simp), represents.framed.stat member (by simp)⟩

theorem Represents.listed_iff (represents : Represents state layout none) {bytes : Nat} :
    state.Listed bytes ↔ bytes ≠ 0 ∧ layout.fit (blockSize bytes) ≠ none := by
  obtain ⟨rank, search, _⟩ := represents.fitLoop (blockSize bytes)
    (getRank_lt (blockSize bytes)) (by omega : 3 ≤ getRank (blockSize bytes) + 3)
  change Malloc.fitLoop state (blockSize bytes) rankNum (getRank (blockSize bytes)) =
    .ok (((layout.fit (blockSize bytes)).map (state.heap + ·)).getD null, rank) at search
  refine and_congr_right fun _ => ⟨fun listed missed => ?_, fun found => ?_⟩
  · obtain ⟨ptr, rank', notNull, run⟩ := listed
    rw [missed] at search
    exact notNull (congrArg Prod.fst (Except.ok.inj (run.symm.trans search)))
  · obtain ⟨off, fits⟩ := Option.ne_none_iff_exists'.mp found
    rw [fits] at search
    exact ⟨_, rank, represents.framed.ready.toMapped.ne_null, search⟩

theorem Represents.restores {state' : State} (represents : Represents state layout none)
    (represents' : Represents state' next none) (valid : layout.Valid least)
    (valid' : next.Valid least) (same : next.blocks = layout.blocks)
    (heap : state'.heap = state.heap) : Restores state state' := by
  refine ⟨⟨_, represents.blocks, ?_⟩, fun rank small => ?_⟩
  · have records : next.blocks.map state'.record = layout.blocks.map state.record := by
      rw [same]
      exact List.map_congr_left fun block _ => by simp only [State.record, State.ptrOf, heap]
    exact records ▸ represents'.blocks
  · rw [rankNum_eq] at small
    have lists := same ▸ valid'.lists
    have listOf := represents'.listOf small
    rw [heap] at listOf
    exact ⟨_, _, represents.listOf small, listOf, (valid.lists.perm lists rank).map _⟩

/-- `free` undoes a `malloc` that is satisfied from a free list. -/
theorem free_undoes_malloc {region : State} {calls : List Call} {outputs : List (Option Nat)}
    {session : Session} (mapped : Mapped region)
    (reaches : Reaches (Call.Sized 16) region calls outputs session) {bytes : Nat}
    (sized : Sized 16 bytes) (listed : session.state.Listed bytes) :
    ∃ ptr later last, Malloc.malloc session.state bytes = .ok (ptr, later) ∧
      Malloc.free later ptr = .ok last ∧ Restores session.state last := by
  obtain ⟨layout, _, tracks, _⟩ := reaches.tracks mapped (by decide) (by decide)
  obtain ⟨represents, valid, _⟩ := tracks
  obtain ⟨nonzero, found⟩ := represents.listed_iff.mp listed
  have enough : 16 ≤ blockSize bytes := sized.resolve_left nonzero
  have multiple := blockSize_aligned bytes
  obtain ⟨⟨off, next⟩, allocated⟩ : ∃ given, layout.malloc (blockSize bytes) = some given := by
    refine Option.ne_none_iff_exists'.mp fun refused => found ?_
    exact ((valid.malloc_none (by decide)).mp refused).1
  have restored := valid.release_malloc (by decide) (by decide) enough multiple found allocated
  obtain ⟨valid', block, rfl, _, gains⟩ :=
    valid.malloc (by decide) (by decide) enough multiple allocated
  have live : block ∈ liveOf next.blocks := gains.live ▸ Set.mem_insert _ _
  obtain ⟨⟨ptr, later⟩, run, rfl, yields⟩ :=
    represents.malloc valid (by decide) nonzero enough allocated
  obtain ⟨last, freed, yields'⟩ := yields.represents.free valid' (by decide) live
  have heap : last.heap = session.state.heap := yields'.heap.trans yields.heap
  rw [yields.heap] at freed
  exact ⟨_, later, last, run, freed, represents.restores yields'.represents valid
    (valid'.release (by decide) live).1 restored heap⟩

/-- A free block of 120 bytes before a block in use. -/
def sampleLayout : Layout :=
  ⟨[⟨32, 120, false⟩, ⟨152, 24, true⟩], Bins.push (fun _ => []) ⟨32, 120, true⟩, 176⟩

theorem sampleLayout_run : Run Layout.step (fun _ _ => True) .empty
    [.malloc 100, .malloc 8, .free (some 32)] [some 32, some 152] sampleLayout :=
  Run.of_exec rfl

theorem Tracks.listed_sample {session : Session} (tracks : Tracks 16 session sampleLayout)
    {bytes : Nat} (nonzero : bytes ≠ 0) (fits : blockSize bytes ≤ 120) :
    session.state.Listed bytes := by
  refine tracks.represents.listed_iff.mpr ⟨nonzero, fun missed => ?_⟩
  have short := (tracks.valid.fit_none (by decide)).mp missed ⟨32, 120, false⟩
    ⟨List.mem_cons_self, rfl⟩
  exact absurd short (Nat.not_lt.mpr fits)

theorem free_undoes_malloc_split : ∃ session ptr later last,
    Reaches (Call.Sized 16) sampleRegion [.malloc 100, .malloc 8, .free (some 32)]
      [some 32, some 152] session ∧ Malloc.malloc session.state 50 = .ok (ptr, later) ∧
      Malloc.free later ptr = .ok last ∧ Restores session.state last := by
  obtain ⟨session, reaches⟩ := Reaches.of_outputs sampleRegion_mapped
    (by decide +kernel : (Run.exec (Run.guarded Session.step (Allowed (Call.Sized 16))) _
      [.malloc 100, .malloc 8, .free (some 32)]).map Prod.snd = some [some 32, some 152])
  obtain ⟨layout, run, tracks, _⟩ := reaches.tracks sampleRegion_mapped (by decide) (by decide)
  obtain ⟨_, rfl⟩ := run.deterministic sampleLayout_run
  have listed : session.state.Listed 50 := tracks.listed_sample (by decide) (by decide)
  obtain ⟨ptr, later, last, undone⟩ := free_undoes_malloc sampleRegion_mapped reaches
    (.inr (by decide)) listed
  exact ⟨session, ptr, later, last, reaches, undone⟩

/-- `SIZE` of a block after `malloc` and `free`. -/
def sizeAfter (state : State) (bytes block : Nat) : Except Fault Nat := do
  let (ptr, state) ← Malloc.malloc state bytes
  let state ← Malloc.free state ptr
  state.size block

theorem Restores.sizeAfter {ptr bytes size found : Nat} (restores : Restores state last)
    (allocated : Malloc.malloc state bytes = .ok (ptr, later))
    (freed : Malloc.free later ptr = .ok last) {blocks : List Nat} (chain : state.Chain blocks)
    {address : Nat} (onChain : address ∈ blocks) (before : state.size address = .ok size)
    (after : Malloc.sizeAfter state bytes address = .ok found) : found = size := by
  obtain ⟨records, ⟨chain', reads⟩, _, reads'⟩ := restores.blocks
  obtain rfl := chain.eq chain'
  obtain ⟨record, inside, rfl⟩ := List.mem_map.mp onChain
  unfold Malloc.sizeAfter at after
  rw [allocated, ok_bind] at after
  dsimp only at after
  rw [freed, ok_bind, (reads' record inside).1] at after
  rw [(reads record inside).1] at before
  exact (Except.ok.inj after).symm.trans (Except.ok.inj before)

/-- `malloc(2^32 - 16)` takes a free block of 120 bytes, and `free` leaves one
without a size. -/
theorem truncated_malloc_not_undone : ¬ ∀ calls outputs session bytes,
    Reaches (fun _ => True) sampleRegion calls outputs session → session.state.Listed bytes →
    ∃ ptr later last, Malloc.malloc session.state bytes = .ok (ptr, later) ∧
      Malloc.free later ptr = .ok last ∧ Restores session.state last := by
  intro undoes
  have executed : (Run.exec (Run.guarded Session.step (Allowed (Call.Sized 16)))
      ⟨(memResetBrk sampleRegion).opened, []⟩
      [.malloc 100, .malloc 8, .free (some 32)]).map (fun (session, outputs) =>
        (outputs, (sizeAfter session.state 4294967280 4128).toOption)) =
      some ([some 32, some 152], some 0) := by
    decide +kernel
  obtain ⟨⟨session, outputs⟩, ends, given⟩ := Option.map_eq_some_iff.mp executed
  obtain ⟨rfl, after⟩ := Prod.mk.inj given
  have reaches : Reaches (Call.Sized 16) sampleRegion [.malloc 100, .malloc 8, .free (some 32)]
      [some 32, some 152] session :=
    ⟨_, mmInit_opens sampleRegion_mapped rfl, Run.of_exec_guarded ends⟩
  obtain ⟨layout, run, tracks, heap⟩ := reaches.tracks sampleRegion_mapped (by decide) (by decide)
  obtain ⟨_, rfl⟩ := run.deterministic sampleLayout_run
  have listed : session.state.Listed 4294967280 := tracks.listed_sample (by decide) (by decide)
  obtain ⟨ptr, later, last, allocated, freed, restores⟩ :=
    undoes _ _ session _ (reaches.mono fun _ _ => trivial) listed
  have address : session.state.ptrOf ⟨32, 120, false⟩ = 4128 := by
    rw [State.ptrOf, heap]
    rfl
  have before := tracks.represents.framed.size List.mem_cons_self (by simp)
  change session.state.size (session.state.ptrOf ⟨32, 120, false⟩) = .ok 120 at before
  rw [address] at before
  have onChain : 4128 ∈ sampleLayout.blocks.map session.state.ptrOf :=
    address ▸ List.mem_map_of_mem List.mem_cons_self
  exact absurd (restores.sizeAfter allocated freed tracks.represents.chain onChain before
    (eq_ok_of_toOption after)) (by decide)

end OsPractices.Malloc
