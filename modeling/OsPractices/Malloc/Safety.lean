import OsPractices.Malloc.Session

/-!
# What the client and the heap checker see

The layout's invariant in the words of the package: payloads that nothing else
uses, a chain of blocks from the prologue to the epilogue, and free lists that
agree with it.
-/

set_option autoImplicit false

namespace OsPractices.Malloc

open Library

variable {state : State} {layout : Layout} {block : Block} {least : Nat} {session : Session}

/-! ## Payloads and the words around them -/

/-- The bytes from `ptr` to `ptr + SIZE(ptr) - 16`. -/
def State.Payload (state : State) (ptr byte : Nat) : Prop :=
  ∃ size, state.size ptr = .ok size ∧ ptr ≤ byte ∧ byte + metaSize < ptr + size

/-- The bytes of the header, the footer and the two links of a block. -/
def State.MetaByte (state : State) (ptr byte : Nat) : Prop :=
  ∃ word, (word = hdrPtr ptr ∨ word = nexPtr ptr ∨ state.ftrPtr ptr = .ok word ∨
    state.prePtr ptr = .ok word) ∧ word ≤ byte ∧ byte < word + wordSize

/-- The block chain: the blocks on the walk along `HEAP_NEXT` from the block
after the prologue, where this ends at the epilogue. -/
def State.Chain (state : State) (ptrs : List Nat) : Prop :=
  heapWalk state maxHeap (firstBlock state) = .ok (ptrs, epiBdrPtr state)

theorem Represents.chain (represents : Represents state layout none) :
    state.Chain (layout.blocks.map state.ptrOf) := by
  unfold State.Chain
  rw [represents.heapWalk, represents.epiBdrPtr]

theorem State.Chain.eq {ptrs others : List Nat} (left : state.Chain ptrs)
    (right : state.Chain others) : ptrs = others :=
  congrArg Prod.fst (Except.ok.inj (left.symm.trans right))

namespace Framed

variable {blocks : List Block} {top : Nat}

theorem payload_iff (framed : Framed state blocks top none) (inside : block ∈ blocks) {byte : Nat} :
    state.Payload (state.heap + block.off) byte ↔
      ∃ owned, byte = state.heap + owned ∧ block.Owns owned := by
  have readSize := framed.size inside (by simp)
  constructor
  · rintro ⟨size, read, low, high⟩
    obtain rfl := Except.ok.inj (readSize.symm.trans read)
    rw [metaSize_eq] at high
    exact ⟨byte - state.heap, by omega, by omega, by omega⟩
  · rintro ⟨owned, rfl, low, high⟩
    exact ⟨block.size, readSize, by omega, by rw [metaSize_eq]; omega⟩

theorem ftrPtr (framed : Framed state blocks top none) (inside : block ∈ blocks) :
    state.ftrPtr (state.heap + block.off) = .ok (state.heap + (block.off + block.size - 16)) := by
  have bounds := framed.laid.bounds inside
  have size := framed.sizeAt_eq inside (by simp)
  rw [ftrPtr_at framed.ready.toMapped (by omega) (by omega) (by omega) (by omega), size]

theorem prePtr (framed : Framed state blocks top none) (inside : block ∈ blocks) :
    state.prePtr (state.heap + block.off) = .ok (state.heap + (block.off + block.size - 12)) := by
  rw [framed.prePtr_node ⟨block, inside, rfl, by simp⟩, framed.preAt_eq inside (by simp)]

/-- The words of a block are the two before its payload and the two behind. -/
theorem metaByte (framed : Framed state blocks top none) (inside : block ∈ blocks) {byte : Nat}
    (isMeta : state.MetaByte (state.heap + block.off) byte) :
    state.heap + block.off ≤ byte + 8 ∧ byte < state.heap + block.off ∨
      state.heap + block.off + block.size ≤ byte + 16 ∧
        byte + 8 < state.heap + block.off + block.size := by
  have bounds := framed.laid.bounds inside
  have mapped := framed.ready.toMapped
  have header := hdrPtr_at mapped (by omega : 8 ≤ block.off) (by omega)
  have next := nexPtr_at mapped (by omega : 8 ≤ block.off) (by omega)
  obtain ⟨word, place, low, high⟩ := isMeta
  unfold wordSize at high
  rcases place with isHeader | isNext | isFooter | isPrev
  · omega
  · omega
  · obtain rfl := Except.ok.inj ((framed.ftrPtr inside).symm.trans isFooter)
    omega
  · obtain rfl := Except.ok.inj ((framed.prePtr inside).symm.trans isPrev)
    omega

end Framed

/-- What the client may rely on: no pointer has been handed out twice, each live
pointer is aligned, its payload lies between prologue and epilogue and has room for
the request, and no other live payload and no word of any block lies in it. -/
structure ClientSafe (session : Session) : Prop where
  nodup : (session.live.map Grant.off).Nodup
  aligned : ∀ grant ∈ session.live, (session.state.heap + grant.off) % 8 = 0
  within : ∀ grant ∈ session.live, ∃ size,
    session.state.size (session.state.heap + grant.off) = .ok size ∧
      proBdrPtr session.state ≤ session.state.heap + grant.off ∧
      session.state.heap + grant.off + (size - metaSize) ≤ hdrPtr (epiBdrPtr session.state) ∧
      grant.request ≤ size - metaSize
  apart : ∀ left ∈ session.live, ∀ right ∈ session.live, left ≠ right → ∀ byte,
    session.state.Payload (session.state.heap + left.off) byte →
      ¬ session.state.Payload (session.state.heap + right.off) byte
  noMeta : ∃ ptrs, session.state.Chain ptrs ∧ ∀ grant ∈ session.live, ∀ ptr ∈ ptrs, ∀ byte,
    session.state.Payload (session.state.heap + grant.off) byte →
      ¬ session.state.MetaByte ptr byte

/-- Every request on the ledger is one that 32 bits can hold. -/
def LowRequests (live : List Grant) : Prop := ∀ grant ∈ live, grant.request + 24 ≤ 2 ^ 32

theorem LowRequests.drop {live : List Grant} (low : LowRequests live) (ptr : Option Nat) :
    LowRequests (drop live ptr) :=
  fun grant inside => low grant (List.mem_of_mem_filter inside)

theorem LowRequests.gain {live : List Grant} (low : LowRequests live) {request : Nat}
    {ret : Option Nat} (small : ∀ off ∈ ret, request + 24 ≤ 2 ^ 32) :
    LowRequests (gain live ret request) := by
  intro grant inside
  cases List.mem_append.mp inside with
  | inl old => exact low grant old
  | inr new =>
      obtain ⟨off, isRet, rfl⟩ := List.mem_map.mp new
      exact small off (Option.mem_toList.mp isRet)

theorem Tracks.grant (tracks : Tracks least session layout) {grant : Grant}
    (inside : grant ∈ session.live) :
    ∃ block ∈ liveOf layout.blocks, block.off = grant.off ∧
      (grant.request + 24 ≤ 2 ^ 32 → grant.request + 16 ≤ block.size) := by
  obtain ⟨block, live, same⟩ := tracks.live.mp ⟨grant, inside, rfl⟩
  exact ⟨block, live, same, tracks.grants.room grant inside block live same⟩

/-- Two entries of the ledger with one offset are the same entry. -/
theorem Grants.eq_of_off {live : List Grant} {blocks : Set Block} (grants : Grants live blocks)
    {left right : Grant} (leftIn : left ∈ live) (rightIn : right ∈ live)
    (same : left.off = right.off) : left = right :=
  List.inj_on_of_nodup_map grants.nodup leftIn rightIn same

theorem Tracks.clientSafe (tracks : Tracks least session layout) (low : LowRequests session.live) :
    ClientSafe session := by
  have framed := tracks.represents.framed
  have laid := framed.laid
  have page := framed.ready.page
  have limit := maxHeap_eq
  refine ⟨tracks.grants.nodup, ?_, ?_, ?_, ?_⟩
  · intro grant inside
    obtain ⟨block, live, same, _⟩ := tracks.grant inside
    have bounds := laid.bounds live.1
    omega
  · intro grant inside
    obtain ⟨block, live, same, room⟩ := tracks.grant inside
    have bounds := laid.bounds live.1
    have room := room (low grant inside)
    have readSize := framed.size live.1 (by simp)
    rw [same] at readSize
    refine ⟨block.size, readSize, ?_, ?_, ?_⟩
    · rw [proBdrPtr_at framed.ready]
      omega
    · rw [tracks.represents.epiBdrPtr, hdrPtr_at framed.ready.toMapped (by omega) (by omega),
        metaSize_eq]
      omega
    · rw [metaSize_eq]
      omega
  · intro left leftIn right rightIn different byte inLeft inRight
    obtain ⟨first, firstLive, leftOff, _⟩ := tracks.grant leftIn
    obtain ⟨second, secondLive, rightOff, _⟩ := tracks.grant rightIn
    rw [← leftOff, framed.payload_iff firstLive.1] at inLeft
    rw [← rightOff, framed.payload_iff secondLive.1] at inRight
    obtain ⟨owned, rfl, low, high⟩ := inLeft
    obtain ⟨other, place, low', high'⟩ := inRight
    rcases laid.before_or_behind firstLive.1 secondLive.1 with same | before | behind
    · have sameOff : left.off = right.off := by rw [← leftOff, ← rightOff, same]
      exact different (tracks.grants.eq_of_off leftIn rightIn sameOff)
    · omega
    · omega
  · refine ⟨_, tracks.represents.chain, ?_⟩
    intro grant inside ptr onChain byte inPayload isMeta
    obtain ⟨owner, ownerIn, rfl⟩ := List.mem_map.mp onChain
    obtain ⟨block, live, same, _⟩ := tracks.grant inside
    rw [← same, framed.payload_iff live.1] at inPayload
    obtain ⟨owned, rfl, low, high⟩ := inPayload
    have words := framed.metaByte ownerIn isMeta
    have ownerBounds := laid.bounds ownerIn
    have bounds := laid.bounds live.1
    rcases laid.before_or_behind ownerIn live.1 with same | before | behind
    · subst same
      omega
    · omega
    · omega

/-- A call of the package, not a store of the client. -/
def Call.OfPackage : Call → Prop
  | .write _ _ => False
  | _ => True

theorem Call.mem_spares {call : Call} {blocks : List Block} (ofPackage : call.OfPackage)
    (live : block ∈ liveOf blocks) (other : some block.off ≠ call.takes) :
    block ∈ call.spares blocks := by
  cases call with
  | malloc size => exact mem_held.mpr live
  | calloc nmemb size => exact mem_held.mpr live
  | free ptr =>
      cases ptr with
      | none => exact mem_held.mpr live
      | some off => exact mem_heldBut.mpr ⟨live, fun same => other (congrArg some same)⟩
  | realloc direction ptr size =>
      cases ptr with
      | none => exact mem_held.mpr live
      | some off => exact mem_heldBut.mpr ⟨live, fun same => other (congrArg some same)⟩
  | write position byte => exact ofPackage.elim

/-- The ledger holds representable requests after a run of such requests. -/
theorem Reaches.lowRequests {region : State} {calls : List Call} {outputs : List (Option Nat)}
    (reaches : Reaches Call.Small region calls outputs session) : LowRequests session.live := by
  obtain ⟨start, _, run⟩ := reaches
  induction run with
  | nil => exact fun _ inside => nomatch inside
  | snoc _ allowed stepped ih =>
      unfold Session.step at stepped
      split at stepped
      case h_1 => cases stepped
      case h_2 ret state' _ =>
        cases stepped
        exact (ih.drop _).gain fun _ _ => allowed.2

/-- Client-visible safety over whole runs. A call leaves every payload alone but
that of the block it takes, its pointer is on the ledger with its request, and
it fails only where `mem_sbrk` does. -/
theorem client_safe {region : State} {calls : List Call} {outputs : List (Option Nat)}
    {session : Session} (mapped : Mapped region)
    (reaches : Reaches Call.Small region calls outputs session) :
    ClientSafe session ∧ ∀ call, Allowed Call.Small session call →
      (session.step call = none →
        memSbrk session.state (offsetT (blockSize call.request)) = (sbrkFailed, session.state)) ∧
      ∀ later more, session.step call = some (later, more) →
        (∀ off, some off ∈ more → ⟨off, call.request⟩ ∈ later.live) ∧
        (call.OfPackage → ∀ grant ∈ session.live, some grant.off ≠ call.takes → ∀ byte,
          session.state.Payload (session.state.heap + grant.off) byte →
            later.state.mem byte = session.state.mem byte) := by
  obtain ⟨layout, _, tracks, _⟩ :=
    (reaches.mono fun _ => Call.Small.sized).tracks mapped (by decide) (by decide)
  refine ⟨tracks.clientSafe reaches.lowRequests, fun call allowed => ⟨fun failed => ?_, ?_⟩⟩
  · have allowed' : Allowed (Call.Sized 24) session call := ⟨allowed.1, allowed.2.sized⟩
    have runs := tracks.step (by decide) (by decide) allowed'
    cases result : layout.exec call with
    | none =>
        have full := (tracks.valid.exec_none (by decide) (by decide) (tracks.allows allowed')
          allowed.2 result).2
        have framed := tracks.represents.framed
        exact memSbrk_refused framed.ready.toMapped framed.brk (blockSize_lt _) full
    | some given =>
        rw [result] at runs
        obtain ⟨state', run, _⟩ := runs
        exact nomatch failed.symm.trans run
  · intro later more stepped
    obtain ⟨ret, next, _, rfl, ledgers, _, yields⟩ :=
      tracks.of_step (by decide) (by decide) ⟨allowed.1, allowed.2.sized⟩ stepped
    refine ⟨fun off returned => ?_, fun ofPackage grant inside other byte inPayload => ?_⟩
    · have isRet : ret = some off := by
        unfold Call.outputs at returned
        split at returned
        · cases returned
        · cases returned
        · exact (List.mem_singleton.mp returned).symm
      rw [ledgers, isRet]
      exact List.mem_append_right _ (List.mem_singleton_self _)
    · obtain ⟨block, live, same, _⟩ := tracks.grant inside
      rw [← same, tracks.represents.framed.payload_iff live.1] at inPayload
      obtain ⟨owned, rfl, owns⟩ := inPayload
      exact yields.keeps block (Call.mem_spares ofPackage live (same ▸ other)) owned owns

theorem client_safe_mixed : ∃ session, Reaches Call.Small sampleRegion
    [.malloc 8, .malloc 100, .write 37 7, .free (some 32), .realloc .descending (some 56) 120,
      .calloc 3 5] [some 32, some 56, some 176, some 32] session ∧ ClientSafe session := by
  obtain ⟨session, reaches⟩ := Reaches.of_outputs sampleRegion_mapped
    (by decide +kernel : (Run.exec (Run.guarded Session.step (Allowed Call.Small)) _
      [.malloc 8, .malloc 100, .write 37 7, .free (some 32), .realloc .descending (some 56) 120,
        .calloc 3 5]).map Prod.snd = some [some 32, some 56, some 176, some 32])
  exact ⟨session, reaches, (client_safe sampleRegion_mapped reaches).1⟩

/-! ## The heap checker's invariants -/

/-- Each entry of a list points back at the one before it and on to the one
behind it; the prologue stands at both ends. -/
def State.LinkedFrom (state : State) (before : Nat) : List Nat → Prop
  | [] => True
  | ptr :: rest => state.listPrev ptr = .ok before ∧
      state.listNext ptr = .ok (rest.head?.getD (proBdrPtr state)) ∧ state.LinkedFrom ptr rest

/-- The free list of a rank: its entries in order, linked both ways. -/
def State.ListOf (state : State) (rank : Nat) (ptrs : List Nat) : Prop :=
  list state rank = .ok (ptrs.head?.getD (proBdrPtr state)) ∧
    (list state rank >>= listWalk state maxHeap) = .ok ptrs ∧
    state.LinkedFrom (proBdrPtr state) ptrs

/-- The representation invariant over a given chain of blocks. -/
structure ChainInvariant (least : Nat) (state : State) (ptrs : List Nat) : Prop where
  chain : state.Chain ptrs
  sizes : ∀ ptr ∈ ptrs, ∃ size, state.size ptr = .ok size ∧ size % 8 = 0 ∧ least ≤ size
  tags : ∀ ptr ∈ ptrs, ∃ footer, state.ftrPtr ptr = .ok footer ∧
    state.get (hdrPtr ptr) = state.get footer
  status : ∀ ptr ∈ ptrs, state.stat ptr = .ok used ∨ state.stat ptr = .ok unused
  settled : ptrs.IsChain fun left right =>
    ¬ (state.stat left = .ok unused ∧ state.stat right = .ok unused)
  lists : ∀ rank < rankNum, ∃ entries, state.ListOf rank entries ∧ entries.Nodup ∧
    ∀ ptr, ptr ∈ entries ↔ ptr ∈ ptrs ∧ state.stat ptr = .ok unused ∧
      ∃ size, state.size ptr = .ok size ∧ getRank size = rank

def HeapInvariant (least : Nat) (state : State) : Prop := ∃ ptrs, ChainInvariant least state ptrs

theorem Represents.linkedFrom (represents : Represents state layout none) {rank : Nat}
    (small : rank < 3) {before : Option Nat} {offs : List Nat}
    (inside : ∀ off ∈ offs, off ∈ layout.bins rank)
    (segment : Segment (links (words state) rank).next (links (words state) rank).prev before offs
      none) :
    state.LinkedFrom (state.heap + encodeLink before) (offs.map (state.heap + ·)) := by
  induction offs generalizing before with
  | nil => trivial
  | cons off rest ih =>
      obtain ⟨back, forth, tail⟩ := segment
      rw [Option.or_none] at forth
      have inList := inside off List.mem_cons_self
      have node := represents.node rank small off inList
      have prev := represents.framed.listPrev rank node (represents.prev_node small inList)
      have next := represents.framed.listNext rank node (represents.next_node small inList)
      rw [back] at prev
      rw [forth] at next
      refine ⟨prev, next.trans ?_, ih (fun other later => inside other (.tail _ later)) tail⟩
      rw [proBdrPtr_at represents.framed.ready]
      cases rest with
      | nil => simp
      | cons second rest => rfl

theorem Represents.listOf (represents : Represents state layout none) {rank : Nat}
    (small : rank < 3) : state.ListOf rank ((layout.bins rank).map (state.heap + ·)) := by
  have listed := represents.listed rank small
  have ends := proBdrPtr_at represents.framed.ready
  refine ⟨?_, represents.listWalk small, ?_⟩
  · rw [represents.list small, listed.head, ends]
    cases layout.bins rank with
    | nil => simp
    | cons off rest => rfl
  · have linked := represents.linkedFrom small (fun _ inList => inList) listed.segment
    rw [encodeLink_none, bdrOff_eq] at linked
    rw [ends]
    exact linked

theorem Represents.chainInvariant (represents : Represents state layout none)
    (valid : layout.Valid least) :
    ChainInvariant least state (layout.blocks.map state.ptrOf) := by
  have framed := represents.framed
  have laid := valid.laid
  have limit := maxHeap_eq
  have readStat : ∀ block ∈ layout.blocks, state.stat (state.ptrOf block) = .ok block.status :=
    fun block inside => framed.stat inside (by simp)
  refine ⟨represents.chain, ?_, ?_, ?_, ?_, ?_⟩
  · intro ptr onChain
    obtain ⟨block, inside, rfl⟩ := List.mem_map.mp onChain
    obtain ⟨large, multiple⟩ := laid.sizes block inside
    exact ⟨block.size, framed.size inside (by simp), multiple, large⟩
  · intro ptr onChain
    obtain ⟨block, inside, rfl⟩ := List.mem_map.mp onChain
    have bounds := framed.laid.bounds inside
    obtain ⟨header, footer⟩ := framed.tags block inside (by simp)
    refine ⟨_, framed.ftrPtr inside, ?_⟩
    rw [State.ptrOf, hdr_get framed.ready.toMapped (by omega) (by omega) (by omega),
      get_at (by omega) (by omega), header, footer]
  · intro ptr onChain
    obtain ⟨block, inside, rfl⟩ := List.mem_map.mp onChain
    rw [readStat block inside]
    cases used : block.used with
    | true => exact .inl (by rw [Block.status, used]; rfl)
    | false => exact .inr (by rw [Block.status, used]; rfl)
  · have settled := valid.settled
    unfold Settled at settled
    rw [List.isChain_map]
    refine settled.imp_of_mem_imp fun left right leftIn rightIn busy => ?_
    rw [readStat left leftIn, readStat right rightIn]
    rintro ⟨leftFree, rightFree⟩
    rw [Except.ok.injEq, status_eq_unused] at leftFree rightFree
    cases busy with
    | inl leftUsed => exact absurd (leftUsed.symm.trans leftFree) (by decide)
    | inr rightUsed => exact absurd (rightUsed.symm.trans rightFree) (by decide)
  · intro rank small
    rw [rankNum_eq] at small
    refine ⟨_, represents.listOf small, ?_, fun ptr => ?_⟩
    · exact (valid.lists.nodup rank).map fun left right same => Nat.add_left_cancel same
    · rw [List.mem_map]
      constructor
      · rintro ⟨off, inList, rfl⟩
        obtain ⟨block, ⟨inside, vacant⟩, rfl, isRank⟩ := (valid.lists.mem_iff rank off).mp inList
        refine ⟨List.mem_map.mpr ⟨block, inside, rfl⟩, ?_, block.size, ?_, isRank⟩
        · exact (readStat block inside).trans (congrArg _ (status_eq_unused.mpr vacant))
        · exact framed.size inside (by simp)
      · rintro ⟨onChain, free, size, read, isRank⟩
        obtain ⟨block, inside, rfl⟩ := List.mem_map.mp onChain
        obtain rfl := Except.ok.inj ((framed.size inside (by simp)).symm.trans read)
        rw [readStat block inside, Except.ok.injEq, status_eq_unused] at free
        exact ⟨block.off, (valid.lists.mem_iff rank _).mpr ⟨block, ⟨inside, free⟩, rfl, isRank⟩,
          rfl⟩

/-- Requests that 32 bits do not truncate below a whole block keep the
representation invariant. -/
theorem heap_invariant {region : State} {calls : List Call} {outputs : List (Option Nat)}
    {session : Session} (mapped : Mapped region)
    (reaches : Reaches (Call.Sized 24) region calls outputs session) :
    HeapInvariant 24 session.state := by
  obtain ⟨layout, _, tracks, _⟩ := reaches.tracks mapped (by decide) (by decide)
  exact ⟨_, tracks.represents.chainInvariant tracks.valid⟩

theorem heap_invariant_mixed : ∃ session, Reaches (Call.Sized 24) sampleRegion
    [.malloc 8, .malloc 100, .free (some 32), .malloc 4294967297] [some 32, some 56, some 32]
    session ∧ HeapInvariant 24 session.state := by
  obtain ⟨session, reaches⟩ := Reaches.of_outputs sampleRegion_mapped
    (by decide +kernel : (Run.exec (Run.guarded Session.step (Allowed (Call.Sized 24))) _
      [.malloc 8, .malloc 100, .free (some 32), .malloc 4294967297]).map Prod.snd =
        some [some 32, some 56, some 32])
  exact ⟨session, reaches, heap_invariant sampleRegion_mapped reaches⟩

/-- `malloc(2^32)` makes a block of 16 bytes. -/
theorem truncated_request_breaks_heap : ∃ session, Reaches (fun _ => True) sampleRegion
    [.malloc 4294967296] [some 32] session ∧ ¬ HeapInvariant 24 session.state := by
  obtain ⟨session, reaches⟩ := Reaches.of_outputs sampleRegion_mapped
    (by decide +kernel : (Run.exec (Run.guarded Session.step (Allowed (Call.Sized 16))) _
      [.malloc 4294967296]).map Prod.snd = some [some 32])
  refine ⟨session, reaches.mono fun _ _ => trivial, ?_⟩
  obtain ⟨layout, run, tracks, _⟩ := reaches.tracks sampleRegion_mapped (by decide) (by decide)
  have result : Run Layout.step (fun _ _ => True) .empty [.malloc 4294967296] [some 32]
      ⟨[⟨32, 16, true⟩], fun _ => [], 48⟩ := Run.of_exec rfl
  obtain ⟨_, rfl⟩ := run.deterministic result
  rintro ⟨ptrs, invariant⟩
  obtain rfl := invariant.chain.eq tracks.represents.chain
  obtain ⟨size, read, _, large⟩ := invariant.sizes _ List.mem_cons_self
  have short := tracks.represents.framed.size List.mem_cons_self (by simp)
  obtain rfl := Except.ok.inj (short.symm.trans read)
  exact absurd large (by decide)

end OsPractices.Malloc
