import OsPractices.ImplicitList.Resize
import OsPractices.Malloc.Independence

/-!
# Runs of the implicit list

`mm_init` and then calls of a client that passes live pointers and writes into
live payloads. While no call takes a branch that breaks the chain, the loop of
`malloc` ends and the live blocks are in use and apart. On a heap that is still
zero the first `malloc` breaks it.
-/

set_option autoImplicit false

namespace OsPractices.ImplicitList

open Library
open Library.Memory (CopyDirection)
open Malloc (State Fault maxHeap maxHeap_eq null offsetT align memSbrk memSbrk_granted sbrkFailed
  memResetBrk memInit unzipStat used unused border status_ne_border Block Mapped liveOf
  liveBut_split Grant Session Grants LowRequests drop gain drop_none clearRegion clearRegion_mapped)

/-! ## Calls and sessions -/

/-- The calls of the package on live pointers, each given by its offset from
the start of the heap, and the stores of the client. -/
inductive Call where
  | malloc (size : UInt64)
  | free (off : Nat)
  | realloc (direction : CopyDirection) (off : Nat) (size : UInt64)
  | write (position : Nat) (byte : UInt8)
  deriving DecidableEq, Repr

def exec (state : State) : Call → Except Fault (Option Nat × State)
  | .malloc size => do
      let (ptr, state) ← ImplicitList.malloc state size.toNat
      pure (state.offset ptr, state)
  | .free off => do
      let state ← ImplicitList.free state (state.heap + off)
      pure (none, state)
  | .realloc direction off size => do
      let (ptr, state) ← ImplicitList.realloc direction state (state.heap + off) size.toNat
      pure (state.offset ptr, state)
  | .write position byte => pure (none, state.write position byte)

/-- The pointer that a call takes from the client. -/
def Call.takes : Call → Option Nat
  | .free off => some off
  | .realloc _ off _ => some off
  | _ => none

/-- The bytes that a call asks for. -/
def Call.request : Call → Nat
  | .malloc size => size.toNat
  | .realloc _ _ size => size.toNat
  | _ => 0

def ledger (live : List Grant) (call : Call) (ret : Option Nat) : List Grant :=
  gain (drop live call.takes) ret call.request

/-- What a call returns to the client. -/
def Call.outputs (ret : Option Nat) : Call → List (Option Nat)
  | .malloc _ => [ret]
  | .realloc _ _ _ => [ret]
  | _ => []

def step (session : Session) (call : Call) : Option (Session × List (Option Nat)) :=
  match exec session.state call with
  | .error _ => none
  | .ok (ret, state) => some (⟨state, ledger session.live call ret⟩, call.outputs ret)

/-- The bytes of a payload, `SIZE(ptr) - 16`. -/
def capacity (state : State) (off : Nat) : Nat :=
  match ImplicitList.size state (state.heap + off) with
  | .error _ => 0
  | .ok size => size - 2 * sizeTSize

/-- The client passes live pointers, and writes into live payloads only. -/
def Passes (session : Session) : Call → Prop
  | .malloc _ => True
  | .free off => session.Holds off
  | .realloc _ off _ => session.Holds off
  | .write position _ => ∃ grant ∈ session.live,
      grant.off ≤ position ∧ position < grant.off + capacity session.state grant.off

/-- The call takes no branch that breaks the chain. -/
def Spares (state : State) : Call → Prop
  | .malloc size => Regular state size.toNat
  | .realloc _ off size => RegularRealloc state (state.heap + off) size.toNat
  | _ => True

/-- `mem_sbrk` has the memory for the block that a call asks for. -/
def Granted (state : State) (call : Call) : Prop :=
  (memSbrk state (offsetT (blockSize call.request))).1 ≠ sbrkFailed

def Allowed (asks : State → Call → Prop) (session : Session) (call : Call) : Prop :=
  Passes session call ∧ asks session.state call

/-- What `mem_reset_brk` and `mm_init` and then calls of some kind lead to. -/
def Reaches (asks : State → Call → Prop) (region : State) (calls : List Call)
    (outputs : List (Option Nat)) (session : Session) : Prop :=
  ∃ start, mmInit (memResetBrk region) = .ok (0, start) ∧
    Run step (Allowed asks) ⟨start, []⟩ calls outputs session

instance decidablePasses (session : Session) : (call : Call) → Decidable (Passes session call)
  | .malloc _ => .isTrue trivial
  | .free off => inferInstanceAs (Decidable (session.Holds off))
  | .realloc _ off _ => inferInstanceAs (Decidable (session.Holds off))
  | .write _ _ => inferInstanceAs (Decidable (∃ grant ∈ session.live, _))

instance decidableSpares (state : State) : (call : Call) → Decidable (Spares state call)
  | .malloc _ => inferInstanceAs (Decidable (Regular _ _))
  | .free _ => .isTrue trivial
  | .realloc _ _ _ => inferInstanceAs (Decidable (RegularRealloc _ _ _))
  | .write _ _ => .isTrue trivial

instance (session : Session) (call : Call) : Decidable (Allowed Spares session call) :=
  inferInstanceAs (Decidable (_ ∧ _))

/-- What the loop of `malloc` and the client rely on: the loop ends, each live
block is in use and has room for its request inside the heap, and the payloads
are apart. -/
structure Safe (session : Session) : Prop where
  scanEnds : ScanEnds session.state (blockList session.state)
  inUse : ∀ grant ∈ session.live, stat session.state (session.state.heap + grant.off) = .ok used
  nodup : (session.live.map Grant.off).Nodup
  within : ∀ grant ∈ session.live, grant.request ≤ capacity session.state grant.off ∧
    session.state.heap + grant.off + capacity session.state grant.off ≤ session.state.memBrk
  apart : ∀ left ∈ session.live, ∀ right ∈ session.live, left ≠ right →
    left.off + capacity session.state left.off ≤ right.off ∨
      right.off + capacity session.state right.off ≤ left.off

variable {state : State} {blocks : List Block} {block : Block} {top : Nat} {session : Session}
  {call : Call}

/-! ## One call -/

/-- The invariant of a session. -/
structure Tracks (session : Session) (blocks : List Block) (top : Nat) : Prop where
  chained : Chained session.state blocks top
  grants : Grants session.live (liveOf blocks)
  low : LowRequests session.live

theorem Linked.capacity (linked : Linked state blocks top) (member : block ∈ blocks) :
    ImplicitList.capacity state block.off = block.size - 16 := by
  unfold ImplicitList.capacity
  rw [linked.size member]
  rfl

namespace Tracks

theorem exec (tracks : Tracks session blocks top) (allowed : Allowed Spares session call) :
    ReturnsOr .segv (ImplicitList.exec session.state call) fun (ret, later) =>
      ∃ blocks' top', Tracks ⟨later, ledger session.live call ret⟩ blocks' top' := by
  obtain ⟨chained, grants, low⟩ := tracks
  obtain ⟨passes, spares⟩ := allowed
  have address := fun later heap =>
    @Malloc.Mapped.offset_address session.state chained.mapped later heap
  unfold ledger
  cases call with
  | malloc size =>
      simp only [ImplicitList.exec, Call.takes, drop_none]
      cases Nat.decEq size.toNat 0 with
      | isTrue zero =>
          have nothing : ImplicitList.malloc session.state size.toNat =
              .ok (null, session.state) := if_pos zero
          rw [nothing]
          right
          exact ⟨(none, session.state), rfl, blocks, top, chained, grants.gain_none _,
            low.gain nofun⟩
      | isFalse nonzero =>
          obtain ⟨fits, spared⟩ := chained.spared nonzero spares
          right
          refine (chained.malloc nonzero fits spared).bind fun (ptr, later)
            ⟨gained, blocks', top', place, heap, grown, allocates⟩ => .ok ?_
          have room := fits.trans allocates.room
          have gainedLive : gained ∈ liveOf blocks' := allocates.gains.live ▸ Set.mem_insert _ _
          have bounds := grown.filled.bounds gainedLive.1
          have limit := grown.filled.bounded
          have large := maxHeap_eq
          have isGained := address later heap (some gained.off)
          dsimp only at place ⊢
          rw [Option.map_some, Option.getD_some, ← place] at isGained
          rw [isGained]
          have small : (Call.malloc size).request + 24 ≤ 2 ^ 32 := by
            change size.toNat + 24 ≤ 2 ^ 32
            omega
          refine ⟨blocks', top', grown, ?_, low.gain fun _ _ => small⟩
          rw [allocates.gains.live]
          exact grants.gain allocates.gains.fresh fun _ => room
  | free off =>
      obtain ⟨block, live, rfl⟩ := (grants.mem_iff off).mp passes
      obtain ⟨front, back, rfl⟩ := List.append_of_mem live.1
      refine chained.free.bind fun later ⟨blocks', chained', left, heap⟩ => .inr (.ok ?_)
      refine ⟨blocks', top, chained', ?_, (low.drop _).gain nofun⟩
      rw [left, ← liveBut_split chained.filled.off_ne]
      exact (grants.dropLive block.off).gain_none _
  | realloc direction off size =>
      obtain ⟨block, live, rfl⟩ := (grants.mem_iff off).mp passes
      refine (chained.realloc live.1 spares direction).bind fun (ptr, later)
        ⟨ret, blocks', top', place, heap, chained', moves, narrow⟩ => .inr (.ok ?_)
      have isRet := address later heap ret
      dsimp only at place ⊢
      rw [← place] at isRet
      rw [isRet]
      refine ⟨blocks', top', chained', ?_, (low.drop _).gain fun new isNew => ?_⟩
      · cases ret with
        | none => exact moves.gone rfl ▸ (grants.dropLive block.off).gain_none _
        | some new =>
            obtain ⟨moved, rfl, _, left, fresh, room⟩ := moves.kept new rfl
            rw [left]
            exact (grants.dropLive block.off).gain fresh room
      · have returned : ret ≠ none := fun gone => nomatch (gone ▸ isNew : new ∈ none)
        have small := narrow.resolve_right returned
        change size.toNat + 24 ≤ 2 ^ 32
        omega
  | write position byte =>
      obtain ⟨grant, inside, lower, upper⟩ := passes
      obtain ⟨block, live, same⟩ := (grants.mem_iff grant.off).mp ⟨grant, inside, rfl⟩
      rw [← same] at lower upper
      rw [chained.capacity live.1] at upper
      right
      simp only [Call.takes, drop_none]
      refine ⟨(none, session.state.write position byte), rfl, blocks, top, ?_, grants.gain_none _,
        low.gain nofun⟩
      refine chained.of_payload live.1 fun other outside => Function.update_of_ne ?_ _ _
      omega

/-- A live block of the ledger. -/
theorem grant (tracks : Tracks session blocks top) {grant : Grant}
    (inside : grant ∈ session.live) : ∃ block ∈ liveOf blocks, block.off = grant.off ∧
      capacity session.state grant.off = block.size - 16 ∧ grant.request + 16 ≤ block.size := by
  obtain ⟨block, live, same⟩ := (tracks.grants.mem_iff grant.off).mp ⟨grant, inside, rfl⟩
  refine ⟨block, live, same, ?_, ?_⟩
  · rw [← same, tracks.chained.capacity live.1]
  · exact tracks.grants.room grant inside block live same (tracks.low grant inside)

theorem safe (tracks : Tracks session blocks top) : Safe session := by
  have chained := tracks.chained
  refine ⟨chained.scanEnds, ?_, tracks.grants.nodup, ?_, ?_⟩
  · intro grant inside
    obtain ⟨block, live, same, _⟩ := tracks.grant inside
    have status : block.status = used := by
      unfold Block.status
      rw [if_pos live.2]
    rw [← same, chained.stat live.1, status]
  · intro grant inside
    obtain ⟨block, live, same, payload, room⟩ := tracks.grant inside
    have bounds := chained.filled.bounds live.1
    have brk := chained.brk
    rw [payload]
    omega
  · intro left leftIn right rightIn different
    obtain ⟨first, firstLive, leftOff, leftPayload, _⟩ := tracks.grant leftIn
    obtain ⟨second, secondLive, rightOff, rightPayload, _⟩ := tracks.grant rightIn
    have apart := chained.filled.before_or_behind firstLive.1 secondLive.1
    have distinct : first ≠ second := fun same =>
      different (tracks.grants.eq_of_off leftIn rightIn (by rw [← leftOff, ← rightOff, same]))
    rw [leftPayload, rightPayload]
    have apart := apart.resolve_left distinct
    omega

end Tracks

/-! ## Runs -/

/-- The heap that `mm_init` leaves. -/
def opened (state : State) : State :=
  put (put { state with memBrk := state.heap + 16, heapBase := state.heap } 0 border) 8 border

/-- What `mem_sbrk` answers makes no difference. -/
theorem mmInit_of_sbrk {grown : State} {heapBase : Nat}
    (sbrk : memSbrk state (align (2 * sizeTSize)) = (heapBase, grown)) :
    mmInit state = set { grown with heapBase := heapBase } heapBase (zip 0 border) >>= fun first =>
      set first (blockList first) (zip 0 border) >>= fun second => pure (0, second) := by
  unfold mmInit
  rw [sbrk]

theorem mmInit_opened (mapped : Mapped state) (empty : state.memBrk = state.heap) :
    mmInit state = .ok (0, opened state) := by
  have granted : memSbrk state (align (2 * sizeTSize)) =
      (state.heap + 0, { state with memBrk := state.heap + 16 }) :=
    @memSbrk_granted state 0 16 mapped empty (by decide)
  rw [mmInit_of_sbrk granted]
  unfold opened
  dsimp only [Nat.add_zero]
  generalize isFirst : ({ state with memBrk := state.heap + 16, heapBase := state.heap } : State) =
    first
  have mapped' : Mapped first := by
    rw [← isFirst]
    exact mapped.of_same rfl rfl
  have base : first.heapBase = first.heap := by rw [← isFirst]
  have heap : first.heap = state.heap := by rw [← isFirst]
  have list : blockList (put first 0 border) = first.heap + 8 := by
    unfold blockList
    exact base ▸ @ptrAdd_at first 0 mapped' _ 8 (by decide) (by decide)
  have prologue : set first (first.heap + 0) (zip 0 border) = .ok (put first 0 border) :=
    set_at (by decide) _
  have epilogue : set (put first 0 border) (first.heap + 8) (zip 0 border) =
      .ok (put (put first 0 border) 8 border) :=
    @set_at (put first 0 border) 8 (by decide) _
  rw [heap, Nat.add_zero] at prologue
  rw [heap] at list epilogue
  rw [prologue, ok_bind, list, epilogue]
  rfl

theorem opened_chained (mapped : Mapped state) : Chained (opened state) [] 8 := by
  have stored : tagAt (opened state) 0 = border := by
    unfold opened
    rw [tagAt_put (by decide), Function.update_of_ne (by decide), tagAt_put (by decide),
      Function.update_self]
    rfl
  refine ⟨⟨mapped.of_same rfl rfl, rfl, rfl,
    ⟨rfl, nofun, by decide⟩, nofun⟩, ?_⟩
  exact congrArg unzipStat stored

/-- Off the branches that break the chain, every run leaves a chain. -/
theorem Reaches.tracks {region : State} {calls : List Call} {outputs : List (Option Nat)}
    (reaches : Reaches Spares region calls outputs session) (mapped : Mapped region) :
    ∃ blocks top, Tracks session blocks top := by
  obtain ⟨start, init, run⟩ := reaches
  have mapped' : Mapped (memResetBrk region) :=
    mapped.of_same rfl rfl
  rw [mmInit_opened mapped' rfl] at init
  obtain ⟨_, rfl⟩ := Prod.mk.inj (Except.ok.inj init)
  induction run with
  | nil =>
      have grants : Grants [] (liveOf []) :=
        ⟨List.nodup_nil, by simp [liveOf], by simp⟩
      exact ⟨[], 8, opened_chained mapped', grants, by simp [LowRequests]⟩
  | @snoc calls outputs more session next call _ allowed stepped ih =>
      obtain ⟨blocks, top, tracks⟩ := ih
      unfold step at stepped
      cases tracks.exec allowed with
      | inl failed =>
          rw [failed] at stepped
          cases stepped
      | inr returned =>
          obtain ⟨⟨ret, later⟩, result, tracks'⟩ := returned
          rw [result] at stepped
          obtain ⟨rfl, _⟩ := Prod.mk.inj (Option.some.inj stepped)
          exact tracks'

/-- While no call takes a branch that breaks the chain, every scan ends at a
`BORDER`, every pointer that a call returns is in use, and the payloads of the
live blocks are apart and inside the heap. No call goes on for ever. -/
theorem chain_intact {region : State} {calls : List Call} {outputs : List (Option Nat)}
    (mapped : Mapped region) (reaches : Reaches Spares region calls outputs session) :
    Safe session ∧ ∀ call, Allowed Spares session call →
      exec session.state call ≠ .error .divergence ∧
      ∀ off later, exec session.state call = .ok (some off, later) →
        stat later (later.heap + off) = .ok used := by
  obtain ⟨blocks, top, tracks⟩ := reaches.tracks mapped
  refine ⟨tracks.safe, fun call allowed => ?_⟩
  have runs := tracks.exec allowed
  refine ⟨fun diverges => ?_, fun off later result => ?_⟩
  · obtain failed | ⟨_, result, _⟩ := runs
    · exact nomatch failed.symm.trans diverges
    · exact nomatch result.symm.trans diverges
  · obtain failed | ⟨⟨ret, later'⟩, result', blocks', top', tracks'⟩ := runs
    · exact nomatch failed.symm.trans result
    · obtain ⟨rfl, rfl⟩ := Prod.mk.inj (Except.ok.inj (result'.symm.trans result))
      exact tracks'.safe.inUse ⟨off, call.request⟩ (List.mem_append_right _ (by simp))

/-- A region that is full of `BORDER` words. -/
def borderRegion : State := memInit 4096 fun address => if address % 8 = 0 then 3 else 0

theorem chain_intact_moves : ∃ session, Reaches Spares borderRegion
    [.malloc 8, .malloc 24, .malloc 8, .free 32, .malloc 8, .write 40 200,
      .realloc .ascending 72 40, .free 96, .malloc 48]
    [some 8, some 32, some 72, some 32, some 96, some 72] session ∧ Safe session := by
  have mapped : Mapped borderRegion := ⟨by decide, by decide, by decide, rfl⟩
  obtain ⟨session, run⟩ := Run.of_outputs
    (by decide +kernel : (Run.exec (Run.guarded step (Allowed Spares))
      ⟨opened (memResetBrk borderRegion), []⟩ [.malloc 8, .malloc 24, .malloc 8, .free 32,
        .malloc 8, .write 40 200, .realloc .ascending 72 40, .free 96, .malloc 48]).map Prod.snd =
          some [some 8, some 32, some 72, some 32, some 96, some 72])
  have reaches : Reaches Spares borderRegion _ _ session :=
    ⟨_, mmInit_opened ⟨by decide, by decide, by decide, rfl⟩ rfl, run⟩
  exact ⟨session, reaches, (chain_intact mapped reaches).1⟩

/-! ## The fresh heap -/

namespace Linked

/-- A header that is zero sends the loop back to its own pointer. -/
theorem stuck (linked : Linked state blocks top) (zero : tagAt state (top - 8) = 0) :
    ImplicitList.stat state (state.heap + top) = .ok 0 ∧
      ImplicitList.size state (state.heap + top) = .ok 0 ∧
        ImplicitList.nextPtr state (state.heap + top) = .ok (state.heap + top) := by
  have bounds := linked.filled.top_bounds
  have limit := linked.filled.bounded
  have readStat := stat_at linked.mapped bounds.2 bounds.1 (by omega)
  have readSize := size_at linked.mapped bounds.2 bounds.1 (by omega)
  rw [zero] at readStat readSize
  exact ⟨readStat, readSize, @nextPtr_of_size state top 0 linked.mapped readSize (by omega)⟩

theorem not_scanEnds {front back : List Block} {start : Nat}
    (linked : Linked state (front ++ back) top) (zero : tagAt state (top - 8) = 0)
    (tiled : Block.Tiled start back top) : ¬ ScanEnds state (state.heap + start) := by
  induction back generalizing front start with
  | nil =>
      have ends : start = top := tiled
      obtain ⟨readStat, -, readNext⟩ := linked.stuck zero
      rw [ends]
      generalize state.heap + top = ptr at *
      intro scanEnds
      induction scanEnds with
      | border isBorder => exact nomatch readStat.symm.trans isBorder
      | next _ _ behind _ ih =>
          obtain rfl := Except.ok.inj (readNext.symm.trans behind)
          exact ih readStat readNext
  | cons block rest ih =>
      obtain ⟨rfl, tail⟩ := tiled
      have member : block ∈ front ++ block :: rest := by simp
      have readStat := linked.stat member
      have readNext := linked.nextPtr member
      rw [List.append_cons] at linked
      intro scanEnds
      cases scanEnds with
      | border isBorder =>
          exact status_ne_border block (Except.ok.inj (readStat.symm.trans isBorder))
      | next _ _ behind scanEnds =>
          obtain rfl := Except.ok.inj (readNext.symm.trans behind)
          exact ih linked tail scanEnds

theorem scan_diverges {front back : List Block} {start size : Nat}
    (linked : Linked state (front ++ back) top) (zero : tagAt state (top - 8) = 0)
    (tiled : Block.Tiled start back top) (passed : ∀ block ∈ back, larger size block = false)
    (fuel : Nat) : ImplicitList.scan state size fuel (state.heap + start) = .error .divergence := by
  induction fuel generalizing front back start with
  | zero => rfl
  | succ fuel ih =>
      unfold ImplicitList.scan
      cases back with
      | nil =>
          have ends : start = top := tiled
          obtain ⟨readStat, readSize, readNext⟩ := linked.stuck zero
          rw [ends, readStat, ok_bind, if_pos (by decide), ok_bind, readSize, ok_bind,
            if_neg (by simp), readNext, ok_bind, ← ends]
          exact ih linked tiled passed
      | cons block rest =>
          obtain ⟨rfl, tail⟩ := tiled
          have member : block ∈ front ++ block :: rest := by simp
          have passes : ¬ (block.status = unused ∧ size < block.size) := by
            rw [← larger_iff, passed block List.mem_cons_self]
            exact Bool.false_ne_true
          rw [linked.stat member, ok_bind, if_pos (status_ne_border block), ok_bind,
            linked.size member, ok_bind, if_neg passes, linked.nextPtr member, ok_bind]
          rw [List.append_cons] at linked
          exact ih linked tail fun other inside => passed other (.tail _ inside)

end Linked

theorem tagAt_clear (clear : ∀ address, state.mem address = 0) (offset : Nat) :
    tagAt state offset = 0 := by
  unfold tagAt
  split
  · simp [Memory.load64, Memory.load32, clear]
  · rfl

/-- On a heap that is still zero, `malloc` returns its first block and leaves a
header behind it that is zero; the next `malloc` never returns. -/
theorem fresh_heap_breaks {region start : State} {bytes : Nat} (mapped : Mapped region)
    (clear : ∀ address, region.mem address = 0)
    (init : mmInit (memResetBrk region) = .ok (0, start)) (nonzero : bytes ≠ 0)
    (fits : bytes + 16 ≤ blockSize bytes) (room : blockSize bytes + 16 ≤ maxHeap) :
    Returns (malloc start bytes) fun (ptr, later) => ptr = start.heap + 8 ∧
      later.heap = start.heap ∧ ¬ ScanEnds later (blockList later) ∧
        ∀ more ≠ 0, malloc later more = .error .divergence := by
  have mapped' : Mapped (memResetBrk region) :=
    mapped.of_same rfl rfl
  rw [mmInit_opened mapped' rfl] at init
  obtain ⟨_, rfl⟩ := Prod.mk.inj (Except.ok.inj init)
  have chained := opened_chained mapped'
  have multiple := blockSize_multiple bytes
  have behind : tagAt (opened (memResetBrk region)) (8 + blockSize bytes - 8) = 0 := by
    unfold opened
    rw [tagAt_put (by decide), Function.update_of_ne (by omega), tagAt_put (by decide),
      Function.update_of_ne (by omega)]
    exact tagAt_clear clear _
  rw [chained.malloc_cases nonzero]
  refine (chained.mallocExtend (by omega) multiple (by omega)).mono fun (ptr, later)
    ⟨place, heap, linked, same⟩ => ⟨place, heap, ?_, fun more positive => ?_⟩
  · rw [linked.blockList]
    exact @Linked.not_scanEnds later _ [] _ 8 linked (same.trans behind) linked.filled.tiled
  · unfold malloc
    rw [if_neg positive, linked.blockList]
    have diverges := @Linked.scan_diverges later _ [] _ 8 (blockSize more) linked
      (same.trans behind) linked.filled.tiled (by simp [larger]) maxHeap
    rw [diverges, error_bind]

theorem second_malloc_hangs : ∃ session, Reaches Granted clearRegion [.malloc 8] [some 8] session ∧
    ¬ ScanEnds session.state (blockList session.state) ∧
      exec session.state (.malloc 8) = .error .divergence := by
  have mapped : Mapped (memResetBrk clearRegion) := ⟨by decide, by decide, by decide, rfl⟩
  have init := mmInit_opened mapped rfl
  obtain ⟨⟨ptr, later⟩, given, place, heap, broken, hangs⟩ := @fresh_heap_breaks clearRegion _
    (UInt64.toNat 8) clearRegion_mapped (fun _ => rfl) init (by decide) (by decide) (by decide)
  have returned := (opened_chained mapped).mapped.offset_address heap (some 8)
  rw [Option.map_some, Option.getD_some, ← place] at returned
  have run : exec (opened (memResetBrk clearRegion)) (.malloc 8) = .ok (some 8, later) := by
    change (malloc _ (UInt64.toNat 8) >>= _) = _
    rw [given, ok_bind]
    dsimp only
    rw [returned]
    rfl
  have stepped : step ⟨opened (memResetBrk clearRegion), []⟩ (.malloc 8) =
      some (⟨later, [⟨8, 8⟩]⟩, [some 8]) := by
    unfold step
    rw [run]
    rfl
  have granted : Granted (opened (memResetBrk clearRegion)) (.malloc 8) := by
    unfold Granted
    decide +kernel
  refine ⟨⟨later, [⟨8, 8⟩]⟩, ⟨_, init, Run.snoc .nil ⟨trivial, granted⟩ stepped⟩, broken, ?_⟩
  change (malloc later (UInt64.toNat 8) >>= _) = _
  rw [hangs _ (by decide)]
  rfl

end OsPractices.ImplicitList
