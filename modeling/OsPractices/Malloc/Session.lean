import OsPractices.Library.Runs
import OsPractices.Malloc.Refusal

/-!
# Sessions

A session is the memory together with the client's ledger of live blocks. On
memory that represents a layout every call does what it does on the layout,
and faults where that is undefined; so a run is determined by the layout it
starts from.
-/

set_option autoImplicit false

namespace OsPractices.Malloc

open Library
open Library.Memory (CopyDirection)

/-- A block as the client knows it: the offset of its pointer from the start
of the heap, and the number of bytes it asked for. -/
structure Grant where
  off : Nat
  request : Nat
  deriving DecidableEq, Repr

structure Session where
  state : State
  live : List Grant

/-- The calls of the package and the stores of the client. A pointer is given
by its offset from the start of the heap, `NULL` by `none`. -/
inductive Call where
  | malloc (size : UInt64)
  | calloc (nmemb size : UInt64)
  | free (ptr : Option Nat)
  | realloc (direction : CopyDirection) (ptr : Option Nat) (size : UInt64)
  | write (position : Nat) (byte : UInt8)
  deriving DecidableEq, Repr

def State.address (state : State) : Option Nat → Nat
  | none => null
  | some off => state.heap + off

def State.offset (state : State) (ptr : Nat) : Option Nat :=
  if ptr = null then none else some (ptr - state.heap)

def State.write (state : State) (position : Nat) (byte : UInt8) : State :=
  { state with mem := Function.update state.mem (state.heap + position) byte }

def exec (state : State) : Call → Except Fault (Option Nat × State)
  | .malloc size => do
      let (ptr, state) ← Malloc.malloc state size.toNat
      pure (state.offset ptr, state)
  | .calloc nmemb size => do
      let (ptr, state) ← Malloc.calloc state nmemb.toNat size.toNat
      pure (state.offset ptr, state)
  | .free ptr => do
      let state ← Malloc.free state (state.address ptr)
      pure (none, state)
  | .realloc direction ptr size => do
      let (ptr, state) ← Malloc.realloc direction state (state.address ptr) size.toNat
      pure (state.offset ptr, state)
  | .write position byte => pure (none, state.write position byte)

/-- The pointer that a call takes from the client. -/
def Call.takes : Call → Option Nat
  | .free ptr => ptr
  | .realloc _ ptr _ => ptr
  | _ => none

/-- The bytes that a call asks for. -/
def Call.request : Call → Nat
  | .malloc size => size.toNat
  | .calloc nmemb size => nmemb.toNat * size.toNat
  | .realloc _ _ size => size.toNat
  | _ => 0

def drop (live : List Grant) (ptr : Option Nat) : List Grant :=
  live.filter (some ·.off ≠ ptr)

def gain (live : List Grant) (ret : Option Nat) (request : Nat) : List Grant :=
  live ++ ret.toList.map (⟨·, request⟩)

/-- The ledger after a call: the block it took is gone, the one it returned is
new. A `realloc` that returns no pointer has released its block. -/
def ledger (live : List Grant) (call : Call) (ret : Option Nat) : List Grant :=
  gain (drop live call.takes) ret call.request

/-- What a call returns to the client. -/
def Call.outputs (ret : Option Nat) : Call → List (Option Nat)
  | .free _ => []
  | .write _ _ => []
  | _ => [ret]

def Session.step (session : Session) (call : Call) : Option (Session × List (Option Nat)) :=
  match exec session.state call with
  | .error _ => none
  | .ok (ret, state) => some (⟨state, ledger session.live call ret⟩, call.outputs ret)

/-- The bytes that the client may use from a pointer on, `SIZE(ptr) - 16`. -/
def State.capacity (state : State) (off : Nat) : Nat :=
  match state.size (state.heap + off) with
  | .error _ => 0
  | .ok size => size - metaSize

/-- A request that 32 bits do not truncate to a block below `least` bytes. -/
def Sized (least bytes : Nat) : Prop := bytes = 0 ∨ least ≤ blockSize bytes

instance (least bytes : Nat) : Decidable (Sized least bytes) := inferInstanceAs (Decidable (_ ∨ _))

def Session.Holds (session : Session) (off : Nat) : Prop := ∃ grant ∈ session.live, grant.off = off

instance (session : Session) (off : Nat) : Decidable (session.Holds off) :=
  inferInstanceAs (Decidable (∃ grant ∈ session.live, _))

/-- The client passes `NULL` or a live pointer, and writes into live payloads
only. -/
def Session.Passes (session : Session) : Call → Prop
  | .free ptr => ∀ off ∈ ptr, session.Holds off
  | .realloc _ ptr _ => ∀ off ∈ ptr, session.Holds off
  | .write position _ => ∃ grant ∈ session.live,
      grant.off ≤ position ∧ position < grant.off + session.state.capacity grant.off
  | _ => True

def Call.Sized (least : Nat) : Call → Prop
  | .malloc size => Malloc.Sized least size.toNat
  | .realloc _ none size => Malloc.Sized least size.toNat
  | _ => True

/-- A request that 32 bits can hold. -/
def Call.Small (call : Call) : Prop := call.request + 24 ≤ 2 ^ 32

instance decidablePasses (session : Session) : (call : Call) → Decidable (session.Passes call)
  | .malloc _ => .isTrue trivial
  | .calloc _ _ => .isTrue trivial
  | .free none => .isTrue (by simp [Session.Passes])
  | .free (some off) => decidable_of_iff (session.Holds off) (by simp [Session.Passes])
  | .realloc _ none _ => .isTrue (by simp [Session.Passes])
  | .realloc _ (some off) _ => decidable_of_iff (session.Holds off) (by simp [Session.Passes])
  | .write position _ => inferInstanceAs (Decidable (∃ grant ∈ session.live, _))

instance decidableSized (least : Nat) : (call : Call) → Decidable (call.Sized least)
  | .malloc _ => inferInstanceAs (Decidable (Malloc.Sized _ _))
  | .calloc _ _ => .isTrue trivial
  | .free _ => .isTrue trivial
  | .realloc _ none _ => inferInstanceAs (Decidable (Malloc.Sized _ _))
  | .realloc _ (some _) _ => .isTrue trivial
  | .write _ _ => .isTrue trivial

instance (call : Call) : Decidable call.Small := inferInstanceAs (Decidable (_ ≤ _))

def Allowed (asks : Call → Prop) (session : Session) (call : Call) : Prop :=
  session.Passes call ∧ asks call

instance (asks : Call → Prop) [DecidablePred asks] (session : Session) (call : Call) :
    Decidable (Allowed asks session call) := inferInstanceAs (Decidable (_ ∧ _))

/-- What `mem_reset_brk` and `mm_init` and then calls with some kind of
requests lead to. -/
def Reaches (asks : Call → Prop) (region : State) (calls : List Call)
    (outputs : List (Option Nat)) (session : Session) : Prop :=
  ∃ start, mmInit (memResetBrk region) = .ok (0, start) ∧
    Run Session.step (Allowed asks) ⟨start, []⟩ calls outputs session

/-! ## The same calls on a layout -/

def Layout.request (layout : Layout) (bytes : Nat) : Option (Option Nat × Layout) :=
  if bytes = 0 then some (none, layout)
  else (layout.malloc (blockSize bytes)).map fun (off, next) => (some off, next)

def Layout.exec (layout : Layout) : Call → Option (Option Nat × Layout)
  | .malloc size => layout.request size.toNat
  | .calloc nmemb size => layout.calloc (u64 (nmemb.toNat * size.toNat))
  | .free none => some (none, layout)
  | .free (some off) => some (none, layout.release off)
  | .realloc _ none size => layout.request size.toNat
  | .realloc _ (some off) size =>
      if size.toNat = 0 then some (none, layout.release off) else layout.realloc off size.toNat
  | .write _ _ => some (none, layout)

/-- What the client may do, on a layout. -/
def Layout.Allows (least : Nat) (layout : Layout) : Call → Prop
  | .malloc size => Sized least size.toNat
  | .calloc _ _ => True
  | .free ptr => ∀ off ∈ ptr, ∃ block ∈ liveOf layout.blocks, block.off = off
  | .realloc _ none size => Sized least size.toNat
  | .realloc _ (some off) _ => ∃ block ∈ liveOf layout.blocks, block.off = off
  | .write position _ => ∃ block ∈ liveOf layout.blocks, block.Owns position

/-- The live blocks that a call leaves alone. -/
def Call.spares (blocks : List Block) : Call → List Block
  | .free (some off) => heldBut off blocks
  | .realloc _ (some off) _ => heldBut off blocks
  | .write _ _ => []
  | _ => held blocks

/-! ## Calls on memory that represents a layout -/

variable {state : State} {layout next : Layout} {block : Block} {least : Nat} {call : Call}

theorem Mapped.offset_address (mapped : Mapped state) {state' : State}
    (heap : state'.heap = state.heap) (ret : Option Nat) :
    state'.offset ((ret.map (state.heap + ·)).getD null) = ret := by
  cases ret with
  | none => rfl
  | some off =>
      have notNull : state.heap + off ≠ null := mapped.ne_null
      simp only [Option.map_some, Option.getD_some, State.offset, if_neg notNull, heap,
        Nat.add_sub_cancel_left]

/-- `realloc(NULL, size)` is `malloc(size)`. -/
theorem realloc_null (direction : CopyDirection) (state : State) (bytes : Nat) :
    Malloc.realloc direction state null bytes = Malloc.malloc state bytes := by
  unfold Malloc.realloc
  cases Nat.decEq bytes 0 with
  | isTrue zero =>
      have freed : Malloc.free state null = .ok state := if_pos rfl
      have nothing : Malloc.malloc state bytes = .ok (null, state) := if_pos zero
      rw [if_pos zero, freed, nothing]
      rfl
  | isFalse nonzero => rw [if_neg nonzero, if_pos rfl]

/-- `malloc` computes the layout's request, or faults where that is undefined. -/
theorem Represents.request (represents : Represents state layout none) (valid : layout.Valid least)
    (enough : 16 ≤ least) {bytes : Nat} (sized : Sized least bytes) :
    match layout.request bytes with
    | none => ∃ fault, Malloc.malloc state bytes = .error fault
    | some (ret, next) => Returns (Malloc.malloc state bytes) fun (ptr, state') =>
        ptr = (ret.map (state.heap + ·)).getD null ∧
          Yields (held layout.blocks) state next none state' := by
  unfold Layout.request
  cases Nat.decEq bytes 0 with
  | isTrue zero =>
      have nothing : Malloc.malloc state bytes = .ok (null, state) := if_pos zero
      rw [if_pos zero, nothing]
      exact .ok ⟨rfl, .refl represents⟩
  | isFalse nonzero =>
      have large : least ≤ blockSize bytes := sized.resolve_left nonzero
      rw [if_neg nonzero]
      cases allocated : layout.malloc (blockSize bytes) with
      | none => exact ⟨.segv, represents.malloc_refused valid (by omega) nonzero allocated⟩
      | some given =>
          obtain ⟨off, next⟩ := given
          exact represents.malloc valid (by omega) nonzero (by omega) allocated

theorem Represents.exec (represents : Represents state layout none) (valid : layout.Valid least)
    (enough : 16 ≤ least) (small : least ≤ 24) (allows : layout.Allows least call) :
    match layout.exec call with
    | none => ∃ fault, Malloc.exec state call = .error fault
    | some (ret, next) => ∃ state', Malloc.exec state call = .ok (ret, state') ∧
        Yields (call.spares layout.blocks) state next none state' := by
  have positive : 0 < least := by omega
  -- the result of a call that returns a pointer, as an offset
  have returned : ∀ {run : Except Fault (Nat × State)} {ret : Option Nat} {next : Layout}
      {blocks : List Block},
      Returns run (fun (ptr, state') => ptr = (ret.map (state.heap + ·)).getD null ∧
        Yields blocks state next none state') →
      ∃ state', (run >>= fun (ptr, state) => pure (state.offset ptr, state)) = .ok (ret, state') ∧
        Yields blocks state next none state' := by
    rintro run ret next blocks ⟨⟨ptr, state'⟩, rfl, place, yields⟩
    refine ⟨state', ?_, yields⟩
    rw [ok_bind]
    dsimp only at place ⊢
    rw [place, represents.framed.ready.toMapped.offset_address yields.heap]
    rfl
  have failed : ∀ {run : Except Fault (Nat × State)}, (∃ fault, run = .error fault) →
      ∃ fault, (run >>= fun (ptr, state) => pure (state.offset ptr, state)) = .error fault := by
    rintro run ⟨fault, rfl⟩
    exact ⟨fault, rfl⟩
  have requested : ∀ {bytes : Nat}, Sized least bytes →
      match layout.request bytes with
      | none => ∃ fault, (Malloc.malloc state bytes >>= fun (ptr, state) =>
          pure (state.offset ptr, state)) = .error fault
      | some (ret, next) => ∃ state', (Malloc.malloc state bytes >>= fun (ptr, state) =>
          pure (state.offset ptr, state)) = .ok (ret, state') ∧
            Yields (held layout.blocks) state next none state' := by
    intro bytes sized
    have runs := represents.request valid enough sized
    cases result : layout.request bytes with
    | none =>
        rw [result] at runs
        exact failed runs
    | some given =>
        rw [result] at runs
        exact returned runs
  cases call with
  | malloc size => exact requested allows
  | calloc nmemb size =>
      cases result : layout.calloc (u64 (nmemb.toNat * size.toNat)) with
      | none =>
          simp only [Layout.exec, result]
          exact failed (represents.calloc_refused valid positive small result)
      | some given =>
          simp only [Layout.exec, result]
          exact returned (represents.calloc valid positive small result)
  | free ptr =>
      cases ptr with
      | none =>
          have nothing : Malloc.free state null = .ok state := if_pos rfl
          refine ⟨state, ?_, .refl represents⟩
          simp only [Malloc.exec, State.address, nothing, ok_bind, pure_eq_ok]
      | some off =>
          obtain ⟨block, live, rfl⟩ := allows off rfl
          obtain ⟨state', run, yields⟩ := represents.free valid positive live
          refine ⟨state', ?_, yields⟩
          simp only [Malloc.exec, State.address, run, ok_bind, pure_eq_ok]
  | realloc direction ptr size =>
      cases ptr with
      | none =>
          have runs := requested allows
          simp only [Layout.exec, Malloc.exec, State.address, realloc_null]
          exact runs
      | some off =>
          obtain ⟨block, live, rfl⟩ := allows
          cases Nat.decEq size.toNat 0 with
          | isTrue zero =>
              obtain ⟨state', run, yields⟩ := represents.free valid positive live
              have freed : Malloc.realloc direction state (state.heap + block.off) size.toNat =
                  .ok (null, state') := by
                unfold Malloc.realloc
                rw [if_pos zero, run, ok_bind]
                rfl
              simp only [Layout.exec, if_pos zero]
              refine ⟨state', ?_, yields⟩
              simp only [Malloc.exec, State.address, freed, ok_bind, pure_eq_ok, State.offset,
                if_true]
          | isFalse nonzero =>
              simp only [Layout.exec, if_neg nonzero]
              cases result : layout.realloc block.off size.toNat with
              | none =>
                  exact failed (represents.realloc_refused valid positive small live nonzero result
                    direction)
              | some given =>
                  have runs := represents.realloc valid positive small live nonzero result direction
                  exact returned (runs.mono fun _ resized => ⟨resized.ptr, resized.yields⟩)
  | write position byte =>
      obtain ⟨block, live, owns⟩ := allows
      refine ⟨state.write position byte, rfl, represents.withMem ?_, rfl, nofun⟩
      intro other outside
      have apart : state.heap + other ≠ state.heap + position := by
        intro same
        exact outside block live.1 (Nat.add_left_cancel same ▸ owns)
      exact Function.update_of_ne apart _ _

/-! ## The ledger -/

@[simp] theorem drop_none (live : List Grant) : drop live none = live := by simp [drop]

/-- The ledger names the client's blocks, each once; a request that 32 bits can
hold got a block with room for it. -/
structure Grants (live : List Grant) (blocks : Set Block) : Prop where
  nodup : (live.map Grant.off).Nodup
  mem_iff : ∀ off, (∃ grant ∈ live, grant.off = off) ↔ ∃ block ∈ blocks, block.off = off
  room : ∀ grant ∈ live, ∀ block ∈ blocks, block.off = grant.off →
    grant.request + 24 ≤ 2 ^ 32 → grant.request + 16 ≤ block.size

namespace Grants

variable {live : List Grant} {blocks : Set Block}

theorem drop (grants : Grants live blocks) (ptr : Option Nat) :
    Grants (Malloc.drop live ptr) {block ∈ blocks | some block.off ≠ ptr} := by
  have kept : ∀ grant, grant ∈ Malloc.drop live ptr ↔ grant ∈ live ∧ some grant.off ≠ ptr := by
    simp [Malloc.drop]
  refine ⟨grants.nodup.sublist (List.filter_sublist.map _), fun off => ?_, ?_⟩
  · constructor
    · rintro ⟨grant, inside, rfl⟩
      obtain ⟨inside, apart⟩ := (kept grant).mp inside
      obtain ⟨block, member, same⟩ := (grants.mem_iff _).mp ⟨grant, inside, rfl⟩
      exact ⟨block, ⟨member, same ▸ apart⟩, same⟩
    · rintro ⟨block, ⟨member, apart⟩, rfl⟩
      obtain ⟨grant, inside, same⟩ := (grants.mem_iff _).mpr ⟨block, member, rfl⟩
      exact ⟨grant, (kept grant).mpr ⟨inside, same ▸ apart⟩, same⟩
  · intro grant inside block member
    exact grants.room grant ((kept grant).mp inside).1 block member.1

theorem dropLive {blocks : List Block} (grants : Grants live (liveOf blocks)) (off : Nat) :
    Grants (Malloc.drop live (some off)) (liveBut off blocks) := by
  have fewer := grants.drop (some off)
  simp only [ne_eq, Option.some.injEq] at fewer
  exact fewer

theorem gain (grants : Grants live blocks) {request : Nat}
    (fresh : ∀ other ∈ blocks, other.off ≠ block.off)
    (room : request + 24 ≤ 2 ^ 32 → request + 16 ≤ block.size) :
    Grants (Malloc.gain live (some block.off) request) (insert block blocks) := by
  have outside : ∀ grant ∈ live, grant.off ≠ block.off := by
    intro grant inside same
    obtain ⟨other, member, place⟩ := (grants.mem_iff _).mp ⟨grant, inside, rfl⟩
    exact fresh other member (place.trans same)
  have added : ∀ grant, grant ∈ Malloc.gain live (some block.off) request ↔
      grant ∈ live ∨ grant = ⟨block.off, request⟩ := by
    simp [Malloc.gain]
  refine ⟨?_, fun off => ?_, ?_⟩
  · have offs : (Malloc.gain live (some block.off) request).map Grant.off =
        live.map Grant.off ++ [block.off] := by simp [Malloc.gain]
    rw [offs]
    refine List.nodup_append.mpr ⟨grants.nodup, List.nodup_singleton _, ?_⟩
    intro off inLive other isNew same
    obtain ⟨grant, inside, rfl⟩ := List.mem_map.mp inLive
    exact outside grant inside (same.trans (List.mem_singleton.mp isNew))
  · simp only [added, or_and_right, exists_or, exists_eq_left, Set.mem_insert_iff, grants.mem_iff,
      or_comm]
  · intro grant inside other member place small
    cases (added grant).mp inside with
    | inl old =>
        cases member with
        | inl isNew => exact absurd (isNew ▸ place).symm (outside grant old)
        | inr member => exact grants.room grant old other member place small
    | inr isNew =>
        subst isNew
        cases member with
        | inl isBlock => exact isBlock ▸ room small
        | inr member => exact absurd place (fresh other member)

theorem gain_none (grants : Grants live blocks) (request : Nat) :
    Grants (Malloc.gain live none request) blocks := by
  have same : Malloc.gain live none request = live := by simp [Malloc.gain]
  rw [same]
  exact grants

end Grants

/-- What an allocated block adds to the ledger. -/
theorem Layout.Valid.request (valid : layout.Valid least) (positive : 0 < least)
    (small : least ≤ 24) {bytes : Nat} (sized : Sized least bytes) {ret : Option Nat}
    (result : layout.request bytes = some (ret, next)) {live : List Grant}
    (grants : Grants live (liveOf layout.blocks)) :
    next.Valid least ∧ Grants (gain live ret bytes) (liveOf next.blocks) := by
  unfold Layout.request at result
  split at result
  case isTrue =>
    cases result
    exact ⟨valid, grants.gain_none _⟩
  case isFalse nonzero =>
    obtain ⟨⟨off, grown⟩, allocated, given⟩ := Option.map_eq_some_iff.mp result
    cases given
    obtain ⟨valid', gained, rfl, longer, gains⟩ := valid.malloc positive small
      (sized.resolve_left nonzero) (blockSize_aligned bytes) allocated
    refine ⟨valid', ?_⟩
    rw [gains.live]
    exact grants.gain gains.fresh fun fits => (blockSize_ge fits).trans longer

theorem Layout.Valid.exec (valid : layout.Valid least) (positive : 0 < least) (small : least ≤ 24)
    (allows : layout.Allows least call) {ret : Option Nat}
    (result : layout.exec call = some (ret, next)) {live : List Grant}
    (grants : Grants live (liveOf layout.blocks)) :
    next.Valid least ∧ Grants (ledger live call ret) (liveOf next.blocks) := by
  -- a released block, and a block that `realloc` replaces
  have released : ∀ {block : Block}, block ∈ liveOf layout.blocks →
      (layout.release block.off).Valid least ∧
        Grants (drop live (some block.off)) (liveOf (layout.release block.off).blocks) := by
    intro block inside
    obtain ⟨valid', left⟩ := valid.release positive inside
    exact ⟨valid', left ▸ grants.dropLive block.off⟩
  unfold ledger
  cases call with
  | malloc size =>
      have requested := valid.request positive small allows result grants
      rw [show drop live (Call.malloc size).takes = live from drop_none live]
      exact requested
  | calloc nmemb size =>
      rw [show drop live (Call.calloc nmemb size).takes = live from drop_none live]
      unfold Layout.exec at result
      rcases Layout.calloc_cases result with ⟨_, rfl, rfl⟩ | ⟨nonzero, whole, new, rfl, allocated⟩
      · exact ⟨valid, grants.gain_none _⟩
      · have large : 24 ≤ blockSize (u64 (nmemb.toNat * size.toNat)) := by
          rw [blockSize_eq whole]
          omega
        obtain ⟨valid', gained, rfl, longer, gains⟩ := valid.malloc positive small
          (by omega) (blockSize_aligned _) allocated
        refine ⟨valid', ?_⟩
        rw [gains.live]
        refine grants.gain gains.fresh fun fits => ?_
        have exactly : u64 (nmemb.toNat * size.toNat) = nmemb.toNat * size.toNat := by
          have product : nmemb.toNat * size.toNat + 24 ≤ 2 ^ 32 := fits
          rw [← Int.natCast_mul]
          exact u64_of_lt (by omega)
        rw [exactly] at longer
        exact (blockSize_ge fits).trans longer
  | free ptr =>
      cases ptr with
      | none =>
          cases result
          rw [show drop live (Call.free none).takes = live from drop_none live]
          exact ⟨valid, grants.gain_none _⟩
      | some off =>
          obtain ⟨block, inside, rfl⟩ := allows off rfl
          cases result
          exact ⟨(released inside).1, (released inside).2.gain_none _⟩
  | realloc direction ptr size =>
      cases ptr with
      | none =>
          have requested := valid.request positive small allows result grants
          rw [show drop live (Call.realloc direction none size).takes = live from drop_none live]
          exact requested
      | some off =>
          obtain ⟨block, inside, rfl⟩ := allows
          simp only [Layout.exec] at result
          split at result
          case isTrue =>
            cases result
            exact ⟨(released inside).1, (released inside).2.gain_none _⟩
          case isFalse nonzero =>
            obtain ⟨valid', moves⟩ := valid.realloc positive small inside result
            refine ⟨valid', ?_⟩
            cases ret with
            | none => exact moves.gone rfl ▸ (grants.dropLive block.off).gain_none _
            | some new =>
                obtain ⟨moved, rfl, _, left, fresh, longer⟩ := moves.kept new rfl
                rw [left]
                exact (grants.dropLive block.off).gain fresh longer
  | write position byte =>
      cases result
      rw [show drop live (Call.write position byte).takes = live from drop_none live]
      exact ⟨valid, grants.gain_none _⟩

/-! ## Runs -/

/-- The invariant of a session. -/
structure Tracks (least : Nat) (session : Session) (layout : Layout) : Prop where
  represents : Represents session.state layout none
  valid : layout.Valid least
  grants : Grants session.live (liveOf layout.blocks)

def Layout.step (layout : Layout) (call : Call) : Option (Layout × List (Option Nat)) :=
  (layout.exec call).map fun (ret, next) => (next, call.outputs ret)

theorem Represents.capacity (represents : Represents state layout none)
    (inside : block ∈ layout.blocks) : state.capacity block.off = block.size - metaSize := by
  unfold State.capacity
  rw [represents.framed.size inside (by simp)]

namespace Tracks

variable {session : Session}

theorem live (tracks : Tracks least session layout) {off : Nat} :
    session.Holds off ↔ ∃ block ∈ liveOf layout.blocks, block.off = off :=
  tracks.grants.mem_iff off

theorem allows (tracks : Tracks least session layout)
    (allowed : Allowed (Call.Sized least) session call) : layout.Allows least call := by
  obtain ⟨passes, sized⟩ := allowed
  cases call with
  | malloc size => exact sized
  | calloc nmemb size => trivial
  | free ptr => exact fun off isPtr => tracks.live.mp (passes off isPtr)
  | realloc direction ptr size =>
      cases ptr with
      | none => exact sized
      | some off => exact tracks.live.mp (passes off rfl)
  | write position byte =>
      obtain ⟨grant, inside, low, high⟩ := passes
      obtain ⟨block, live, same⟩ := tracks.live.mp ⟨grant, inside, rfl⟩
      rw [← same, tracks.represents.capacity live.1, metaSize_eq] at high
      exact ⟨block, live, by omega, by omega⟩

/-- What an allowed call does to a session, in one statement. -/
theorem step (tracks : Tracks least session layout) (enough : 16 ≤ least) (small : least ≤ 24)
    (allowed : Allowed (Call.Sized least) session call) :
    match layout.exec call with
    | none => session.step call = none
    | some (ret, next) => ∃ state',
        session.step call = some (⟨state', ledger session.live call ret⟩, call.outputs ret) ∧
          Tracks least ⟨state', ledger session.live call ret⟩ next ∧
          Yields (call.spares layout.blocks) session.state next none state' := by
  have allows := tracks.allows allowed
  have runs := tracks.represents.exec tracks.valid enough small allows
  cases result : layout.exec call with
  | none =>
      rw [result] at runs
      obtain ⟨fault, failed⟩ := runs
      simp only [Session.step, failed]
  | some given =>
      obtain ⟨ret, next⟩ := given
      rw [result] at runs
      obtain ⟨state', run, yields⟩ := runs
      obtain ⟨valid, grants⟩ :=
        tracks.valid.exec (by omega) small allows result tracks.grants
      exact ⟨state', by simp only [Session.step, run], ⟨yields.represents, valid, grants⟩, yields⟩

/-- A step of the session is one of the layout. -/
theorem of_step (tracks : Tracks least session layout) (enough : 16 ≤ least) (small : least ≤ 24)
    (allowed : Allowed (Call.Sized least) session call) {later : Session} {more : List (Option Nat)}
    (stepped : session.step call = some (later, more)) :
    ∃ ret next, layout.exec call = some (ret, next) ∧ more = call.outputs ret ∧
      later.live = ledger session.live call ret ∧ Tracks least later next ∧
      Yields (call.spares layout.blocks) session.state next none later.state := by
  have runs := tracks.step enough small allowed
  cases result : layout.exec call with
  | none =>
      rw [result] at runs
      exact nomatch stepped.symm.trans runs
  | some given =>
      obtain ⟨ret, next⟩ := given
      rw [result] at runs
      obtain ⟨state', run, tracks', yields⟩ := runs
      obtain ⟨rfl, rfl⟩ := Prod.mk.inj (Option.some.inj (stepped.symm.trans run))
      exact ⟨ret, next, rfl, rfl, rfl, tracks', yields⟩

end Tracks

theorem start_tracks {region start : State} (mapped : Mapped region)
    (init : mmInit (memResetBrk region) = .ok (0, start)) :
    Tracks least ⟨start, []⟩ .empty ∧ start.heap = region.heap := by
  have mapped' : Mapped (memResetBrk region) :=
    mapped.of_same rfl rfl
  rw [mmInit_opens mapped' rfl] at init
  obtain ⟨_, rfl⟩ := Prod.mk.inj (Except.ok.inj init)
  refine ⟨⟨opened_represents mapped', Layout.empty_valid least, ?_⟩, rfl⟩
  exact ⟨List.nodup_nil, by simp [liveOf, Layout.empty], by simp⟩

theorem Reaches.mono {strong weak : Call → Prop} {region : State} {calls : List Call}
    {outputs : List (Option Nat)} {session : Session}
    (reaches : Reaches strong region calls outputs session)
    (implies : ∀ call, strong call → weak call) : Reaches weak region calls outputs session := by
  obtain ⟨start, init, run⟩ := reaches
  exact ⟨start, init, run.mono fun _ call allowed => ⟨allowed.1, implies call allowed.2⟩⟩

theorem Sized.mono {lower bytes : Nat} (sized : Sized least bytes) (le : lower ≤ least) :
    Sized lower bytes := sized.imp_right le.trans

theorem sized_of_small {bytes : Nat} (small : bytes + 24 ≤ 2 ^ 32) : Sized 24 bytes := by
  cases Nat.decEq bytes 0 with
  | isTrue zero => exact .inl zero
  | isFalse nonzero =>
      right
      rw [blockSize_eq small]
      omega

theorem Call.Sized.mono {lower : Nat} (sized : call.Sized least) (le : lower ≤ least) :
    call.Sized lower := by
  cases call with
  | malloc size => exact Malloc.Sized.mono sized le
  | realloc direction ptr size =>
      cases ptr with
      | none => exact Malloc.Sized.mono sized le
      | some off => trivial
  | calloc nmemb size => trivial
  | free ptr => trivial
  | write position byte => trivial

theorem Call.Small.sized (small : call.Small) : call.Sized 24 := by
  cases call with
  | malloc size => exact sized_of_small small
  | realloc direction ptr size =>
      cases ptr with
      | none => exact sized_of_small small
      | some off => trivial
  | calloc nmemb size => trivial
  | free ptr => trivial
  | write position byte => trivial

/-- A run of the package is one of the layout. -/
theorem Reaches.tracks {region : State} {calls : List Call} {outputs : List (Option Nat)}
    {session : Session} (reaches : Reaches (Call.Sized least) region calls outputs session)
    (mapped : Mapped region) (enough : 16 ≤ least) (small : least ≤ 24) :
    ∃ layout, Run Layout.step (fun _ _ => True) .empty calls outputs layout ∧
      Tracks least session layout ∧ session.state.heap = region.heap := by
  obtain ⟨start, init, run⟩ := reaches
  obtain ⟨opened, base⟩ : Tracks least ⟨start, []⟩ .empty ∧ start.heap = region.heap :=
    start_tracks mapped init
  induction run with
  | nil => exact ⟨.empty, .nil, opened, base⟩
  | snoc _ allowed stepped ih =>
      obtain ⟨layout, earlier, tracks, heap⟩ := ih
      obtain ⟨ret, next, result, rfl, _, tracks', yields⟩ :=
        tracks.of_step enough small allowed stepped
      refine ⟨next, .snoc earlier trivial ?_, tracks', yields.heap.trans heap⟩
      unfold Layout.step
      rw [result]
      rfl

/-- A run of which only the outputs are compared. -/
theorem Reaches.of_outputs {asks : Call → Prop} [DecidablePred asks] {region : State}
    {calls : List Call} {outputs : List (Option Nat)} (mapped : Mapped region)
    (executed : (Run.exec (Run.guarded Session.step (Allowed asks))
      ⟨(memResetBrk region).opened, []⟩ calls).map Prod.snd = some outputs) :
    ∃ session, Reaches asks region calls outputs session := by
  have mapped' : Mapped (memResetBrk region) :=
    mapped.of_same rfl rfl
  obtain ⟨session, run⟩ := Run.of_outputs executed
  exact ⟨session, _, mmInit_opens mapped' rfl, run⟩

/-- A region with bytes that are left from before. -/
def sampleRegion : State := memInit 4096 fun address => UInt8.ofNat address

theorem sampleRegion_mapped : Mapped sampleRegion :=
  ⟨by decide, by decide, by decide, rfl⟩

/-! ## Where a call faults -/

/-- A call that 32 bits can hold is undefined only where no free block fits and
the heap is full. -/
theorem Layout.Valid.exec_none (valid : layout.Valid least) (positive : 0 < least)
    (small : least ≤ 24) (allows : layout.Allows least call) (low : call.Small)
    (result : layout.exec call = none) :
    layout.fit (blockSize call.request) = none ∧
      maxHeap < layout.top + blockSize call.request := by
  have request : ∀ {bytes : Nat}, layout.request bytes = none →
      layout.malloc (blockSize bytes) = none := by
    intro bytes result
    unfold Layout.request at result
    split at result
    case isTrue => cases result
    case isFalse => exact Option.map_eq_none_iff.mp result
  rw [← valid.malloc_none positive]
  unfold Call.Small at low
  cases call with
  | malloc size => exact request result
  | calloc nmemb size =>
      have product : u64 (nmemb.toNat * size.toNat) = nmemb.toNat * size.toNat := by
        rw [← Int.natCast_mul]
        exact u64_of_lt (lt_of_le_of_lt (Nat.le_add_right _ 24) (lt_of_le_of_lt low (by decide)))
      simp only [Layout.exec, product] at result
      exact valid.calloc_none positive small low result
  | free ptr =>
      cases ptr with
      | none => cases result
      | some off => cases result
  | realloc direction ptr size =>
      cases ptr with
      | none => exact request result
      | some off =>
          obtain ⟨block, live, rfl⟩ := allows
          simp only [Layout.exec] at result
          split at result
          case isTrue => cases result
          case isFalse =>
            have moved := valid.realloc_none positive live result
            rw [u32_of_lt (by simp only [Call.request] at low; omega)] at moved
            exact valid.reallocMove_none positive small low moved
  | write position byte => cases result

end OsPractices.Malloc
