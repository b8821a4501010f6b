import OsPractices.Malloc.Checkheap
import OsPractices.Malloc.Requests
import OsPractices.Mdriver.Accepts

/-!
# The segregated-list allocator under the driver

`mm-advance.c` keeps the contract of an allocator: a request of `n` bytes costs
at most the block for it, and everything fits as long as these blocks do.
-/

set_option autoImplicit false

namespace OsPractices.Mdriver

open Library
open Library.Memory (CopyDirection)
open Malloc

/-- `mm-advance.c` -/
def advance (direction : CopyDirection) : Package where
  mmInit := Malloc.mmInit
  mmMalloc := Malloc.malloc
  mmFree := Malloc.free
  mmRealloc := Malloc.realloc direction
  mmCheckheap := Malloc.mmCheckheap

variable {state later : State} {layout next : Layout} {spent size : Nat} {live : List Extent}
  {direction : CopyDirection}

/-! ## The top of the heap -/

theorem malloc_top {off : Nat} (result : layout.malloc size = some (off, next)) :
    layout.top ≤ next.top ∧ next.top ≤ layout.top + size := by
  unfold Layout.malloc at result
  split at result
  case h_1 =>
    obtain ⟨found, _, given⟩ := Option.map_eq_some_iff.mp result
    obtain ⟨_, rfl⟩ := Prod.mk.inj given
    exact ⟨Nat.le_refl _, Nat.le_add_right _ _⟩
  case h_2 =>
    split at result
    case isTrue =>
      cases result
      exact ⟨Nat.le_add_right _ _, Nat.le_refl _⟩
    case isFalse => cases result

theorem release_top (layout : Layout) (off : Nat) : (layout.release off).top = layout.top := by
  unfold Layout.release
  split
  case h_1 => rfl
  case h_2 => rfl

theorem reallocMove_top {off bytes : Nat} {ret : Option Nat}
    (result : layout.reallocMove off bytes = some (ret, next)) :
    layout.top ≤ next.top ∧ next.top ≤ layout.top + blockSize bytes := by
  unfold Layout.reallocMove at result
  split at result
  case isTrue =>
    cases result
    rw [release_top]
    exact ⟨Nat.le_refl _, Nat.le_add_right _ _⟩
  case isFalse =>
    split at result
    case h_1 => cases result
    case h_2 new grown allocated =>
      split at result
      case isTrue =>
        cases result
        rw [release_top]
        exact malloc_top allocated
      case isFalse => cases result

theorem realloc_top {off bytes : Nat} {ret : Option Nat}
    (result : layout.realloc off bytes = some (ret, next)) :
    layout.top ≤ next.top ∧ next.top ≤ layout.top + blockSize (u32 bytes) := by
  have stays : layout.top ≤ layout.top ∧ layout.top ≤ layout.top + blockSize (u32 bytes) :=
    ⟨Nat.le_refl _, Nat.le_add_right _ _⟩
  unfold Layout.realloc at result
  dsimp only at result
  split at result
  case h_1 => cases result
  case h_2 =>
    split at result
    case isTrue =>
      cases result
      exact stays
    case isFalse =>
      split at result
      case h_1 => exact reallocMove_top result
      case h_2 =>
        split at result
        case isTrue =>
          cases result
          exact stays
        case isFalse => exact reallocMove_top result

/-! ## Blocks and extents -/

/-- A live block of the layout serves the extent. -/
def Houses (state : State) (layout : Layout) (extent : Extent) : Prop :=
  ∃ block ∈ liveOf layout.blocks, extent.start = state.heap + block.off ∧ 0 < extent.length ∧
    extent.length + 16 ≤ block.size

/-- The heap is that of a layout whose blocks serve the client's extents, and
that has grown by no more than was spent. -/
structure Backs (layout : Layout) (state : State) (spent : Nat) (live : List Extent) : Prop where
  represents : Represents state layout none
  valid : layout.Valid 24
  top : layout.top ≤ 32 + spent
  houses : ∀ extent ∈ live, Houses state layout extent
  nodup : (live.map Extent.start).Nodup

theorem owns_of_covers {extent : Extent} {block : Block} {address : Nat}
    (place : extent.start = state.heap + block.off) (room : extent.length + 16 ≤ block.size)
    (covers : extent.Covers address) :
    ∃ byte, address = state.heap + byte ∧ block.Owns byte := by
  obtain ⟨low, high⟩ := covers
  unfold Extent.stop at high
  exact ⟨address - state.heap, by omega, by omega, by omega⟩

namespace Backs

theorem brk (backs : Backs layout state spent live) :
    state.memBrk = state.heap + layout.top := backs.represents.framed.brk

theorem mapped (backs : Backs layout state spent live) :
    Mapped state ∧ state.memBrk ≤ state.memMaxAddr := by
  have mapped := backs.represents.framed.ready.toMapped
  have bounded := backs.valid.laid.bounded
  rw [backs.brk, mapped.maxAddr]
  exact ⟨mapped, Nat.add_le_add_left bounded _⟩

theorem placed (backs : Backs layout state spent live) {extent : Extent} (member : extent ∈ live) :
    0 < extent.start ∧ 0 < extent.length ∧ extent.start % Malloc.alignment = 0 ∧
      extent.Within state.heap state.memBrk := by
  obtain ⟨block, isLive, place, positive, room⟩ := backs.houses extent member
  have bounds := backs.valid.laid.bounds isLive.1
  have page := backs.mapped.1.page
  rw [backs.brk]
  refine ⟨by omega, positive, ?_, ?_, ?_⟩
  · unfold Malloc.alignment
    omega
  · omega
  · unfold Extent.stop
    omega

theorem apart (backs : Backs layout state spent live) : live.Pairwise Extent.Apart := by
  have different := List.pairwise_map.mp backs.nodup
  refine different.imp_of_mem fun {left right} inLeft inRight starts => ?_
  obtain ⟨block, isLive, place, _, room⟩ := backs.houses left inLeft
  obtain ⟨other, isLive', place', _, room'⟩ := backs.houses right inRight
  have distinct : block ≠ other := by
    intro same
    exact starts (place.trans (same ▸ place'.symm))
  have apart := backs.valid.laid.tiled.apart isLive.1 isLive'.1 distinct
  unfold Extent.Apart Extent.stop
  omega

theorem write (backs : Backs layout state spent live) {extent : Extent} {memory : Memory}
    (member : extent ∈ live)
    (outside : ∀ address, ¬ extent.Covers address → memory address = state.mem address) :
    Backs layout { state with mem := memory } spent live := by
  obtain ⟨block, isLive, place, _, room⟩ := backs.houses extent member
  refine ⟨backs.represents.withMem fun byte free => ?_, backs.valid, backs.top, backs.houses,
    backs.nodup⟩
  refine outside _ fun covers => ?_
  obtain ⟨owned, same, owns⟩ := owns_of_covers place room covers
  rw [Nat.add_left_cancel same] at free
  exact free block isLive.1 owns

/-- What the client's other blocks hold stays, where the layout keeps them. -/
theorem spares {blocks : List Block} (yields : Yields blocks state next none later)
    (grows : layout.top ≤ next.top) (brk : state.memBrk = state.heap + layout.top)
    (housed : ∀ extent ∈ live, ∃ block ∈ blocks, extent.start = state.heap + block.off ∧
      extent.length + 16 ≤ block.size) :
    (advance direction).allocator.Spares live state later := by
  refine ⟨yields.heap, ?_, fun extent member address covers => ?_⟩
  · change state.memBrk ≤ later.memBrk
    rw [brk, yields.represents.framed.brk, yields.heap]
    exact Nat.add_le_add_left grows _
  · obtain ⟨block, inside, place, room⟩ := housed extent member
    obtain ⟨byte, rfl, owns⟩ := owns_of_covers place room covers
    exact yields.keeps block inside byte owns

theorem malloc (backs : Backs layout state spent live) (positive : 0 < size) (small : size < 2 ^ 31)
    (affordable : spent + blockSize size ≤ maxHeap - 32) :
    ∃ ptr later next, Malloc.malloc state size = .ok (ptr, later) ∧
      Backs next later (spent + blockSize size) (⟨ptr, size⟩ :: live) ∧
      (advance direction).allocator.Spares live state later := by
  have limit := maxHeap_eq
  have nonzero : size ≠ 0 := Nat.pos_iff_ne_zero.mp positive
  have fits : size + 24 ≤ 2 ^ 32 := by omega
  have large := blockSize_ge fits
  have enough : 24 ≤ blockSize size := by
    rw [blockSize_eq fits]
    omega
  have top := backs.top
  cases allocated : layout.malloc (blockSize size) with
  | none =>
      have full := ((backs.valid.malloc_none (by decide)).mp allocated).2
      omega
  | some given =>
      obtain ⟨off, next⟩ := given
      obtain ⟨⟨ptr, later⟩, run, place, yields⟩ :=
        backs.represents.malloc backs.valid (by decide) nonzero (by omega) allocated
      obtain ⟨valid, block, rfl, longer, gains⟩ := backs.valid.malloc (by decide) (by decide) enough
        (blockSize_aligned size) allocated
      obtain ⟨grows, bound⟩ := malloc_top allocated
      refine ⟨ptr, later, next, run, ⟨yields.represents, valid, by omega, fun extent member => ?_, ?_⟩,
        spares yields grows backs.brk fun extent member => ?_⟩
      · cases List.mem_cons.mp member with
        | inl isNew =>
            subst isNew
            refine ⟨block, gains.live ▸ Set.mem_insert _ _, ?_, positive, large.trans longer⟩
            rw [yields.heap]
            exact place
        | inr old =>
            obtain ⟨other, isLive, rest⟩ := backs.houses extent old
            refine ⟨other, gains.live ▸ Set.mem_insert_of_mem _ isLive, ?_⟩
            rw [yields.heap]
            exact rest
      · refine List.nodup_cons.mpr ⟨fun member => ?_, backs.nodup⟩
        obtain ⟨extent, inside, same⟩ := List.mem_map.mp member
        obtain ⟨other, isLive, atOther, _⟩ := backs.houses extent inside
        have fresh := gains.fresh other isLive
        dsimp only at same
        omega
      · obtain ⟨other, isLive, atOther, _, room⟩ := backs.houses extent member
        exact ⟨other, mem_held.mpr isLive, atOther, room⟩

/-- The other extents lie in other blocks. -/
theorem others {front back : List Extent} {extent : Extent} {block : Block}
    (backs : Backs layout state spent (front ++ extent :: back))
    (place : extent.start = state.heap + block.off) :
    (∀ other ∈ front ++ back, ∃ block' ∈ liveBut block.off layout.blocks,
      other.start = state.heap + block'.off ∧ 0 < other.length ∧ other.length + 16 ≤ block'.size) ∧
    ((front ++ back).map Extent.start).Nodup := by
  have nodup := backs.nodup
  rw [List.map_append, List.map_cons, List.nodup_middle, List.nodup_cons, ← List.map_append]
    at nodup
  refine ⟨fun other member => ?_, nodup.2⟩
  have inside : other ∈ front ++ extent :: back := by
    cases List.mem_append.mp member with
    | inl inFront => exact List.mem_append_left _ inFront
    | inr inBack => exact List.mem_append_right _ (List.mem_cons_of_mem _ inBack)
  obtain ⟨block', isLive, atBlock, rest⟩ := backs.houses other inside
  refine ⟨block', ⟨isLive, fun same => ?_⟩, atBlock, rest⟩
  rw [same, ← place] at atBlock
  exact nodup.1 (atBlock ▸ List.mem_map_of_mem member)

theorem free {front back : List Extent} {extent : Extent}
    (backs : Backs layout state spent (front ++ extent :: back)) :
    ∃ later next, Malloc.free state extent.start = .ok later ∧
      Backs next later spent (front ++ back) ∧
      (advance direction).allocator.Spares (front ++ back) state later := by
  obtain ⟨block, isLive, place, _⟩ := backs.houses extent (by simp)
  obtain ⟨others, nodup⟩ := backs.others place
  obtain ⟨later, run, yields⟩ := backs.represents.free backs.valid (by decide) isLive
  obtain ⟨valid, left⟩ := backs.valid.release (by decide) isLive
  have top := release_top layout block.off
  refine ⟨later, _, place ▸ run, ⟨yields.represents, valid, top ▸ backs.top, ?_, nodup⟩,
    spares yields (Nat.le_of_eq top.symm) backs.brk ?_⟩
  · intro other member
    obtain ⟨block', inside, rest⟩ := others other member
    refine ⟨block', left ▸ inside, ?_⟩
    rw [yields.heap]
    exact rest
  · intro other member
    obtain ⟨block', inside, atBlock, _, room⟩ := others other member
    exact ⟨block', mem_heldBut.mpr inside, atBlock, room⟩

theorem realloc {front back : List Extent} {extent : Extent}
    (backs : Backs layout state spent (front ++ extent :: back)) (positive : 0 < size)
    (small : size < 2 ^ 31) (affordable : spent + blockSize size ≤ maxHeap - 32) :
    ∃ ptr later next, Malloc.realloc direction state extent.start size = .ok (ptr, later) ∧
      Backs next later (spent + blockSize size) (⟨ptr, size⟩ :: (front ++ back)) ∧
      (advance direction).allocator.Spares (front ++ back) state later ∧
      ∀ index < min extent.length size,
        later.mem (ptr + index) = state.mem (extent.start + index) := by
  have limit := maxHeap_eq
  have nonzero : size ≠ 0 := Nat.pos_iff_ne_zero.mp positive
  have fits : size + 24 ≤ 2 ^ 32 := by omega
  have whole : u32 size = size := u32_of_lt (by omega)
  have top := backs.top
  obtain ⟨block, isLive, place, _, room⟩ := backs.houses extent (by simp)
  obtain ⟨others, nodup⟩ := backs.others place
  cases result : layout.realloc block.off size with
  | none =>
      have moved := backs.valid.realloc_none (by decide) isLive result
      rw [whole] at moved
      have refused := backs.valid.reallocMove_none (by decide) (by decide) fits moved
      have full := ((backs.valid.malloc_none (by decide)).mp refused).2
      omega
  | some given =>
      obtain ⟨ret, next⟩ := given
      obtain ⟨valid, moves⟩ := backs.valid.realloc (by decide) (by decide) isLive result
      obtain ⟨grows, bound⟩ := realloc_top result
      rw [whole] at bound
      cases ret with
      | none => exact absurd (whole.symm.trans (Layout.realloc_released result)) nonzero
      | some off =>
          obtain ⟨gained, rfl, busy, left, fresh, longer⟩ := moves.kept off rfl
          obtain ⟨⟨ptr, later⟩, run, resized⟩ := backs.represents.realloc backs.valid (by decide)
            (by decide) isLive nonzero result direction
          rw [whole] at resized
          have yields := resized.yields
          have atGained : ptr = state.heap + gained.off := resized.ptr
          refine ⟨ptr, later, next, place ▸ run, ⟨yields.represents, valid, by omega, ?_, ?_⟩,
            spares yields grows backs.brk ?_, ?_⟩
          · intro other member
            cases List.mem_cons.mp member with
            | inl isNew =>
                subst isNew
                refine ⟨gained, left ▸ Set.mem_insert _ _, ?_, positive, longer fits⟩
                rw [yields.heap]
                exact atGained
            | inr old =>
                obtain ⟨block', inside, rest⟩ := others other old
                refine ⟨block', left ▸ Set.mem_insert_of_mem _ inside, ?_⟩
                rw [yields.heap]
                exact rest
          · refine List.nodup_cons.mpr ⟨fun member => ?_, nodup⟩
            obtain ⟨other, inside, same⟩ := List.mem_map.mp member
            obtain ⟨block', inBut, atBlock, _⟩ := others other inside
            have apart := fresh block' inBut
            dsimp only at same
            omega
          · intro other member
            obtain ⟨block', inside, atBlock, _, room'⟩ := others other member
            exact ⟨block', mem_heldBut.mpr inside, atBlock, room'⟩
          · intro index below
            have copied := resized.data gained.off rfl index (by omega) (by omega)
            rw [atGained, place, Nat.add_assoc, Nat.add_assoc]
            exact copied

end Backs

/-- `mm-advance.c` keeps the contract. -/
def advanceSound (direction : CopyDirection) : Sound (advance direction) where
  contract := {
    Holds := fun state spent live => ∃ layout, Backs layout state spent live
    alignment := Malloc.alignment
    largest := 2 ^ 31
    cost := blockSize
    limit := maxHeap - 32
    placed := fun holds member => by
      obtain ⟨layout, backs⟩ := holds
      exact backs.placed member
    apart := fun holds => by
      obtain ⟨layout, backs⟩ := holds
      exact backs.apart
    write := fun holds member outside => by
      obtain ⟨layout, backs⟩ := holds
      exact ⟨layout, backs.write member outside⟩
    malloc := fun holds positive small affordable => by
      obtain ⟨layout, backs⟩ := holds
      obtain ⟨ptr, later, next, run, backs', spares⟩ := backs.malloc positive small affordable
      exact ⟨ptr, later, run, ⟨next, backs'⟩, spares⟩
    free := fun holds => by
      obtain ⟨layout, backs⟩ := holds
      obtain ⟨later, next, run, backs', spares⟩ := backs.free
      exact ⟨later, run, ⟨next, backs'⟩, spares⟩
    freeNull := fun state => (if_pos rfl : Malloc.free state null = .ok state)
    realloc := fun holds positive small affordable => by
      obtain ⟨layout, backs⟩ := holds
      obtain ⟨ptr, later, next, run, backs', rest⟩ := backs.realloc positive small affordable
      exact ⟨ptr, later, run, ⟨next, backs'⟩, rest⟩
    reallocNull := fun state size positive => realloc_null direction state size
    reallocZero := fun state ptr => by
      change Malloc.realloc direction state ptr 0 = (Malloc.free state ptr).map _
      unfold Malloc.realloc
      rw [if_pos rfl]
      cases Malloc.free state ptr with
      | error fault => rfl
      | ok later => rfl }
  alignment := rfl
  largest := rfl
  mapped := fun holds => by
    obtain ⟨layout, backs⟩ := holds
    exact backs.mapped
  opens := fun mapped => by
    have mapped' : Mapped (memResetBrk _) := mapped.of_same rfl rfl
    exact ⟨_, mmInit_opens mapped' rfl, .empty, opened_represents mapped', Layout.empty_valid 24,
      Nat.le_refl _, by simp, List.nodup_nil⟩
  checkheap := fun holds => by
    obtain ⟨layout, backs⟩ := holds
    exact backs.represents.checkheap backs.valid

/-- `mm-advance.c` passes the driver's test on every trace of a client that
keeps the rules, as long as the blocks for its requests fit into the heap. -/
theorem advance_accepted {debugMode : DebugMode} {random : Nat → Nat} {trace : Trace}
    {driver : Driver} (mapped : Mapped driver.state) (conforms : trace.Conforms)
    (affordable : 32 + (trace.ops.map fun op =>
      if op.type = .free ∨ op.size = 0 then 0 else blockSize op.size).sum ≤ maxHeap) :
    ∃ later, evalMmValid ⟨advance direction, debugMode, random⟩ trace (trace.load driver) =
        .ok (true, later) ∧
      later.errors = driver.errors ∧ later.output = driver.output := by
  have limit := maxHeap_eq
  have prices : (trace.ops.map fun op =>
      if op.type = .free ∨ op.size = 0 then 0 else blockSize op.size) =
        trace.ops.map (advanceSound direction).price := by
    refine List.map_congr_left fun op _ => ?_
    unfold Sound.price
    cases op.type <;> simp [advanceSound]
  rw [prices] at affordable
  have within : (trace.ops.map (advanceSound direction).price).sum ≤
      (advanceSound direction).contract.limit := by
    change _ ≤ maxHeap - 32
    omega
  obtain ⟨result, run, goes, errors, output⟩ :=
    @evalMmValid_accepts ⟨advance direction, debugMode, random⟩ trace driver
      (advanceSound direction) mapped conforms within
  exact ⟨result.2, run.trans (congrArg Except.ok (Prod.ext goes rfl)), errors, output⟩

/-- A driver whose arrays are those of no trace yet. -/
def sampleDriver : Driver := ⟨sampleRegion, [], [], [], [], randomDataLen, 0, []⟩

/-- The trace that the `README` of the traces shows. -/
def sampleTrace : Trace :=
  ⟨"stdin", 1, 3, 0,
    [⟨.alloc, 0, 512⟩, ⟨.alloc, 1, 128⟩, ⟨.realloc, 0, 640⟩, ⟨.alloc, 2, 128⟩, ⟨.free, 1, 0⟩,
      ⟨.realloc, 0, 768⟩, ⟨.free, 0, 0⟩, ⟨.free, 2, 0⟩]⟩

theorem advance_accepted_sample : ∃ later,
    evalMmValid ⟨advance .ascending, .expensive, fun index => index * index⟩ sampleTrace
        (sampleTrace.load sampleDriver) = .ok (true, later) ∧
      later.errors = 0 ∧ later.output = [] :=
  advance_accepted sampleRegion_mapped (by decide) (by decide +kernel)

end OsPractices.Mdriver
