import OsPractices.Malloc.Refusal
import OsPractices.Mdriver.Advance
import OsPractices.Mdriver.Refuses
import OsPractices.Naive.Code

/-!
# The naive allocator keeps its contract

The blocks lie one behind the other, each behind its size, and what they take of
the heap is what the requests have cost. What does not fit is refused.
-/

set_option autoImplicit false

namespace OsPractices.Naive

open Library
open Library.Memory (CopyDirection)
open Malloc (Fault State Mapped null u64 offsetT maxHeap maxHeap_eq memSbrk sbrkFailed memResetBrk
  memcpy)
open Mdriver

/-- What a block of this size takes of the heap. -/
def cost (size : Nat) : Nat := Malloc.align (size + sizeTSize)

/-- The size word of a block and its bytes. -/
def whole (extent : Extent) : Extent := ⟨extent.start - sizeTSize, extent.length + sizeTSize⟩

/-- The heap has grown by what was spent, and the blocks lie in it, apart from
each other, each behind its size. -/
structure Holds (state : State) (spent : Nat) (live : List Extent) : Prop where
  mapped : Mapped state
  brk : state.memBrk = state.heap + spent
  aligned : spent % 8 = 0
  limit : spent ≤ maxHeap
  placed : ∀ extent ∈ live, state.heap + 8 ≤ extent.start ∧ 0 < extent.length ∧
    extent.length < 2 ^ 31 ∧ extent.start % 8 = 0 ∧ extent.stop ≤ state.memBrk
  apart : live.Pairwise fun left right => (whole left).Apart (whole right)
  sizes : ∀ extent ∈ live, state.mem.load64 (extent.start - 8) = extent.length

@[simp] theorem sizeTSize_eq : sizeTSize = 8 := by decide

theorem cost_eq {size : Nat} (small : size < 2 ^ 31) : cost size = (size + 15) / 8 * 8 := by
  unfold cost Malloc.align Malloc.alignment u64
  rw [sizeTSize_eq]
  omega

variable {state : State} {spent size : Nat} {live : List Extent} {extent : Extent}

namespace Holds

theorem extents_apart (holds : Holds state spent live) : live.Pairwise Extent.Apart := by
  refine (List.Pairwise.and_mem.mp holds.apart).imp fun {left right} facts => ?_
  obtain ⟨member, member', apart⟩ := facts
  have start := (holds.placed left member).1
  have start' := (holds.placed right member').1
  unfold whole Extent.Apart Extent.stop at apart
  unfold Extent.Apart Extent.stop
  rw [sizeTSize_eq] at apart
  dsimp only at apart
  omega

theorem sublist (holds : Holds state spent live) {fewer : List Extent}
    (sublist : fewer.Sublist live) : Holds state spent fewer :=
  { holds with
    placed := fun extent member => holds.placed extent (sublist.subset member)
    apart := holds.apart.sublist sublist
    sizes := fun extent member => holds.sizes extent (sublist.subset member) }

/-- The client writes into a block of its own. -/
theorem write (holds : Holds state spent live) (member : extent ∈ live) {memory : Memory}
    (outside : ∀ address, ¬ extent.Covers address → memory address = state.mem address) :
    Holds { state with mem := memory } spent live := by
  refine { holds with
    mapped := holds.mapped.of_same rfl rfl
    sizes := fun other inside => ?_ }
  refine Eq.trans (Memory.load64_congr fun byte above below => outside byte fun covers => ?_)
    (holds.sizes other inside)
  obtain ⟨above', upTo⟩ := covers
  have start := (holds.placed extent member).1
  have start' := (holds.placed other inside).1
  cases decEq extent other with
  | isTrue same =>
      subst same
      omega
  | isFalse different =>
      have symmetric : Std.Symm fun left right => (whole left).Apart (whole right) :=
        ⟨fun _ _ apart => apart.symm⟩
      have apart := holds.apart.forall member inside different
      unfold whole Extent.Apart Extent.stop at apart
      unfold Extent.stop at upTo
      rw [sizeTSize_eq] at apart
      dsimp only at apart
      omega

/-- The heap has room for a block behind the last one. -/
theorem malloc (holds : Holds state spent live) (positive : 0 < size) (small : size < 2 ^ 31)
    (room : spent + cost size ≤ maxHeap) :
    ∃ later, Naive.malloc state size = .ok (state.memBrk + 8, later) ∧
      Holds later (spent + cost size) (⟨state.memBrk + 8, size⟩ :: live) ∧
      later.heap = state.heap ∧ state.memBrk ≤ later.memBrk ∧
      ∀ address < state.memBrk, later.mem address = state.mem address := by
  have limit := maxHeap_eq
  have below := holds.mapped.below
  have isCost := cost_eq small
  have brk := holds.brk
  have aligned := holds.aligned
  have page := holds.mapped.page
  have newsize : offsetT (Malloc.align (u64 (size + sizeTSize))) = cost size := by
    have inner : u64 (size + sizeTSize) = size + sizeTSize := by
      rw [sizeTSize_eq]
      exact Malloc.u64_of_lt (by omega)
    rw [inner]
    exact Malloc.offsetT_of_small (by omega) (by change (cost size : Int) < _; omega)
  have granted := Malloc.memSbrk_granted holds.mapped brk room
  have ptr : u64 ((state.heap + spent : Nat) + sizeTSize) = state.memBrk + 8 := by
    unfold u64
    rw [sizeTSize_eq]
    omega
  have header : sizePtr (state.memBrk + 8) = state.memBrk := by
    unfold sizePtr u64
    rw [sizeTSize_eq]
    omega
  refine ⟨{ state with
    memBrk := state.heap + (spent + cost size)
    mem := state.mem.store64 state.memBrk size }, ?_, ?_, rfl, ?_, fun address before => ?_⟩
  · have inside : State.Contains { state with memBrk := state.heap + (spent + cost size) }
        state.memBrk sizeTSize := by
      rw [sizeTSize_eq]
      change state.heap ≤ state.memBrk ∧ state.memBrk + 8 ≤ state.heap + maxHeap
      omega
    have notNegative : ¬ 2 ^ 63 ≤ state.heap + spent := by omega
    have answered := congrArg (fun granted => mallocAt granted.1 granted.2 size) granted
    rw [← newsize] at answered
    refine answered.trans ?_
    unfold mallocAt setSize
    dsimp only
    rw [if_neg notNegative, ptr, header, if_pos inside, ok_bind, pure_eq_ok]
  · refine ⟨holds.mapped.of_same rfl rfl, rfl, by omega, room, fun extent member => ?_, ?_,
      fun extent member => ?_⟩
    · cases List.mem_cons.mp member with
      | inl isNew =>
          subst isNew
          unfold Extent.stop
          dsimp only
          omega
      | inr inside =>
          obtain ⟨low, room', small', start, high⟩ := holds.placed extent inside
          exact ⟨low, room', small', start, by dsimp only; omega⟩
    · refine List.pairwise_cons.mpr ⟨fun other member => .inr ?_, holds.apart⟩
      have high := (holds.placed other member).2.2.2.2
      have low := (holds.placed other member).1
      unfold whole Extent.stop
      unfold Extent.stop at high
      rw [sizeTSize_eq]
      dsimp only
      omega
    · cases List.mem_cons.mp member with
      | inl isNew =>
          subst isNew
          dsimp only
          rw [Nat.add_sub_cancel, Memory.load64_store64_same, Nat.mod_eq_of_lt (by omega)]
      | inr inside =>
          have high := (holds.placed extent inside).2.2.2.2
          have low := (holds.placed extent inside).1
          have room' := (holds.placed extent inside).2.1
          unfold Extent.stop at high
          dsimp only
          rw [Memory.load64_store64_apart (by omega)]
          exact holds.sizes extent inside
  · dsimp only
    omega
  · exact Memory.store64_of_outside (.inl before)

/-- There is no room for the block, and nothing changes. -/
theorem refuses (holds : Holds state spent live) (small : size < 2 ^ 31)
    (full : maxHeap < spent + cost size) : Naive.malloc state size = .ok (null, state) := by
  have limit := maxHeap_eq
  have isCost := cost_eq small
  have brk := holds.brk
  have inner : u64 (size + sizeTSize) = size + sizeTSize := by
    rw [sizeTSize_eq]
    exact Malloc.u64_of_lt (by omega)
  have newsize : Malloc.align (u64 (size + sizeTSize)) = cost size := by
    rw [inner]
    rfl
  have refused := Malloc.memSbrk_refused holds.mapped brk (by omega) full
  have answered := congrArg (fun granted => mallocAt granted.1 granted.2 size) refused
  rw [← newsize] at answered
  refine answered.trans ?_
  unfold mallocAt
  have negative : 2 ^ 63 ≤ sbrkFailed := by decide
  rw [if_pos negative, pure_eq_ok]

/-- The data moves to a new block, and the old one is lost. -/
theorem realloc {front back : List Extent} (direction : CopyDirection)
    (holds : Holds state spent (front ++ extent :: back)) (positive : 0 < size)
    (small : size < 2 ^ 31) (room : spent + cost size ≤ maxHeap) :
    ∃ later, Naive.realloc direction state extent.start size = .ok (state.memBrk + 8, later) ∧
      Holds later (spent + cost size) (⟨state.memBrk + 8, size⟩ :: (front ++ back)) ∧
      later.heap = state.heap ∧ state.memBrk ≤ later.memBrk ∧
      (∀ address < state.memBrk, later.mem address = state.mem address) ∧
      ∀ index < min extent.length size,
        later.mem (state.memBrk + 8 + index) = state.mem (extent.start + index) := by
  obtain ⟨next, run, holds', heap, brk, same⟩ := holds.malloc positive small room
  have inside : extent ∈ front ++ extent :: back := by simp
  obtain ⟨low, _, _, _, high⟩ := holds.placed extent inside
  have positive' := holds.mapped.positive
  have below := holds.mapped.below
  have limit := maxHeap_eq
  have top : state.memBrk + 8 + size ≤ next.heap + maxHeap := by
    have stop := (holds'.placed _ List.mem_cons_self).2.2.2.2
    have brk' := holds'.brk
    have limit' := holds'.limit
    unfold Extent.stop at stop
    dsimp only at stop
    omega
  have header : sizePtr extent.start = extent.start - 8 := by
    unfold sizePtr u64
    unfold Extent.stop at high
    rw [sizeTSize_eq]
    have brk := holds.brk
    have limit' := holds.limit
    omega
  have word : getSize next extent.start = .ok extent.length := by
    unfold getSize
    rw [header, if_pos, holds'.sizes extent (List.mem_cons_of_mem _ inside)]
    unfold State.Contains
    unfold Extent.stop at high
    rw [sizeTSize_eq]
    omega
  have least : (if size < extent.length then size else extent.length) = min extent.length size := by
    grind
  have target : next.Contains (state.memBrk + 8) (min extent.length size) := by
    refine ⟨?_, ?_⟩
    · have brk := holds.brk
      omega
    · have := Nat.min_le_right extent.length size
      omega
  have copied : memcpy direction next (state.memBrk + 8) extent.start (min extent.length size) =
      .ok { next with
        mem := next.mem.copy direction (state.memBrk + 8) extent.start (min extent.length size) } :=
    if_pos (.inr target)
  have run' : Naive.realloc direction state extent.start size = .ok (state.memBrk + 8, { next with
      mem := next.mem.copy direction (state.memBrk + 8) extent.start
        (min extent.length size) }) := by
    unfold Naive.realloc
    rw [if_neg (Nat.pos_iff_ne_zero.mp positive), if_neg (by unfold null; omega), run, ok_bind]
    dsimp only
    rw [if_neg (by unfold null; omega), word, ok_bind, least, copied, ok_bind]
    rfl
  refine ⟨_, run', ?_, heap, brk, fun address before => ?_, fun index below => ?_⟩
  · have fewer : List.Sublist (⟨state.memBrk + 8, size⟩ :: (front ++ back))
        (⟨state.memBrk + 8, size⟩ :: (front ++ extent :: back)) :=
      ((List.sublist_cons_self _ _).append_left _).cons_cons _
    refine (holds'.sublist fewer).write List.mem_cons_self fun address outside => ?_
    refine Memory.copy_of_outside ?_
    unfold Extent.Covers Extent.stop at outside
    dsimp only at outside
    have := Nat.min_le_right extent.length size
    omega
  · exact (Memory.copy_of_outside (.inl (by omega))).trans (same address before)
  · refine (Memory.copy_of_inside below (.inl ?_)).trans (same _ ?_)
    · unfold Extent.stop at high
      omega
    · unfold Extent.stop at high
      omega

/-- Where there is no room for the new block, the old one is left untouched. -/
theorem realloc_refuses {front back : List Extent} (direction : CopyDirection)
    (holds : Holds state spent (front ++ extent :: back)) (positive : 0 < size)
    (small : size < 2 ^ 31) (full : maxHeap < spent + cost size) :
    Naive.realloc direction state extent.start size = .ok (null, state) := by
  have low := (holds.placed extent (by simp)).1
  have notNull : extent.start ≠ null := by
    unfold null
    omega
  unfold Naive.realloc
  rw [if_neg (Nat.pos_iff_ne_zero.mp positive), if_neg notNull, holds.refuses small full, ok_bind]
  dsimp only
  rw [if_pos rfl, pure_eq_ok]

theorem spares {direction : CopyDirection} {later : State} (holds : Holds state spent live)
    (heap : later.heap = state.heap) (brk : state.memBrk ≤ later.memBrk)
    (same : ∀ address < state.memBrk, later.mem address = state.mem address) :
    (naive direction).allocator.Spares live state later where
  low := heap
  high := brk
  intact extent member address covers :=
    same address (Nat.lt_of_lt_of_le covers.2 (holds.placed extent member).2.2.2.2)

end Holds

theorem naive_mmMalloc (direction : CopyDirection) : (naive direction).mmMalloc = malloc := by
  unfold naive
  dsimp only

theorem naive_mmRealloc (direction : CopyDirection) :
    (naive direction).mmRealloc = realloc direction := by
  unfold naive
  dsimp only

theorem naive_malloc (direction : CopyDirection) :
    (naive direction).allocator.malloc = malloc := by
  unfold Package.allocator
  dsimp only
  rw [naive_mmMalloc]

theorem naive_realloc (direction : CopyDirection) :
    (naive direction).allocator.realloc = realloc direction := by
  unfold Package.allocator
  dsimp only
  rw [naive_mmRealloc]

theorem realloc_null (direction : CopyDirection) (state : State) (positive : 0 < size) :
    realloc direction state null size = malloc state size := by
  unfold realloc
  rw [if_neg (Nat.pos_iff_ne_zero.mp positive), if_pos rfl]

/-- `mm-naive.c` keeps the contract. -/
def naiveSound (direction : CopyDirection) : Sound (naive direction) where
  contract := {
    Holds := Holds
    alignment := Malloc.alignment
    largest := 2 ^ 31
    cost := cost
    limit := maxHeap
    placed := fun holds member => by
      obtain ⟨low, room, _, aligned, high⟩ := holds.placed _ member
      exact ⟨by omega, room, aligned, Nat.le_trans (Nat.le_add_right _ _) low, high⟩
    apart := fun holds => holds.extents_apart
    write := fun holds member outside => holds.write member outside
    malloc := fun holds positive small affordable => by
      obtain ⟨later, run, holds', heap, brk, same⟩ := holds.malloc positive small affordable
      refine ⟨_, later, ?_, holds', holds.spares heap brk same⟩
      rw [naive_malloc, run]
    free := fun {state spent front back extent} holds => by
      have fewer := holds.sublist ((List.sublist_cons_self extent back).append_left front)
      exact ⟨state, rfl, fewer, fewer.spares rfl (Nat.le_refl _) fun _ _ => rfl⟩
    freeNull := fun _ => rfl
    realloc := fun {state spent size front back extent} holds positive small affordable => by
      have fewer := holds.sublist ((List.sublist_cons_self extent back).append_left front)
      obtain ⟨later, run, holds', heap, brk, same, data⟩ :=
        holds.realloc direction positive small affordable
      refine ⟨_, later, ?_, holds', fewer.spares heap brk same, data⟩
      rw [naive_realloc, run]
    reallocNull := fun state size positive => by
      rw [naive_realloc, naive_malloc]
      exact realloc_null direction state positive
    reallocZero := fun _ _ => rfl }
  alignment := rfl
  largest := rfl
  mapped := fun holds => ⟨holds.mapped, by
    rw [holds.brk, holds.mapped.maxAddr]
    exact Nat.add_le_add_left holds.limit _⟩
  opens := fun {region} mapped => by
    refine ⟨memResetBrk region, rfl, ?_⟩
    exact ⟨mapped.of_same rfl rfl, rfl, Nat.zero_mod _, Nat.zero_le _, by simp, .nil, by simp⟩
  checkheap := fun _ => rfl

theorem naive_refuses (direction : CopyDirection) : (naiveSound direction).Refuses where
  malloc := fun holds _ small full => by
    rw [naive_mmMalloc]
    exact Holds.refuses holds small full
  realloc := fun holds positive small full => by
    rw [naive_mmRealloc]
    exact Holds.realloc_refuses direction holds positive small full

/-- What the requests of a trace take of the heap. -/
def demand (ops : List TraceOp) : Nat :=
  (ops.map fun op => if op.type = .free ∨ op.size = 0 then 0 else cost op.size).sum

theorem demand_eq (direction : CopyDirection) (ops : List TraceOp) :
    demand ops = (ops.map (naiveSound direction).price).sum := by
  unfold demand
  refine congrArg List.sum (List.map_congr_left fun op _ => ?_)
  unfold Sound.price
  cases op.type <;> simp [naiveSound]

/-- Linked with `mm-naive.c`, the driver comes to an end on every trace of a
client that keeps the rules, without a fault: it accepts the trace if all the
requests together fit into the heap, and else reports one error. -/
theorem naive_decided {direction : CopyDirection} {debugMode : DebugMode} {random : Nat → Nat}
    {trace : Trace} {driver : Driver} (mapped : Mapped driver.state) (conforms : trace.Conforms) :
    ∃ result later, evalMmValid ⟨naive direction, debugMode, random⟩ trace (trace.load driver) =
        .ok (result, later) ∧ (result = true ↔ demand trace.ops ≤ maxHeap) ∧
      later.errors = driver.errors + if result then 0 else 1 := by
  cases Nat.decLe (demand trace.ops) maxHeap with
  | isTrue fits =>
      have within := fits
      rw [demand_eq direction] at within
      obtain ⟨⟨result, later⟩, run, goes, errors, _⟩ :=
        @evalMmValid_accepts ⟨naive direction, debugMode, random⟩ trace driver
          (naiveSound direction) mapped conforms within
      cases goes
      exact ⟨true, later, run, by simp [fits], errors⟩
  | isFalse beyond =>
      have full := Nat.lt_of_not_le beyond
      rw [demand_eq direction] at full
      obtain ⟨_, _, _, later, _, _, _, run, errors, _⟩ :=
        @evalMmValid_refused ⟨naive direction, debugMode, random⟩ trace driver
          (naiveSound direction) (naive_refuses direction) mapped conforms full
      exact ⟨false, later, run, by simp [beyond], errors⟩

theorem naive_decided_sample : ∃ result later,
    evalMmValid ⟨naive .ascending, .expensive, fun index => index * index⟩ sampleTrace
        (sampleTrace.load sampleDriver) = .ok (result, later) ∧
      (result = true ↔ demand sampleTrace.ops ≤ maxHeap) ∧
      later.errors = sampleDriver.errors + if result then 0 else 1 :=
  naive_decided Malloc.sampleRegion_mapped (by decide)

end OsPractices.Naive
