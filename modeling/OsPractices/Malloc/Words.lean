import OsPractices.Malloc.Code

/-!
# Heap words

Inside the mapped region a pointer is the region's start plus an offset, and
the allocator's loads and stores are a function on aligned offsets. Each macro
of the source is evaluated here once, at such a pointer.
-/

set_option autoImplicit false

namespace OsPractices.Malloc

open Library

/-- What `mmap` promises of the region: it starts on a page, is not null and
lies in the user half of the address space. -/
structure Mapped (state : State) : Prop where
  page : state.heap % 4096 = 0
  positive : 0 < state.heap
  below : state.heap + maxHeap ≤ 2 ^ 47
  maxAddr : state.memMaxAddr = state.heap + maxHeap

/-- The region is where it was. -/
theorem Mapped.of_same {state later : State} (mapped : Mapped state)
    (heap : later.heap = state.heap) (maxAddr : later.memMaxAddr = state.memMaxAddr) :
    Mapped later := by
  refine ⟨?_, ?_, ?_, ?_⟩
  · exact heap ▸ mapped.page
  · exact heap ▸ mapped.positive
  · exact heap ▸ mapped.below
  · rw [maxAddr, heap, mapped.maxAddr]

/-- A mapped region whose start `mm_init` has stored. -/
structure Ready (state : State) : Prop extends Mapped state where
  base : state.heapBase = state.heap

theorem maxHeap_eq : maxHeap = 104857600 := by decide

@[simp] theorem bdrOff_eq : bdrOff = 24 := by decide

@[simp] theorem rankNum_eq : rankNum = 3 := by decide

theorem getRank_eq (size : Nat) :
    getRank size = if size ≤ 256 then 0 else if size ≤ 512 then 1 else 2 := by
  unfold getRank
  simp only [minBlkBits, maxBlkBits, stpBlkBits, Nat.reduceSub, List.range', Nat.reduceAdd,
    List.find?_cons, List.find?_nil, Nat.reducePow]
  cases Nat.decLe size 256 with
  | isTrue small => simp [small]
  | isFalse large =>
      cases Nat.decLe size 512 with
      | isTrue small => simp [large, small]
      | isFalse larger => simp [large, larger]

theorem getRank_lt (size : Nat) : getRank size < 3 := by
  rw [getRank_eq]
  split <;> try split
  all_goals decide

theorem getRank_mono {small large : Nat} (le : small ≤ large) : getRank small ≤ getRank large := by
  rw [getRank_eq, getRank_eq]
  grind

theorem u32_of_lt {value : Nat} (small : value < 2 ^ 32) : u32 value = value := by
  unfold u32
  omega

theorem u64_of_lt {value : Nat} (small : value < 2 ^ 64) : u64 value = value := by
  unfold u64
  omega

theorem offsetT_of_small {value : Int} (low : -2 ^ 31 ≤ value) (high : value < 2 ^ 31) :
    offsetT value = value := by
  unfold offsetT
  rw [Int.bmod_def]
  split <;> omega

/-- A negated 32-bit size is its negative as an `offset_t`. -/
theorem offsetT_neg {value : Nat} (small : value < 2 ^ 31) :
    offsetT (u32 (-value)) = -value := by
  unfold offsetT u32
  rw [Int.bmod_def]
  split <;> omega

theorem memSbrk_granted {state : State} {top size : Nat} (mapped : Mapped state)
    (brk : state.memBrk = state.heap + top) (room : top + size ≤ maxHeap) :
    memSbrk state size =
      (state.heap + top, { state with memBrk := state.heap + (top + size) }) := by
  have fits : ¬ ((size : Int) < 0 ∨ (state.memMaxAddr : Int) < state.memBrk + size) := by
    rw [mapped.maxAddr, brk]
    omega
  rw [memSbrk, if_neg fits, brk, Int.toNat_natCast, Nat.add_assoc]

/-! ## Words -/

/-- The word at an aligned offset from the start of the heap. -/
def words (state : State) (offset : Nat) : Nat :=
  if offset % 4 = 0 then state.mem.load32 (state.heap + offset) else 0

def State.put (state : State) (offset value : Nat) : State :=
  { state with mem := state.mem.store32 (state.heap + offset) value }

@[simp] theorem put_heap (state : State) (offset value : Nat) :
    (state.put offset value).heap = state.heap := rfl

@[simp] theorem put_memBrk (state : State) (offset value : Nat) :
    (state.put offset value).memBrk = state.memBrk := rfl

@[simp] theorem put_memMaxAddr (state : State) (offset value : Nat) :
    (state.put offset value).memMaxAddr = state.memMaxAddr := rfl

@[simp] theorem put_heapBase (state : State) (offset value : Nat) :
    (state.put offset value).heapBase = state.heapBase := rfl

theorem words_put {state : State} {offset : Nat} (aligned : offset % 4 = 0) (value : Nat) :
    words (state.put offset value) = Function.update (words state) offset (value % 2 ^ 32) := by
  funext other
  unfold words
  cases decEq other offset with
  | isTrue same => simp [same, aligned, State.put, Memory.load32_store32_same]
  | isFalse different =>
      rw [Function.update_of_ne different]
      split
      · simp only [State.put]
        exact Memory.load32_store32_apart (by omega)
      · rfl

theorem put_mem_of_outside {state : State} {offset value byte : Nat}
    (outside : byte < offset ∨ offset + 4 ≤ byte) :
    (state.put offset value).mem (state.heap + byte) = state.mem (state.heap + byte) :=
  Memory.store32_of_outside (by omega)

/-- The size and the status in the header of the block at `offset`. -/
def sizeAt (word : Nat → Nat) (offset : Nat) : Nat := unzipSize (word (offset - 8))

def statAt (word : Nat → Nat) (offset : Nat) : Nat := unzipStat (word (offset - 8))

/-- Where the block at `offset` keeps its `prev` link. -/
def preAt (word : Nat → Nat) (offset : Nat) : Nat := offset + sizeAt word offset - 12

theorem zip_size {size status : Nat} (aligned : size % 8 = 0) :
    unzipSize (zip size status) = size := by
  unfold unzipSize zip
  omega

theorem zip_stat {size status : Nat} (small : status < 8) :
    unzipStat (zip size status) = status := by
  unfold unzipStat zip
  omega

theorem zip_lt {size status : Nat} (small : size < 2 ^ 32) : zip size status < 2 ^ 32 := by
  unfold zip
  omega

/-! ## The macros at a heap pointer -/

section Macros

variable {state : State} {offset : Nat}

theorem Ready.put (ready : Ready state) (value : Nat) : Ready (state.put offset value) :=
  ⟨⟨ready.page, ready.positive, ready.below, ready.maxAddr⟩, ready.base⟩

theorem Mapped.ne_null (mapped : Mapped state) : state.heap + offset ≠ null := by
  have := mapped.positive
  unfold null
  omega

theorem Mapped.ptrIncr_eq (mapped : Mapped state) {distance : Int} {target : Nat}
    (low : -2 ^ 31 ≤ distance) (high : distance < 2 ^ 31)
    (sum : offset + distance = target) (inside : target ≤ maxHeap) :
    ptrIncr (state.heap + offset) distance = state.heap + target := by
  have below := mapped.below
  unfold ptrIncr u64
  rw [offsetT_of_small low high]
  omega

theorem get_at (aligned : offset % 4 = 0)
    (inside : offset + 4 ≤ maxHeap) : state.get (state.heap + offset) = .ok (words state offset) := by
  unfold State.get words
  rw [if_pos ⟨by omega, by unfold wordSize; omega⟩, if_pos aligned]

theorem set_at (inside : offset + 4 ≤ maxHeap) (value : Nat) :
    state.set (state.heap + offset) value = .ok (state.put offset value) := by
  unfold State.set
  rw [if_pos ⟨by omega, by unfold wordSize; omega⟩]
  rfl

theorem hdrPtr_at (mapped : Mapped state) (high : 8 ≤ offset) (inside : offset ≤ maxHeap) :
    hdrPtr (state.heap + offset) = state.heap + (offset - 8) :=
  mapped.ptrIncr_eq (by decide) (by decide) (by unfold wordSize; omega) (by omega)

theorem nexPtr_at (mapped : Mapped state) (high : 8 ≤ offset) (inside : offset ≤ maxHeap) :
    nexPtr (state.heap + offset) = state.heap + (offset - 4) :=
  mapped.ptrIncr_eq (by decide) (by decide) (by unfold wordSize; omega) (by omega)

theorem hdr_get (mapped : Mapped state) (aligned : offset % 4 = 0) (high : 8 ≤ offset)
    (inside : offset ≤ maxHeap) :
    state.get (hdrPtr (state.heap + offset)) = .ok (words state (offset - 8)) := by
  rw [hdrPtr_at mapped high inside, get_at (by omega) (by omega)]

theorem size_at (mapped : Mapped state) (aligned : offset % 4 = 0) (high : 8 ≤ offset)
    (inside : offset ≤ maxHeap) :
    state.size (state.heap + offset) = .ok (sizeAt (words state) offset) := by
  unfold State.size
  rw [hdr_get mapped aligned high inside]
  rfl

theorem stat_at (mapped : Mapped state) (aligned : offset % 4 = 0) (high : 8 ≤ offset)
    (inside : offset ≤ maxHeap) :
    state.stat (state.heap + offset) = .ok (statAt (words state) offset) := by
  unfold State.stat
  rw [hdr_get mapped aligned high inside]
  rfl

theorem ftrPtr_at (mapped : Mapped state) (aligned : offset % 4 = 0) (high : 8 ≤ offset)
    (inside : offset + sizeAt (words state) offset ≤ maxHeap)
    (large : 16 ≤ offset + sizeAt (words state) offset) :
    state.ftrPtr (state.heap + offset) =
      .ok (state.heap + (offset + sizeAt (words state) offset - 16)) := by
  have limit := maxHeap_eq
  have field : ptrIncr (state.heap + offset) (sizeAt (words state) offset - 4 * wordSize) =
      state.heap + (offset + sizeAt (words state) offset - 16) :=
    mapped.ptrIncr_eq (by unfold wordSize; omega) (by unfold wordSize; omega)
      (by unfold wordSize; omega) (by omega)
  unfold State.ftrPtr
  rw [size_at mapped aligned high (by omega), ok_bind, field]
  rfl

theorem prePtr_at (mapped : Mapped state) (aligned : offset % 4 = 0) (high : 8 ≤ offset)
    (inside : offset + sizeAt (words state) offset ≤ maxHeap)
    (large : 16 ≤ offset + sizeAt (words state) offset) :
    state.prePtr (state.heap + offset) = .ok (state.heap + preAt (words state) offset) := by
  have limit := maxHeap_eq
  have field : ptrIncr (state.heap + offset) (sizeAt (words state) offset - 3 * wordSize) =
      state.heap + preAt (words state) offset :=
    mapped.ptrIncr_eq (by unfold wordSize; omega) (by unfold wordSize; omega)
      (by unfold wordSize preAt; omega) (by unfold preAt; omega)
  unfold State.prePtr
  rw [size_at mapped aligned high (by omega), ok_bind, field]
  rfl

theorem heapNext_at (mapped : Mapped state) (aligned : offset % 4 = 0) (high : 8 ≤ offset)
    (inside : offset + sizeAt (words state) offset ≤ maxHeap) :
    state.heapNext (state.heap + offset) =
      .ok (state.heap + (offset + sizeAt (words state) offset)) := by
  have limit := maxHeap_eq
  have field : ptrIncr (state.heap + offset) (sizeAt (words state) offset) =
      state.heap + (offset + sizeAt (words state) offset) :=
    mapped.ptrIncr_eq (by omega) (by omega) (by omega) (by omega)
  unfold State.heapNext
  rw [size_at mapped aligned high (by omega), ok_bind, field]
  rfl

theorem heapPrev_at (mapped : Mapped state) (aligned : offset % 4 = 0) (high : 16 ≤ offset)
    (inside : offset ≤ maxHeap) (fits : unzipSize (words state (offset - 16)) ≤ offset) :
    state.heapPrev (state.heap + offset) =
      .ok (state.heap + (offset - unzipSize (words state (offset - 16)))) := by
  have limit := maxHeap_eq
  have below := mapped.below
  have footer : ptrIncr (state.heap + offset) (-4 * wordSize) = state.heap + (offset - 16) :=
    mapped.ptrIncr_eq (by decide) (by decide) (by unfold wordSize; omega) (by omega)
  have target : ptrIncr (state.heap + offset) (u32 (-(unzipSize (words state (offset - 16))))) =
      state.heap + (offset - unzipSize (words state (offset - 16))) := by
    unfold ptrIncr u64
    rw [offsetT_neg (by omega)]
    omega
  unfold State.heapPrev
  rw [footer, get_at (by omega) (by omega), ok_bind, target]
  rfl

theorem Ready.link_at (ready : Ready state) {word : Nat} (inside : word ≤ maxHeap) :
    ptrIncr state.heapBase word = state.heap + word := by
  have limit := maxHeap_eq
  have start : ptrIncr (state.heap + 0) word = state.heap + word :=
    ready.toMapped.ptrIncr_eq (by omega) (by omega) (by omega) inside
  rw [ready.base]
  exact start

theorem Ready.ptrDiff_at (ready : Ready state) (small : offset < 2 ^ 32) :
    ptrDiff (state.heap + offset) state.heapBase = offset := by
  unfold ptrDiff u32
  rw [ready.base]
  omega

theorem listNext_at (ready : Ready state) (aligned : offset % 4 = 0) (high : 8 ≤ offset)
    (inside : offset ≤ maxHeap) (link : words state (offset - 4) ≤ maxHeap) :
    state.listNext (state.heap + offset) = .ok (state.heap + words state (offset - 4)) := by
  unfold State.listNext
  rw [nexPtr_at ready.toMapped high inside, get_at (by omega) (by omega), ok_bind,
    ready.link_at link]
  rfl

theorem listPrev_at (ready : Ready state) (aligned : offset % 4 = 0) (high : 8 ≤ offset)
    (inside : offset + sizeAt (words state) offset ≤ maxHeap)
    (large : 16 ≤ offset + sizeAt (words state) offset)
    (link : words state (preAt (words state) offset) ≤ maxHeap) :
    state.listPrev (state.heap + offset) =
      .ok (state.heap + words state (preAt (words state) offset)) := by
  have multiple : sizeAt (words state) offset % 8 = 0 := by
    unfold sizeAt unzipSize
    omega
  unfold State.listPrev
  rw [prePtr_at ready.toMapped aligned high inside large, ok_bind,
    get_at (by unfold preAt; omega) (by unfold preAt; omega), ok_bind, ready.link_at link]
  rfl

theorem buck_at (ready : Ready state) {rank : Nat} (small : rank < 3) :
    buck state rank = state.heap + 4 * rank := by
  have limit := maxHeap_eq
  have scaled : (rank : Int) * wordSize = (4 * rank : Nat) := by
    unfold wordSize
    omega
  unfold buck
  rw [scaled]
  exact ready.link_at (by omega)

theorem list_at (ready : Ready state) {rank : Nat} (small : rank < 3)
    (link : words state (4 * rank) ≤ maxHeap) :
    list state rank = .ok (state.heap + words state (4 * rank)) := by
  have limit := maxHeap_eq
  unfold list
  rw [buck_at ready small, get_at (by omega) (by omega), ok_bind, ready.link_at link]
  rfl

theorem epiBdrPtr_at (mapped : Mapped state) {top : Nat} (brk : state.memBrk = state.heap + top)
    (inside : top ≤ maxHeap) : epiBdrPtr state = state.heap + top := by
  have positive := mapped.positive
  have below := mapped.below
  unfold epiBdrPtr memHeapHi ptrIncr
  rw [offsetT_of_small (by decide) (by decide), brk]
  unfold u64
  omega

end Macros

end OsPractices.Malloc
