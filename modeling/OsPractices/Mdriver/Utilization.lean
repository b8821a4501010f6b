import OsPractices.Mdriver.Advance

/-!
# Utilization and speed

What `eval_mm_util` measures is the high-water mark that `high-water-mark.pl`
reads off the trace, and never more than the heap. `eval_mm_speed` makes the
same calls.
-/

set_option autoImplicit false

namespace OsPractices.Mdriver

open Library
open Malloc (State Mapped null u64 offsetT maxHeap memResetBrk)

/-! ## high-water-mark.pl -/

/-- The variables of the script. A size that is not defined counts as zero. -/
structure WaterMark where
  sizes : Int → Nat
  totalsize : Int
  maxsize : Int
  maxline : Nat

namespace WaterMark

def initial : WaterMark := ⟨fun _ => 0, 0, 0, 0⟩

/-- A new total, at a line of the trace. -/
def reach (mark : WaterMark) (line : Nat) (total : Int) : WaterMark :=
  if mark.maxsize < total then
    { mark with totalsize := total, maxsize := total, maxline := line }
  else { mark with totalsize := total }

def read (mark : WaterMark) (line : Nat) (op : TraceOp) : WaterMark :=
  match op.type with
  | .free =>
      if op.index = -1 then mark else mark.reach line (mark.totalsize - mark.sizes op.index)
  | .alloc =>
      { mark with sizes := Function.update mark.sizes op.index op.size }.reach line
        (mark.totalsize + op.size)
  | .realloc =>
      { mark with sizes := Function.update mark.sizes op.index op.size }.reach line
        (mark.totalsize - mark.sizes op.index + op.size)

def readAll (mark : WaterMark) : Nat → List TraceOp → WaterMark
  | _, [] => mark
  | line, op :: ops => (mark.read line op).readAll (line + 1) ops

@[simp] theorem reach_sizes (mark : WaterMark) (line : Nat) (total : Int) :
    (mark.reach line total).sizes = mark.sizes := by
  unfold reach
  split <;> rfl

@[simp] theorem reach_totalsize (mark : WaterMark) (line : Nat) (total : Int) :
    (mark.reach line total).totalsize = total := by
  unfold reach
  split <;> rfl

@[simp] theorem reach_maxsize (mark : WaterMark) (line : Nat) (total : Int) :
    (mark.reach line total).maxsize = max total mark.maxsize := by
  unfold reach
  split
  case isTrue higher => exact (max_eq_left (Int.le_of_lt higher)).symm
  case isFalse lower => exact (max_eq_right (Int.not_lt.mp lower)).symm

end WaterMark

/-- What the script prints; the requests start on the fifth line. -/
def highWaterMark (ops : List TraceOp) : WaterMark := WaterMark.initial.readAll 5 ops

/-! ## The loop of `eval_mm_util` -/

variable {setting : Setting} {trace : Trace} {slots : Slots} {spent : Nat} {book : List Holding}
  {driver : Driver} {index : Int}

/-- The same setting without debugging. -/
def Setting.quiet (setting : Setting) : Setting := { setting with debugMode := .none }

def total (book : List Holding) : Nat := (book.map fun holding => holding.extent.length).sum

/-- The tally counts the blocks that the client owns, as the script does. -/
structure Counts (sound : Sound setting.package) (trace : Trace) (slots : Slots) (spent : Nat)
    (book : List Holding) (mark : WaterMark) (tally : Tally) : Prop where
  holds : sound.contract.Holds tally.driver.state spent (book.map Holding.extent)
  knows : Knows setting.quiet trace slots book tally.driver
  total : tally.totalSize = total book
  high : tally.totalSize ≤ tally.maxTotalSize ∧
    tally.maxTotalSize ≤ memHeapsize tally.driver.state
  sizes : ∀ index, match slots index with
    | .empty => mark.sizes index = 0
    | .live size => mark.sizes index = size
    | .stale => True
  marked : mark.totalsize = tally.totalSize ∧ mark.maxsize = tally.maxTotalSize

/-- The blocks of the book fit into the heap, which is smaller than an `int`. -/
theorem total_fits (sound : Sound setting.package) {state : State}
    (holds : sound.contract.Holds state spent (book.map Holding.extent)) :
    total book ≤ memHeapsize state ∧ memHeapsize state < 2 ^ 31 := by
  have limit := Malloc.maxHeap_eq
  obtain ⟨mapped, top⟩ := sound.mapped holds
  have fits := sound.contract.total_le holds
  rw [List.map_map] at fits
  refine ⟨fits, ?_⟩
  rw [mapped.maxAddr] at top
  unfold memHeapsize
  omega

theorem offsetT_total (book : List Holding) (sound : Sound setting.package) {state : State}
    (holds : sound.contract.Holds state spent (book.map Holding.extent)) :
    offsetT (total book) = total book := by
  obtain ⟨fits, small⟩ := total_fits sound holds
  exact Malloc.offsetT_of_small (by omega) (by omega)

theorem memHeapsize_grows {state later : State} {live : List Extent}
    (spares : setting.package.allocator.Spares live state later) :
    memHeapsize state ≤ memHeapsize later := by
  have low : later.heap = state.heap := spares.low
  have high : state.memBrk ≤ later.memBrk := spares.high
  unfold memHeapsize
  rw [low]
  exact Nat.sub_le_sub_right high _

/-- The size of a request as the loop reads it. -/
theorem int_size {size : Nat} (small : size < 2 ^ 31) :
    offsetT size = size ∧ u64 (offsetT size) = size := by
  have same : offsetT size = size := Malloc.offsetT_of_small (by omega) (by omega)
  rw [same]
  exact ⟨rfl, Malloc.u64_of_lt (by omega)⟩

/-- Both arrays take the new block of an id. -/
theorem assign_both
    (knows : Knows setting trace (Function.update slots index .stale) book driver)
    (named : 0 ≤ index ∧ index < trace.numIds) (p size : Nat) :
    ∃ blocks sizes, assign driver.blocks index p = .ok blocks ∧
      assign driver.blockSizes index size = .ok sizes ∧ element blocks index = .ok p ∧
      element sizes index = .ok size ∧
      Knows setting trace (Function.update slots index .stale) book
        { driver with blocks := blocks, blockSizes := sizes } := by
  obtain ⟨blocks, setBlock, blocksLength, isBlock, otherBlocks⟩ :=
    assign_inside named.1 (Keeps.inBounds named.1 named.2 knows.blocksLength) p
  obtain ⟨sizes, setSize, sizesLength, isSize, otherSizes⟩ :=
    assign_inside named.1 (Keeps.inBounds named.1 named.2 knows.sizesLength) size
  exact ⟨blocks, sizes, setBlock, setSize, isBlock, isSize,
    knows.elsewhere { driver with blocks := blocks, blockSizes := sizes } blocksLength sizesLength
      rfl (fun other different => ⟨otherBlocks other different, otherSizes other different, rfl⟩)
      fun _ _ _ _ => rfl⟩

/-- What a request leaves: the client's blocks, counted, in a heap that has not
shrunk. -/
def Served (sound : Sound setting.package) (trace : Trace) (slots : Slots) (spent : Nat)
    (before : Driver) (count : Int) (result : Driver × Int) : Prop :=
  result.2 = count ∧ memHeapsize before.state ≤ memHeapsize result.1.state ∧
    ∃ book, sound.contract.Holds result.1.state spent (book.map Holding.extent) ∧
      Knows setting.quiet trace slots book result.1 ∧ count = total book

section Requests

variable {sound : Sound setting.package} {tracenum : Int}

theorem utilAlloc_served (tracenum : Int) {op : TraceOp}
    (holds : sound.contract.Holds driver.state spent (book.map Holding.extent))
    (knows : Knows setting.quiet trace slots book driver)
    (named : 0 ≤ op.index ∧ op.index < trace.numIds) (notLive : ¬ (slots op.index).IsLive)
    (positive : 0 < op.size) (small : op.size < 2 ^ 31)
    (affordable : spent + sound.contract.cost op.size ≤ sound.contract.limit) :
    Returns (utilAlloc setting driver tracenum (total book) op)
      (Served sound trace (Function.update slots op.index (.live op.size))
        (spent + sound.contract.cost op.size) driver (total book + op.size)) := by
  obtain ⟨same, back⟩ := int_size small
  obtain ⟨p, later, run, holds', spares⟩ :=
    sound.contract.malloc holds positive (sound.largest ▸ small) affordable
  have allocated : setting.package.mmMalloc driver.state op.size = .ok (p, later) := run
  have notNull : p ≠ null :=
    Nat.pos_iff_ne_zero.mp (sound.contract.placed holds' List.mem_cons_self).1
  have knows' : Knows setting.quiet trace (Function.update slots op.index .stale) book
      { driver with state := later } :=
    (knows.forget notLive).of_same _ rfl rfl rfl fun holding member =>
      spares.intact _ (List.mem_map_of_mem member)
  obtain ⟨blocks, sizes, setBlock, setSize, isBlock, isSize, placed⟩ :=
    assign_both knows' named p op.size
  have counted : (total (⟨op.index, ⟨p, op.size⟩⟩ :: book) : Int) = total book + op.size := by
    simp [total, Int.add_comm]
  have result := offsetT_total (⟨op.index, ⟨p, op.size⟩⟩ :: book) sound holds'
  rw [counted] at result
  have run' : utilAlloc setting driver tracenum (total book) op =
      .ok ({ driver with state := later, blocks := blocks, blockSizes := sizes },
        (total book : Int) + op.size) := by
    unfold utilAlloc
    dsimp only
    rw [back, same, allocated, call_ok, ok_bind]
    dsimp only
    rw [if_neg notNull, setBlock, ok_bind, setSize, ok_bind, result, pure_eq_ok]
  exact .of_eq run' ⟨rfl, memHeapsize_grows spares, ⟨op.index, ⟨p, op.size⟩⟩ :: book, holds',
    placed.fillLive named ⟨p, op.size⟩ isBlock isSize (fun checks => absurd rfl checks),
    counted.symm⟩

/-- A `realloc` that returns a block; `rest` is the book without the old one. -/
theorem utilRealloc_live {op : TraceOp} {rest : List Holding} {later : State}
    {oldp newp oldSize count : Nat}
    (knows : Knows setting.quiet trace (Function.update slots op.index .stale) rest driver)
    (named : 0 ≤ op.index ∧ op.index < trace.numIds)
    (isOld : element driver.blocks op.index = .ok oldp)
    (isOldSize : element driver.blockSizes op.index = .ok oldSize)
    (counted : count = total rest + oldSize) (fits : count < 2 ^ 31)
    (small : op.size < 2 ^ 31)
    (run : setting.package.mmRealloc driver.state oldp op.size = .ok (newp, later))
    (holds : sound.contract.Holds later spent (⟨newp, op.size⟩ :: rest.map Holding.extent))
    (spares : setting.package.allocator.Spares (rest.map Holding.extent) driver.state later) :
    Returns (utilRealloc setting driver tracenum count op)
      (Served sound trace (Function.update slots op.index (.live op.size)) spent driver
        (count - oldSize + op.size)) := by
  obtain ⟨same, back⟩ := int_size small
  have notNull : newp ≠ null :=
    Nat.pos_iff_ne_zero.mp (sound.contract.placed holds List.mem_cons_self).1
  have knows' : Knows setting.quiet trace (Function.update slots op.index .stale) rest
      { driver with state := later } :=
    knows.of_same _ rfl rfl rfl fun holding member =>
      spares.intact _ (List.mem_map_of_mem member)
  obtain ⟨blocks, sizes, setBlock, setSize, isBlock, isSize, placed⟩ :=
    assign_both knows' named newp op.size
  have old : offsetT oldSize = oldSize := (int_size (by omega)).1
  have counted' : (total (⟨op.index, ⟨newp, op.size⟩⟩ :: rest) : Int) =
      (count : Int) + ((op.size : Int) - offsetT oldSize) := by
    rw [old, counted]
    simp only [total, List.map_cons, List.sum_cons]
    omega
  have result := offsetT_total (⟨op.index, ⟨newp, op.size⟩⟩ :: rest) sound holds
  rw [counted'] at result
  have run' : utilRealloc setting driver tracenum count op =
      .ok ({ driver with state := later, blocks := blocks, blockSizes := sizes },
        (count : Int) + ((op.size : Int) - offsetT oldSize)) := by
    unfold utilRealloc
    dsimp only
    rw [back, same, isOldSize, ok_bind, isOld, ok_bind, run, call_ok, ok_bind]
    dsimp only
    rw [if_neg (fun both => notNull both.1), setBlock, ok_bind, setSize, ok_bind, result,
      pure_eq_ok]
  refine .of_eq run' ⟨?_, memHeapsize_grows spares, ⟨op.index, ⟨newp, op.size⟩⟩ :: rest, holds,
    placed.fillLive named ⟨newp, op.size⟩ isBlock isSize (fun checks => absurd rfl checks), ?_⟩
  · dsimp only
    rw [old]
    omega
  · rw [counted', old]
    omega

/-- A `realloc` to no bytes. -/
theorem utilRealloc_empty {op : TraceOp} {rest : List Holding} {later : State}
    {oldp oldSize count : Nat}
    (knows : Knows setting.quiet trace (Function.update slots op.index .stale) rest driver)
    (named : 0 ≤ op.index ∧ op.index < trace.numIds)
    (isOld : element driver.blocks op.index = .ok oldp)
    (isOldSize : element driver.blockSizes op.index = .ok oldSize)
    (counted : count = total rest + oldSize) (fits : count < 2 ^ 31) (zero : op.size = 0)
    (run : setting.package.mmRealloc driver.state oldp 0 = .ok (null, later))
    (holds : sound.contract.Holds later spent (rest.map Holding.extent))
    (spares : setting.package.allocator.Spares (rest.map Holding.extent) driver.state later) :
    Returns (utilRealloc setting driver tracenum count op)
      (Served sound trace (Function.update slots op.index .empty) spent driver
        (count - oldSize + op.size)) := by
  have same : offsetT (0 : Nat) = 0 := by decide
  have back : u64 0 = 0 := by decide
  have old : offsetT oldSize = oldSize := (int_size (by omega)).1
  have knows' : Knows setting.quiet trace (Function.update slots op.index .stale) rest
      { driver with state := later } :=
    knows.of_same _ rfl rfl rfl fun holding member =>
      spares.intact _ (List.mem_map_of_mem member)
  obtain ⟨blocks, sizes, setBlock, setSize, isBlock, isSize, placed⟩ :=
    assign_both knows' named null 0
  have counted' : (total rest : Int) = (count : Int) + ((0 : Int) - offsetT oldSize) := by
    rw [old, counted]
    omega
  have result := offsetT_total rest sound holds
  rw [counted'] at result
  have run' : utilRealloc setting driver tracenum count op =
      .ok ({ driver with state := later, blocks := blocks, blockSizes := sizes },
        (count : Int) + ((0 : Int) - offsetT oldSize)) := by
    unfold utilRealloc
    dsimp only
    rw [zero, same, back, isOldSize, ok_bind, isOld, ok_bind, run, call_ok, ok_bind]
    dsimp only
    rw [if_neg (fun both => both.2 rfl), setBlock, ok_bind, setSize, ok_bind, result, pure_eq_ok]
  refine .of_eq run' ⟨?_, memHeapsize_grows spares, rest, holds, placed.fillEmpty isBlock isSize, ?_⟩
  · dsimp only
    rw [old, zero]
    omega
  · rw [counted', old, zero]
    omega

theorem total_split {front back : List Holding} {holding : Holding} :
    total (front ++ holding :: back) = total (front ++ back) + holding.extent.length := by
  simp only [total, List.map_append, List.map_cons, List.sum_append, List.sum_cons]
  omega

theorem utilRealloc_served (tracenum : Int) {op : TraceOp} {oldSize : Nat}
    (holds : sound.contract.Holds driver.state spent (book.map Holding.extent))
    (knows : Knows setting.quiet trace slots book driver)
    (named : 0 ≤ op.index ∧ op.index < trace.numIds) (small : op.size < 2 ^ 31)
    (slot : slots op.index = .empty ∧ oldSize = 0 ∨ slots op.index = .live oldSize)
    (affordable : spent + (if op.size = 0 then 0 else sound.contract.cost op.size) ≤
      sound.contract.limit) :
    Returns (utilRealloc setting driver tracenum (total book) op)
      (Served sound trace
        (Function.update slots op.index (if op.size = 0 then .empty else .live op.size))
        (spent + if op.size = 0 then 0 else sound.contract.cost op.size) driver
        (total book - oldSize + op.size)) := by
  have fits : total book < 2 ^ 31 := by
    have := total_fits sound holds
    omega
  cases slot with
  | inl isEmpty =>
      obtain ⟨slot, rfl⟩ := isEmpty
      obtain ⟨isOld, isOldSize⟩ := knows.empty op.index named.1 named.2 slot
      have notLive : ¬ (slots op.index).IsLive := by
        rw [slot]
        exact id
      have stale := knows.forget notLive
      cases Nat.decEq op.size 0 with
      | isTrue zero =>
          have run : setting.package.mmRealloc driver.state null 0 = .ok (null, driver.state) := by
            have freed := sound.contract.freeNull driver.state
            have zero := sound.contract.reallocZero driver.state 0
            rw [freed] at zero
            exact zero
          rw [if_pos zero, if_pos zero]
          exact utilRealloc_empty stale named isOld isOldSize rfl fits zero run holds
            ⟨rfl, Nat.le_refl _, fun _ _ _ _ => rfl⟩
      | isFalse nonzero =>
          have positive := Nat.pos_iff_ne_zero.mpr nonzero
          rw [if_neg nonzero] at affordable ⊢
          rw [if_neg nonzero]
          obtain ⟨newp, later, allocated, holds', spares⟩ :=
            sound.contract.malloc holds positive (sound.largest ▸ small) affordable
          have run : setting.package.mmRealloc driver.state null op.size = .ok (newp, later) :=
            (sound.contract.reallocNull driver.state positive).trans allocated
          exact utilRealloc_live stale named isOld isOldSize rfl fits small run holds' spares
  | inr slot =>
      obtain ⟨holding, member, isIndex, rfl⟩ := knows.live op.index oldSize slot
      obtain ⟨front, back, rfl⟩ := List.append_of_mem member
      obtain ⟨_, _, isOld, isOldSize⟩ := knows.owned holding member
      have stale := knows.remove
      rw [isIndex] at isOld isOldSize stale
      rw [List.map_append, List.map_cons] at holds
      cases Nat.decEq op.size 0 with
      | isTrue zero =>
          obtain ⟨later, freed, holds', spares⟩ := sound.contract.free holds
          have run : setting.package.mmRealloc driver.state holding.extent.start 0 =
              .ok (null, later) := by
            have zero := sound.contract.reallocZero driver.state holding.extent.start
            rw [freed] at zero
            exact zero
          rw [← List.map_append] at holds' spares
          rw [if_pos zero, if_pos zero]
          exact utilRealloc_empty stale named isOld isOldSize total_split fits zero run holds' spares
      | isFalse nonzero =>
          have positive := Nat.pos_iff_ne_zero.mpr nonzero
          rw [if_neg nonzero] at affordable ⊢
          rw [if_neg nonzero]
          obtain ⟨newp, later, run, holds', spares, _⟩ :=
            sound.contract.realloc holds positive (sound.largest ▸ small) affordable
          rw [← List.map_append] at holds' spares
          exact utilRealloc_live stale named isOld isOldSize total_split fits small run holds' spares

theorem utilFree_served {op : TraceOp}
    (holds : sound.contract.Holds driver.state spent (book.map Holding.extent))
    (knows : Knows setting.quiet trace slots book driver) {oldSize : Nat}
    (allowed : op.index = -1 ∧ oldSize = 0 ∨ (0 ≤ op.index ∧ op.index < trace.numIds) ∧
      (slots op.index = .empty ∧ oldSize = 0 ∨ slots op.index = .live oldSize)) :
    Returns (utilFree setting driver (total book) op)
      (Served sound trace
        (Function.update slots op.index (if slots op.index = .empty then .empty else .stale)) spent
        driver (total book - oldSize)) := by
  have nothing : setting.package.mmFree driver.state null = .ok driver.state :=
    sound.contract.freeNull driver.state
  have same : (total book : Int) - (0 : Nat) = total book := by omega
  cases allowed with
  | inl isNull =>
      obtain ⟨isNull, rfl⟩ := isNull
      have kept : (if slots op.index = .empty then Slot.empty else .stale) = slots op.index := by
        cases slot : slots op.index with
        | empty => rfl
        | stale => rfl
        | live size =>
            obtain ⟨holding, member, isIndex, _⟩ := knows.live op.index size slot
            have low := (knows.owned holding member).1.1
            omega
      have run : utilFree setting driver (total book) op = .ok (driver, (total book : Int)) := by
        unfold utilFree
        rw [if_pos (by omega), nothing, call_ok, ok_bind, pure_eq_ok]
      rw [kept, Function.update_eq_self, same]
      exact .of_eq run ⟨rfl, Nat.le_refl _, book, holds, knows, rfl⟩
  | inr inside =>
      obtain ⟨named, slot⟩ := inside
      have notNegative : ¬ op.index < 0 := Int.not_lt.mpr named.1
      cases slot with
      | inl isEmpty =>
          obtain ⟨slot, rfl⟩ := isEmpty
          obtain ⟨isBlock, isSize⟩ := knows.empty op.index named.1 named.2 slot
          have run : utilFree setting driver (total book) op = .ok (driver, (total book : Int)) := by
            have whole := offsetT_total book sound holds
            have zero : offsetT (0 : Nat) = 0 := by decide
            unfold utilFree
            rw [if_neg notNegative, isSize, ok_bind, isBlock, ok_bind, nothing, call_ok, ok_bind,
              pure_eq_ok, zero, Int.sub_zero, whole]
          rw [slot, if_pos rfl, ← slot, Function.update_eq_self, same]
          exact .of_eq run ⟨rfl, Nat.le_refl _, book, holds, knows, rfl⟩
      | inr slot =>
          obtain ⟨holding, member, isIndex, rfl⟩ := knows.live op.index oldSize slot
          obtain ⟨front, back, rfl⟩ := List.append_of_mem member
          obtain ⟨_, _, isBlock, isSize⟩ := knows.owned holding member
          have stale := knows.remove
          rw [isIndex] at isBlock isSize stale
          have fits := total_fits sound holds
          rw [List.map_append, List.map_cons] at holds
          obtain ⟨later, freed, holds', spares⟩ := sound.contract.free holds
          have freed' : setting.package.mmFree driver.state holding.extent.start = .ok later := freed
          rw [← List.map_append] at holds' spares
          have split : total (front ++ holding :: back) =
              total (front ++ back) + holding.extent.length := total_split
          have old : offsetT holding.extent.length = holding.extent.length :=
            (int_size (by omega)).1
          have left : (total (front ++ back) : Int) =
              total (front ++ holding :: back) - holding.extent.length := by omega
          have result := offsetT_total (front ++ back) sound holds'
          rw [left] at result
          have run : utilFree setting driver (total (front ++ holding :: back)) op =
              .ok ({ driver with state := later },
                (total (front ++ holding :: back) : Int) - holding.extent.length) := by
            unfold utilFree
            rw [if_neg notNegative, isSize, ok_bind, isBlock, ok_bind, freed', call_ok, ok_bind,
              pure_eq_ok, old, result]
          rw [slot, if_neg (by simp)]
          exact .of_eq run ⟨rfl, memHeapsize_grows spares, front ++ back, holds',
            stale.of_same _ rfl rfl rfl fun other inside =>
              spares.intact _ (List.mem_map_of_mem inside), left.symm⟩

/-! ## The whole loop -/

/-- The mark after a request that the tally has counted. -/
theorem Counts.after {mark next : WaterMark} {tally : Tally} {slots' : Slots} {spent' : Nat}
    {count : Int} {result : Driver × Int}
    (counts : Counts sound trace slots spent book mark tally)
    (served : Served sound trace slots' spent' tally.driver count result)
    (sizes : ∀ index, match slots' index with
      | .empty => next.sizes index = 0
      | .live size => next.sizes index = size
      | .stale => True)
    (totalsize : next.totalsize = count) (maxsize : next.maxsize = max count mark.maxsize) :
    ∃ book', Counts sound trace slots' spent' book' next
      ⟨result.1, max result.2 tally.maxTotalSize, result.2⟩ := by
  obtain ⟨rfl, grows, book', holds, knows, counted⟩ := served
  obtain ⟨fits, _⟩ := total_fits sound holds
  obtain ⟨_, high⟩ := counts.high
  refine ⟨book', holds, knows, counted, ⟨le_max_left _ _, ?_⟩, sizes, totalsize, ?_⟩
  · dsimp only
    omega
  · rw [maxsize, counts.marked.2]

theorem utilOp_counts (tracenum : Int) {mark : WaterMark} {tally : Tally} {op : TraceOp} (line : Nat)
    (counts : Counts sound trace slots spent book mark tally)
    (admits : slots.Admits trace.numIds op)
    (affordable : spent + sound.price op ≤ sound.contract.limit) :
    Returns (utilOp setting tracenum tally op) fun next =>
      ∃ book', Counts sound trace (slots.after op) (spent + sound.price op) book'
        (mark.read line op) next := by
  obtain ⟨marked, maxsize⟩ := counts.marked
  have sizes := counts.sizes
  have others : ∀ (slot : Slot) (table : Int → Nat) (size : Nat),
      (match slot with
        | .empty => size = 0
        | .live bytes => size = bytes
        | .stale => True) →
      (∀ index, index ≠ op.index → table index = mark.sizes index) → table op.index = size →
      ∀ index, match Function.update slots op.index slot index with
        | .empty => table index = 0
        | .live bytes => table index = bytes
        | .stale => True := by
    intro slot table size own same isSize index
    cases decEq index op.index with
    | isTrue isIndex =>
        subst isIndex
        rw [Function.update_self, isSize]
        exact own
    | isFalse different =>
        rw [Function.update_of_ne different, same index different]
        exact sizes index
  have update : ∀ index, index ≠ op.index →
      Function.update mark.sizes op.index op.size index = mark.sizes index :=
    fun index different => Function.update_of_ne different _ _
  -- what the script knows of an id that has not been freed
  have known : slots op.index ≠ .stale → slots op.index = .empty ∧ mark.sizes op.index = 0 ∨
      slots op.index = .live (mark.sizes op.index) := by
    intro usable
    have own := sizes op.index
    cases slot : slots op.index with
    | stale => exact absurd slot usable
    | empty =>
        rw [slot] at own
        exact .inl ⟨rfl, own⟩
    | live size =>
        rw [slot] at own
        exact .inr (congrArg Slot.live own.symm)
  unfold Slots.Admits at admits
  unfold Sound.price at affordable ⊢
  unfold utilOp Slots.after WaterMark.read
  rw [counts.total]
  rw [counts.total] at marked
  cases kind : op.type with
  | alloc =>
      simp only [kind] at admits affordable ⊢
      obtain ⟨named, notLive, positive, small⟩ := admits
      rw [if_neg (Nat.pos_iff_ne_zero.mp positive)] at affordable ⊢
      obtain ⟨result, run, served⟩ := utilAlloc_served tracenum counts.holds counts.knows named
        notLive positive small affordable
      rw [run, ok_bind]
      refine .ok (counts.after served ?_ ?_ ?_)
      · rw [WaterMark.reach_sizes]
        exact others _ _ op.size rfl update (Function.update_self _ _ _)
      · rw [WaterMark.reach_totalsize, marked]
      · rw [WaterMark.reach_maxsize, marked]
  | realloc =>
      simp only [kind] at admits affordable ⊢
      obtain ⟨named, usable, small⟩ := admits
      obtain ⟨result, run, served⟩ := utilRealloc_served tracenum counts.holds counts.knows named
        small (known usable) affordable
      rw [run, ok_bind]
      refine .ok (counts.after served ?_ ?_ ?_)
      · rw [WaterMark.reach_sizes]
        refine others _ _ op.size ?_ update (Function.update_self _ _ _)
        cases Nat.decEq op.size 0 with
        | isTrue zero => rw [if_pos zero, zero]
        | isFalse nonzero => rw [if_neg nonzero]
      · rw [WaterMark.reach_totalsize, marked]
      · rw [WaterMark.reach_maxsize, marked]
  | free =>
      simp only [kind] at admits ⊢
      have below : mark.maxsize = max (total book : Int) mark.maxsize := by
        have low := counts.high.1
        rw [counts.total, ← maxsize] at low
        exact (max_eq_right low).symm
      cases Int.decEq op.index (-1) with
      | isTrue isNull =>
          obtain ⟨result, run, served⟩ := utilFree_served counts.holds counts.knows
            (.inl ⟨isNull, rfl⟩ : op.index = -1 ∧ 0 = 0 ∨ _)
          rw [run, ok_bind, if_pos isNull]
          refine .ok (counts.after served ?_ ?_ ?_)
          · refine others _ _ (mark.sizes op.index) ?_ (fun _ _ => rfl) rfl
            have own := sizes op.index
            cases slot : slots op.index with
            | empty =>
                rw [slot] at own
                exact own
            | live size => trivial
            | stale => trivial
          · rw [marked]
            omega
          · rw [Int.natCast_zero, Int.sub_zero]
            exact below
      | isFalse notNull =>
          obtain ⟨named, usable⟩ := admits.resolve_left notNull
          obtain ⟨result, run, served⟩ := utilFree_served counts.holds counts.knows
            (.inr ⟨named, known usable⟩)
          rw [run, ok_bind, if_neg notNull]
          refine .ok (counts.after served ?_ ?_ ?_)
          · rw [WaterMark.reach_sizes]
            refine others _ _ (mark.sizes op.index) ?_ (fun _ _ => rfl) rfl
            cases known usable with
            | inl isEmpty =>
                rw [isEmpty.1, if_pos rfl]
                exact isEmpty.2
            | inr isLive =>
                rw [isLive, if_neg (by simp)]
                trivial
          · rw [WaterMark.reach_totalsize, marked]
          · rw [WaterMark.reach_maxsize, marked]

theorem utilLoop_counts (tracenum : Int) {mark : WaterMark} {tally : Tally} {ops : List TraceOp} (line : Nat)
    (counts : Counts sound trace slots spent book mark tally)
    (conforms : slots.Conforms trace.numIds ops)
    (affordable : spent + (ops.map sound.price).sum ≤ sound.contract.limit) :
    Returns (ops.foldlM (utilOp setting tracenum) tally) fun last =>
      last.maxTotalSize = (mark.readAll line ops).maxsize ∧
        last.maxTotalSize ≤ memHeapsize last.driver.state := by
  induction ops generalizing slots spent book mark tally line with
  | nil => exact .ok ⟨counts.marked.2.symm, counts.high.2⟩
  | cons op ops ih =>
      obtain ⟨admits, rest⟩ := conforms
      rw [List.map_cons, List.sum_cons, ← Nat.add_assoc] at affordable
      obtain ⟨next, run, book', counts'⟩ := utilOp_counts tracenum line counts admits
        (Nat.le_trans (Nat.le_add_right _ _) affordable)
      rw [List.foldlM_cons, run, ok_bind]
      exact ih (line + 1) counts' rest affordable

end Requests

/-- The number that `eval_mm_util` divides by the size of the heap is the one
that `high-water-mark.pl` prints, and the quotient is at most one. -/
theorem evalMmUtil_measures (sound : Sound setting.package) (mapped : Mapped driver.state)
    (conforms : trace.Conforms)
    (affordable : (trace.ops.map sound.price).sum ≤ sound.contract.limit) (tracenum : Int) :
    ∃ tally, evalMmUtil setting trace (trace.load driver) tracenum = .ok tally ∧
      tally.maxTotalSize = (highWaterMark trace.ops).maxsize ∧
      tally.maxTotalSize ≤ memHeapsize tally.driver.state := by
  obtain ⟨start, opened, holds⟩ := sound.opens mapped
  have counts : Counts sound trace Slots.initial 0 [] .initial
      ⟨{ reinitTrace trace (trace.load driver) with state := start }, 0, 0⟩ := by
    refine ⟨holds, ⟨.initial rfl rfl List.length_replicate, by simp⟩, rfl,
      ⟨Int.le_refl _, Int.natCast_nonneg _⟩, fun index => rfl, rfl, rfl⟩
  obtain ⟨tally, run, same, fits⟩ := utilLoop_counts tracenum 5 counts conforms
    (by rw [Nat.zero_add]; exact affordable)
  refine ⟨tally, ?_, same, fits⟩
  have opened' : setting.package.mmInit
      (memResetBrk (reinitTrace trace (trace.load driver)).state) = .ok (0, start) := opened
  unfold evalMmUtil restart
  dsimp only
  rw [opened', call_ok, ok_bind]
  dsimp only
  rw [if_neg (by decide), pure_eq_ok, ok_bind]
  exact run

theorem evalMmUtil_measures_sample : ∃ tally,
    evalMmUtil ⟨advance .ascending, .none, fun _ => 0⟩ sampleTrace
        (sampleTrace.load sampleDriver) 0 = .ok tally ∧
      tally.maxTotalSize = (highWaterMark sampleTrace.ops).maxsize ∧
      tally.maxTotalSize ≤ memHeapsize tally.driver.state :=
  @evalMmUtil_measures ⟨advance .ascending, .none, fun _ => 0⟩ sampleTrace sampleDriver
    (advanceSound .ascending) Malloc.sampleRegion_mapped (by decide) (by decide +kernel) 0

/-! ## eval_mm_speed -/

/-- The two runs have made the same calls so far. -/
structure Alike (util speed : Driver) : Prop where
  state : util.state = speed.state
  blocks : util.blocks = speed.blocks
  sizes : util.blockSizes.length = speed.blocks.length

/-- Both end, in states that `related` relates, or both stop. -/
def Matches {Left Right : Type} (related : Left → Right → Prop) (left : Except Stop Left)
    (right : Except Stop Right) : Prop :=
  match left, right with
  | .ok first, .ok second => related first second
  | .error _, .error _ => True
  | _, _ => False

namespace Matches

variable {Left Right Left' Right' : Type} {related : Left → Right → Prop}
  {related' : Left' → Right' → Prop} {left : Except Stop Left} {right : Except Stop Right}

theorem bind {first : Left → Except Stop Left'} {second : Right → Except Stop Right'}
    (both : Matches related left right)
    (rest : ∀ value other, related value other → Matches related' (first value) (second other)) :
    Matches related' (left >>= first) (right >>= second) := by
  cases left with
  | error stop =>
      cases right with
      | error other => trivial
      | ok other => exact both.elim
  | ok value =>
      cases right with
      | error other => exact both.elim
      | ok other => exact rest value other both

/-- Both make the same call. -/
theorem same {Value : Type} (run : Except Stop Value) {first : Value → Except Stop Left}
    {second : Value → Except Stop Right}
    (rest : ∀ value, Matches related (first value) (second value)) :
    Matches related (run >>= first) (run >>= second) := by
  cases run with
  | error stop => trivial
  | ok value => exact rest value

/-- `eval_mm_util` reads the size of a block as well. -/
theorem reads {sizes blocks : List Nat} (lengths : sizes.length = blocks.length) (index : Int)
    {first : Nat → Nat → Except Stop Left} {second : Nat → Except Stop Right}
    (rest : ∀ size block, Matches related (first size block) (second block)) :
    Matches related
      (element sizes index >>= fun size => element blocks index >>= fun block => first size block)
      (element blocks index >>= second) := by
  cases Decidable.em (0 ≤ index ∧ index.toNat < blocks.length) with
  | inl inside =>
      obtain ⟨size, isSize⟩ := element_of_lt inside.1 (lengths ▸ inside.2)
      rw [isSize, ok_bind]
      exact same _ (rest size)
  | inr outside =>
      have fails : element blocks index = .error .undefined := by
        unfold element
        split
        case isTrue => rfl
        case isFalse notNegative =>
          rw [List.getElem?_eq_none (by omega)]
      cases found : element sizes index with
      | error stop =>
          rw [fails]
          trivial
      | ok size =>
          rw [fails]
          trivial

/-- `eval_mm_util` sets the size of a block as well. -/
theorem writes {sizes blocks : List Nat} (lengths : sizes.length = blocks.length) (index : Int)
    (block size : Nat) {first : List Nat → List Nat → Except Stop Left}
    {second : List Nat → Except Stop Right}
    (rest : ∀ blocks' sizes' : List Nat, sizes'.length = blocks'.length →
      Matches related (first blocks' sizes') (second blocks')) :
    Matches related
      (assign blocks index block >>= fun blocks' => assign sizes index size >>= fun sizes' =>
        first blocks' sizes')
      (assign blocks index block >>= second) := by
  unfold assign
  rw [lengths]
  split
  case isTrue => exact rest _ _ (by rw [List.length_set, List.length_set, lengths])
  case isFalse => trivial

end Matches

section Agreement

variable {setting : Setting} {trace : Trace} {util driver : Driver} {tracenum count : Int}

theorem utilAlloc_matches (alike : Alike util driver) (op : TraceOp) :
    Matches (fun result last => Alike result.1 last) (utilAlloc setting util tracenum count op)
      (speedOp setting driver { op with type := .alloc }) := by
  unfold utilAlloc speedOp
  dsimp only
  rw [alike.state, alike.blocks]
  refine Matches.same _ fun answer => ?_
  cases Nat.decEq answer.1 null with
  | isTrue isNull =>
      rw [if_pos isNull, if_pos isNull]
      trivial
  | isFalse notNull =>
      rw [if_neg notNull, if_neg notNull]
      exact Matches.writes alike.sizes _ _ _ fun _ _ lengths => ⟨rfl, rfl, lengths⟩

theorem utilRealloc_matches (alike : Alike util driver) (op : TraceOp) :
    Matches (fun result last => Alike result.1 last) (utilRealloc setting util tracenum count op)
      (speedOp setting driver { op with type := .realloc }) := by
  unfold utilRealloc speedOp
  dsimp only
  rw [alike.state, alike.blocks]
  refine Matches.reads alike.sizes _ fun size block => Matches.same _ fun answer => ?_
  cases Decidable.em (answer.1 = null ∧ offsetT op.size ≠ 0) with
  | inl failed =>
      rw [if_pos failed, if_pos failed]
      trivial
  | inr served =>
      rw [if_neg served, if_neg served]
      exact Matches.writes alike.sizes _ _ _ fun _ _ lengths => ⟨rfl, rfl, lengths⟩

theorem utilFree_matches (alike : Alike util driver) (op : TraceOp) :
    Matches (fun result last => Alike result.1 last) (utilFree setting util count op)
      (speedOp setting driver { op with type := .free }) := by
  unfold utilFree speedOp
  dsimp only
  rw [alike.state, alike.blocks]
  cases Int.decLt op.index 0 with
  | isTrue isNull =>
      rw [if_pos isNull, if_pos isNull]
      exact Matches.same _ fun state => ⟨rfl, rfl, alike.sizes⟩
  | isFalse notNull =>
      rw [if_neg notNull, if_neg notNull]
      exact Matches.reads alike.sizes _ fun size block =>
        Matches.same _ fun state => ⟨rfl, rfl, alike.sizes⟩

theorem utilOp_matches {tally : Tally} (alike : Alike tally.driver driver) (op : TraceOp) :
    Matches (fun tally last => Alike tally.driver last) (utilOp setting tracenum tally op)
      (speedOp setting driver op) := by
  obtain ⟨type, index, size⟩ := op
  rw [← bind_pure (speedOp setting driver ⟨type, index, size⟩)]
  unfold utilOp
  cases type with
  | alloc => exact (utilAlloc_matches alike _).bind fun _ _ result => result
  | realloc => exact (utilRealloc_matches alike _).bind fun _ _ result => result
  | free => exact (utilFree_matches alike _).bind fun _ _ result => result

theorem utilLoop_matches {tally : Tally} (alike : Alike tally.driver driver) (ops : List TraceOp) :
    Matches (fun tally last => Alike tally.driver last)
      (ops.foldlM (utilOp setting tracenum) tally) (ops.foldlM (speedOp setting) driver) := by
  induction ops generalizing tally driver with
  | nil => exact alike
  | cons op ops ih =>
      rw [List.foldlM_cons, List.foldlM_cons]
      exact (utilOp_matches alike op).bind fun _ _ next => ih next

end Agreement

end OsPractices.Mdriver
