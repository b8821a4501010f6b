import OsPractices.Library.Avoidance
import OsPractices.Mdriver.Checks

/-!
# The arrays of the driver

As long as the requests of a trace name ids below `num_ids`, no evaluation of the
driver reads or writes outside of the arrays of the trace, whatever the package
does.
-/

set_option autoImplicit false

namespace OsPractices.Mdriver

open Library
open Malloc (State null u64 offsetT memResetBrk)

/-- The ids that a request may name. -/
def TraceOp.Named (numIds : Int) (op : TraceOp) : Prop :=
  op.type = .free ∧ op.index = -1 ∨ 0 ≤ op.index ∧ op.index < numIds

instance (numIds : Int) (op : TraceOp) : Decidable (op.Named numIds) :=
  inferInstanceAs (Decidable (_ ∨ _))

/-- The arrays of blocks and of sizes have an element for each id. -/
structure Arrays (numIds : Int) (driver : Driver) : Prop where
  blocks : driver.blocks.length = numIds.toNat
  sizes : driver.blockSizes.length = numIds.toNat

/-- All the arrays have an element for each id, and the ranges name ids. -/
structure Sized (numIds : Int) (driver : Driver) : Prop extends Arrays numIds driver where
  bases : driver.blockRandBase.length = numIds.toNat
  ranges : ∀ range ∈ driver.ranges, 0 ≤ range.index ∧ range.index < numIds

variable {setting : Setting} {trace : Trace} {driver : Driver} {numIds : Int} {opnum : Nat}
  {index : Int}

theorem element_avoids {Value : Type} {array : List Value} (named : 0 ≤ index ∧ index < numIds)
    (length : array.length = numIds.toNat) :
    Avoids .undefined (element array index) fun _ => True := by
  obtain ⟨value, read⟩ := element_of_lt named.1 (by omega : index.toNat < array.length)
  rw [read]
  exact .ok trivial

theorem assign_avoids {Value : Type} {array : List Value} (named : 0 ≤ index ∧ index < numIds)
    (length : array.length = numIds.toNat) (value : Value) :
    Avoids .undefined (assign array index value) fun after => after.length = numIds.toNat :=
  .of_returns ((assign_inside named.1 (by omega) value).mono fun _ facts => facts.1.trans length)

theorem call_avoids {Value : Type} (run : Except Malloc.Fault Value) :
    Avoids .undefined (call run) fun _ => True := by
  cases run with
  | ok value => exact .ok trivial
  | error fault => exact .error fun same => (nomatch same)

namespace Sized

/-- Fields that the arrays do not depend on have changed. -/
theorem of_same (sized : Sized numIds driver) (after : Driver)
    (blocks : after.blocks.length = driver.blocks.length)
    (sizes : after.blockSizes.length = driver.blockSizes.length)
    (bases : after.blockRandBase.length = driver.blockRandBase.length)
    (ranges : ∀ range ∈ after.ranges, range ∈ driver.ranges) : Sized numIds after :=
  ⟨⟨blocks.trans sized.blocks, sizes.trans sized.sizes⟩, bases.trans sized.bases,
    fun range member => sized.ranges range (ranges range member)⟩

theorem mallocError (sized : Sized numIds driver) (message : Message) :
    Sized numIds (Mdriver.mallocError trace opnum message driver) :=
  sized.of_same _ rfl rfl rfl fun _ member => member

theorem removeRange (sized : Sized numIds driver) (lo : Nat) :
    Sized numIds (Mdriver.removeRange driver lo) :=
  sized.of_same _ rfl rfl rfl fun _ member => List.mem_of_mem_eraseP member

theorem addRange (sized : Sized numIds driver) (named : 0 ≤ index ∧ index < numIds) (lo : Nat)
    (size : Int) : Avoids .undefined
      (Mdriver.addRange setting trace driver lo size opnum index)
      fun result => Sized numIds result.2 := by
  unfold Mdriver.addRange
  dsimp only
  split
  case isTrue => exact .error fun same => (nomatch same)
  case isFalse =>
    split
    case isTrue => exact .ok (sized.mallocError _)
    case isFalse =>
      split
      case isTrue => exact .ok (sized.mallocError _)
      case isFalse =>
        split
        case isTrue => exact .ok sized
        case isFalse =>
          split
          case h_1 => exact .ok (sized.mallocError _)
          case h_2 =>
            refine .ok ⟨⟨sized.blocks, sized.sizes⟩, sized.bases, fun range member => ?_⟩
            cases List.mem_cons.mp member with
            | inl isNew => exact isNew ▸ named
            | inr inside => exact sized.ranges range inside

theorem randomizeBlock (sized : Sized numIds driver) (named : 0 ≤ index ∧ index < numIds) :
    Avoids .undefined (Mdriver.randomizeBlock setting driver index) (Sized numIds) := by
  unfold Mdriver.randomizeBlock
  dsimp only
  split
  case isTrue => exact .ok sized
  case isFalse =>
    refine (assign_avoids named sized.bases _).bind fun bases length =>
      (element_avoids named sized.blocks).bind fun block _ =>
        (element_avoids named sized.sizes).bind fun size _ => ?_
    split
    case isTrue => exact .ok ⟨⟨sized.blocks, sized.sizes⟩, length, sized.ranges⟩
    case isFalse => exact .error fun same => (nomatch same)

theorem checkIndex (sized : Sized numIds driver) (below : index < numIds) :
    Avoids .undefined (Mdriver.checkIndex setting trace driver opnum index) (Sized numIds) := by
  unfold Mdriver.checkIndex
  split
  case isTrue => exact .ok sized
  case isFalse notNegative =>
    have named : 0 ≤ index ∧ index < numIds := ⟨Int.not_lt.mp notNegative, below⟩
    split
    case isTrue => exact .ok sized
    case isFalse =>
      refine (element_avoids named sized.blocks).bind fun block _ =>
        (element_avoids named sized.sizes).bind fun size _ =>
          (element_avoids named sized.bases).bind fun base _ => ?_
      split
      case isTrue =>
        split
        case h_1 => exact .ok sized
        case h_2 => exact .ok (sized.mallocError _)
      case isFalse => exact .error fun same => (nomatch same)

theorem checkAll (sized : Sized numIds driver) :
    Avoids .undefined (Mdriver.checkAll setting trace driver opnum) (Sized numIds) := by
  unfold Mdriver.checkAll
  split
  case isTrue =>
    refine (call_avoids _).bind fun _ _ => Avoids.foldlM sized fun range member state sized' =>
      sized'.checkIndex (sized.ranges range member).2
  case isFalse => exact .ok sized

theorem evalAlloc (sized : Sized numIds driver) (named : 0 ≤ index ∧ index < numIds)
    (size : Nat) : Avoids .undefined (Mdriver.evalAlloc setting trace driver opnum index size)
      fun result => Sized numIds result.2 := by
  unfold Mdriver.evalAlloc
  refine (call_avoids _).bind fun answer _ => ?_
  dsimp only
  split
  case isTrue => exact .ok (sized.of_same _ rfl rfl rfl fun _ member => member)
  case isFalse =>
    have sized' : Sized numIds { driver with state := answer.2 } :=
      sized.of_same _ rfl rfl rfl fun _ member => member
    have adding := @addRange setting trace _ numIds opnum index sized' named answer.1 (offsetT size)
    refine Avoids.bind adding fun added sized'' => ?_
    split
    case isTrue => exact .ok sized''
    case isFalse =>
      refine (assign_avoids named sized''.blocks answer.1).bind fun blocks blocksLength =>
        (assign_avoids named sized''.sizes size).bind fun sizes sizesLength => ?_
      have entered : Sized numIds { added.2 with blocks := blocks, blockSizes := sizes } :=
        ⟨⟨blocksLength, sizesLength⟩, sized''.bases, sized''.ranges⟩
      exact (entered.randomizeBlock named).bind fun _ last => .ok last

theorem afterRealloc (sized : Sized numIds driver) (named : 0 ≤ index ∧ index < numIds)
    (newp size : Nat) : Avoids .undefined
      (Mdriver.afterRealloc setting trace driver opnum index newp size)
      fun result => Sized numIds result.2 := by
  unfold Mdriver.afterRealloc
  refine (assign_avoids named sized.blocks newp).bind fun blocks blocksLength =>
    (element_avoids named sized.sizes).bind fun oldSize _ =>
      (assign_avoids named sized.sizes (min size oldSize)).bind fun sizes sizesLength => ?_
  have entered : Sized numIds { driver with blocks := blocks, blockSizes := sizes } :=
    ⟨⟨blocksLength, sizesLength⟩, sized.bases, sized.ranges⟩
  refine (entered.checkIndex named.2).bind fun checked sized' =>
    (assign_avoids named sized'.sizes size).bind fun lasts lastsLength => ?_
  have resized : Sized numIds { checked with blockSizes := lasts } :=
    ⟨⟨sized'.blocks, lastsLength⟩, sized'.bases, sized'.ranges⟩
  exact (resized.randomizeBlock named).bind fun _ last => .ok last

theorem evalRealloc (sized : Sized numIds driver) (named : 0 ≤ index ∧ index < numIds)
    (size : Nat) : Avoids .undefined (Mdriver.evalRealloc setting trace driver opnum index size)
      fun result => Sized numIds result.2 := by
  unfold Mdriver.evalRealloc
  refine (sized.checkIndex named.2).bind fun checked sized' =>
    (element_avoids named sized'.blocks).bind fun oldp _ => (call_avoids _).bind fun answer _ => ?_
  have called : Sized numIds { checked with state := answer.2 } :=
    sized'.of_same _ rfl rfl rfl fun _ member => member
  dsimp only
  split
  case isTrue => exact .ok (called.mallocError _)
  case isFalse =>
    split
    case isTrue => exact .ok (called.mallocError _)
    case isFalse =>
      have removed := called.removeRange oldp
      split
      case isTrue =>
        refine (removed.addRange named answer.1 (offsetT size)).bind fun added sized'' => ?_
        split
        case isTrue => exact .ok sized''
        case isFalse => exact sized''.afterRealloc named answer.1 size
      case isFalse => exact removed.afterRealloc named answer.1 size

theorem evalFree (sized : Sized numIds driver)
    (named : index = -1 ∨ 0 ≤ index ∧ index < numIds) (known : 0 ≤ numIds) :
    Avoids .undefined (Mdriver.evalFree setting trace driver opnum index)
      fun result => Sized numIds result.2 := by
  unfold Mdriver.evalFree
  refine (sized.checkIndex (by omega)).bind fun checked sized' => ?_
  split
  case isTrue =>
    exact (call_avoids _).bind fun state _ => .ok (sized'.of_same _ rfl rfl rfl fun _ member => member)
  case isFalse notNull =>
    exact (element_avoids (named.resolve_left notNull) sized'.blocks).bind fun p _ =>
      (call_avoids _).bind fun state _ =>
        .ok ((sized'.removeRange p).of_same _ rfl rfl rfl fun _ member => member)

theorem evalOp (sized : Sized numIds driver) (known : 0 ≤ numIds) {op : TraceOp}
    (named : op.Named numIds) :
    Avoids .undefined (Mdriver.evalOp setting trace driver opnum op)
      fun result => Sized numIds result.2 := by
  unfold Mdriver.evalOp
  refine sized.checkAll.bind fun checked sized' => ?_
  cases kind : op.type with
  | alloc => exact sized'.evalAlloc (by simpa [TraceOp.Named, kind] using named) _
  | realloc => exact sized'.evalRealloc (by simpa [TraceOp.Named, kind] using named) _
  | free => exact sized'.evalFree (by simpa [TraceOp.Named, kind] using named) known

theorem evalLoop (sized : Sized numIds driver) (known : 0 ≤ numIds) {ops : List TraceOp}
    (named : ∀ op ∈ ops, op.Named numIds) :
    Avoids .undefined (Mdriver.evalLoop setting trace driver opnum ops)
      fun result => Sized numIds result.2 := by
  induction ops generalizing driver opnum with
  | nil => exact .ok sized
  | cons op ops ih =>
      rw [Mdriver.evalLoop]
      refine (sized.evalOp known (named op List.mem_cons_self)).bind fun result sized' => ?_
      obtain ⟨goes, later⟩ := result
      cases goes with
      | false => exact .ok sized'
      | true => exact ih sized' fun other member => named other (List.mem_cons_of_mem op member)

/-- The arrays as they are when the requests begin. -/
theorem start (trace : Trace) (driver : Driver) (state : State) :
    Sized trace.numIds { reinitTrace trace (clearRanges (trace.load driver)) with state := state } :=
  ⟨⟨List.length_replicate, List.length_replicate⟩, List.length_replicate, by simp [clearRanges,
    reinitTrace]⟩

end Sized

namespace Arrays

theorem utilAlloc (arrays : Arrays numIds driver) (tracenum total : Int) {op : TraceOp}
    (named : 0 ≤ op.index ∧ op.index < numIds) :
    Avoids .undefined (Mdriver.utilAlloc setting driver tracenum total op)
      fun result => Arrays numIds result.1 := by
  unfold Mdriver.utilAlloc
  refine (call_avoids _).bind fun answer _ => ?_
  dsimp only
  split
  case isTrue => exact .error fun same => (nomatch same)
  case isFalse =>
    exact (assign_avoids named arrays.blocks answer.1).bind fun blocks blocksLength =>
      (assign_avoids named arrays.sizes (u64 (offsetT op.size))).bind fun sizes sizesLength =>
        .ok ⟨blocksLength, sizesLength⟩

theorem utilRealloc (arrays : Arrays numIds driver) (tracenum total : Int) {op : TraceOp}
    (named : 0 ≤ op.index ∧ op.index < numIds) :
    Avoids .undefined (Mdriver.utilRealloc setting driver tracenum total op)
      fun result => Arrays numIds result.1 := by
  unfold Mdriver.utilRealloc
  refine (element_avoids named arrays.sizes).bind fun oldsize _ =>
    (element_avoids named arrays.blocks).bind fun oldp _ => (call_avoids _).bind fun answer _ => ?_
  dsimp only
  split
  case isTrue => exact .error fun same => (nomatch same)
  case isFalse =>
    exact (assign_avoids named arrays.blocks answer.1).bind fun blocks blocksLength =>
      (assign_avoids named arrays.sizes (u64 (offsetT op.size))).bind fun sizes sizesLength =>
        .ok ⟨blocksLength, sizesLength⟩

theorem utilFree (arrays : Arrays numIds driver) (total : Int) {op : TraceOp}
    (named : op.index = -1 ∨ 0 ≤ op.index ∧ op.index < numIds) :
    Avoids .undefined (Mdriver.utilFree setting driver total op)
      fun result => Arrays numIds result.1 := by
  unfold Mdriver.utilFree
  split
  case isTrue =>
    exact (call_avoids _).bind fun state _ => .ok ⟨arrays.blocks, arrays.sizes⟩
  case isFalse notNegative =>
    have inside : 0 ≤ op.index ∧ op.index < numIds := by omega
    exact (element_avoids inside arrays.sizes).bind fun size _ =>
      (element_avoids inside arrays.blocks).bind fun p _ => (call_avoids _).bind fun state _ =>
        .ok ⟨arrays.blocks, arrays.sizes⟩

theorem utilOp (tracenum : Int) {tally : Tally} (arrays : Arrays numIds tally.driver) {op : TraceOp}
    (named : op.Named numIds) :
    Avoids .undefined (Mdriver.utilOp setting tracenum tally op)
      fun tally => Arrays numIds tally.driver := by
  unfold Mdriver.utilOp
  unfold TraceOp.Named at named
  cases kind : op.type with
  | alloc =>
      exact (arrays.utilAlloc tracenum tally.totalSize (by simpa [kind] using named)).bind
        fun _ last => .ok last
  | realloc =>
      exact (arrays.utilRealloc tracenum tally.totalSize (by simpa [kind] using named)).bind
        fun _ last => .ok last
  | free =>
      exact (arrays.utilFree tally.totalSize (by simpa [kind] using named)).bind fun _ last => .ok last

theorem speedOp (arrays : Arrays numIds driver) {op : TraceOp} (named : op.Named numIds) :
    Avoids .undefined (Mdriver.speedOp setting driver op) (Arrays numIds) := by
  unfold Mdriver.speedOp
  unfold TraceOp.Named at named
  cases kind : op.type with
  | alloc =>
      have inside : 0 ≤ op.index ∧ op.index < numIds := by simpa [kind] using named
      refine (call_avoids _).bind fun answer _ => ?_
      dsimp only
      split
      case isTrue => exact .error fun same => (nomatch same)
      case isFalse =>
        exact (assign_avoids inside arrays.blocks answer.1).bind fun blocks blocksLength =>
          .ok ⟨blocksLength, arrays.sizes⟩
  | realloc =>
      have inside : 0 ≤ op.index ∧ op.index < numIds := by simpa [kind] using named
      refine (element_avoids inside arrays.blocks).bind fun oldp _ =>
        (call_avoids _).bind fun answer _ => ?_
      dsimp only
      split
      case isTrue => exact .error fun same => (nomatch same)
      case isFalse =>
        exact (assign_avoids inside arrays.blocks answer.1).bind fun blocks blocksLength =>
          .ok ⟨blocksLength, arrays.sizes⟩
  | free =>
      dsimp only
      split
      case isTrue =>
        exact (call_avoids _).bind fun state _ => .ok ⟨arrays.blocks, arrays.sizes⟩
      case isFalse notNegative =>
        have inside : 0 ≤ op.index ∧ op.index < numIds := by
          simp only [kind, true_and] at named
          omega
        exact (element_avoids inside arrays.blocks).bind fun p _ => (call_avoids _).bind fun state _ =>
          .ok ⟨arrays.blocks, arrays.sizes⟩

/-- `mem_reset_brk` and `mm_init` before the requests. -/
theorem restart (trace : Trace) (driver : Driver) (failure : String) :
    Avoids .undefined (Mdriver.restart setting trace driver failure) (Arrays trace.numIds) := by
  unfold Mdriver.restart
  refine (call_avoids _).bind fun answer _ => ?_
  dsimp only
  split
  case isTrue => exact .error fun same => (nomatch same)
  case isFalse => exact .ok ⟨List.length_replicate, List.length_replicate⟩

end Arrays

/-- Where each request of a trace names an id below `num_ids`, none of the
evaluations leaves the arrays of the trace, with any package at all. -/
theorem evaluations_defined (setting : Setting) (driver : Driver) (tracenum : Int)
    (known : 0 ≤ trace.numIds) (named : ∀ op ∈ trace.ops, op.Named trace.numIds) :
    evalMmValid setting trace (trace.load driver) ≠ .error .undefined ∧
      evalMmUtil setting trace driver tracenum ≠ .error .undefined ∧
      evalMmSpeed setting trace driver ≠ .error .undefined := by
  refine ⟨?_, ?_, ?_⟩
  · have avoids : Avoids .undefined (evalMmValid setting trace (trace.load driver))
        fun result => Sized trace.numIds result.2 := by
      unfold evalMmValid
      refine (call_avoids _).bind fun answer _ => ?_
      have sized := Sized.start trace driver answer.2
      dsimp only
      split
      case isTrue => exact .ok (sized.mallocError _)
      case isFalse => exact sized.evalLoop known named
    exact avoids.not_fault
  · have avoids : Avoids .undefined (evalMmUtil setting trace driver tracenum)
        fun tally => Arrays trace.numIds tally.driver := by
      refine (Arrays.restart trace driver _).bind fun started arrays => ?_
      have tallied : Arrays trace.numIds (⟨started, 0, 0⟩ : Tally).driver := arrays
      exact Avoids.foldlM tallied fun op member tally arrays' =>
        arrays'.utilOp tracenum (named op member)
    exact avoids.not_fault
  · have avoids : Avoids .undefined (evalMmSpeed setting trace driver) (Arrays trace.numIds) :=
      (Arrays.restart trace driver _).bind fun started arrays =>
        Avoids.foldlM arrays fun op member driver arrays' => arrays'.speedOp (named op member)
    exact avoids.not_fault

/-- A package that opens and serves `malloc`, but whose `realloc` moves a block to an odd
address, and a trace that frees that block twice. -/
theorem evaluations_defined_misaligned :
    let trace : Trace :=
      ⟨"stdin", 1, 2, 0, [⟨.alloc, 1, 8⟩, ⟨.realloc, 1, 16⟩, ⟨.free, 1, 0⟩, ⟨.free, 1, 0⟩]⟩
    let setting : Setting := ⟨⟨fun state => .ok (0, state),
      fun state size => .ok (Malloc.memSbrk state (size + 8)), fun state _ => .ok state,
      fun state ptr _ => .ok (ptr + 1, state), fun _ => .ok ()⟩, .expensive, id⟩
    let driver : Driver := ⟨Malloc.memInit 4096 fun _ => 0, [], [], [], [], randomDataLen, 0, []⟩
    evalMmValid setting trace (trace.load driver) ≠ .error .undefined ∧
      evalMmUtil setting trace driver 0 ≠ .error .undefined ∧
      evalMmSpeed setting trace driver ≠ .error .undefined :=
  evaluations_defined _ _ 0 (by decide) (by decide)

end OsPractices.Mdriver
