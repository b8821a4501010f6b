import OsPractices.Library.Fallible
import OsPractices.Malloc.Words
import OsPractices.Mdriver.Code

/-!
# Traces, packages and the checks of the driver

The rules that the requests of a trace keep, what the driver may rely on of a
package that keeps the contract of an allocator, and what each check does on a
block that is as it should be.
-/

set_option autoImplicit false

namespace OsPractices.Mdriver

open Library
open Malloc (State Mapped null u64 offsetT maxHeap memHeapHi memResetBrk)

/-! ## Traces -/

/-- What an id stands for: no block, a block of some size, or one that has been
freed. -/
inductive Slot where
  | empty
  | live (size : Nat)
  | stale
  deriving DecidableEq, Repr

abbrev Slots := Int → Slot

def Slots.initial : Slots := fun _ => .empty

def Slot.IsLive : Slot → Prop
  | .live _ => True
  | _ => False

instance : (slot : Slot) → Decidable slot.IsLive
  | .empty => .isFalse id
  | .live _ => .isTrue trivial
  | .stale => .isFalse id

/-- An `alloc` names an id without a block, the other requests one whose block
has not been freed; `free` may also name the null pointer by `-1`. -/
def Slots.Admits (slots : Slots) (numIds : Int) (op : TraceOp) : Prop :=
  match op.type with
  | .alloc => (0 ≤ op.index ∧ op.index < numIds) ∧ ¬ (slots op.index).IsLive ∧
      0 < op.size ∧ op.size < 2 ^ 31
  | .realloc => (0 ≤ op.index ∧ op.index < numIds) ∧ slots op.index ≠ .stale ∧ op.size < 2 ^ 31
  | .free => op.index = -1 ∨ (0 ≤ op.index ∧ op.index < numIds) ∧ slots op.index ≠ .stale

instance (slots : Slots) (numIds : Int) (op : TraceOp) : Decidable (slots.Admits numIds op) := by
  unfold Slots.Admits
  cases op.type <;> infer_instance

def Slots.after (slots : Slots) (op : TraceOp) : Slots :=
  Function.update slots op.index (match op.type with
    | .alloc => .live op.size
    | .realloc => if op.size = 0 then .empty else .live op.size
    | .free => if slots op.index = .empty then .empty else .stale)

def Slots.Conforms (numIds : Int) : Slots → List TraceOp → Prop
  | _, [] => True
  | slots, op :: ops => slots.Admits numIds op ∧ (slots.after op).Conforms numIds ops

def decidableConforms (numIds : Int) : (slots : Slots) → (ops : List TraceOp) →
    Decidable (slots.Conforms numIds ops)
  | _, [] => .isTrue trivial
  | slots, op :: ops =>
      have := decidableConforms numIds (slots.after op) ops
      inferInstanceAs (Decidable (_ ∧ _))

instance (numIds : Int) (slots : Slots) (ops : List TraceOp) :
    Decidable (slots.Conforms numIds ops) := decidableConforms numIds slots ops

/-- The requests of the trace are those of a client that keeps the rules. -/
def Trace.Conforms (trace : Trace) : Prop := Slots.initial.Conforms trace.numIds trace.ops

instance (trace : Trace) : Decidable trace.Conforms :=
  inferInstanceAs (Decidable (Slots.Conforms _ _ _))

/-! ## Packages -/

def Package.allocator (package : Package) : Allocator State Malloc.Fault where
  memory := State.mem
  withMemory state memory := { state with mem := memory }
  low := State.heap
  high := State.memBrk
  malloc := package.mmMalloc
  free := package.mmFree
  realloc := package.mmRealloc

/-- The package keeps the contract for blocks below `2^31` bytes, on the heap of
`memlib.c`. -/
structure Sound (package : Package) where
  contract : Contract package.allocator
  alignment : contract.alignment = Malloc.alignment
  largest : contract.largest = 2 ^ 31
  mapped {state : State} {spent : Nat} {live : List Extent} :
    contract.Holds state spent live → Mapped state ∧ state.memBrk ≤ state.memMaxAddr
  opens {region : State} : Mapped region →
    ∃ start, package.mmInit (memResetBrk region) = .ok (0, start) ∧ contract.Holds start 0 []
  checkheap {state : State} {spent : Nat} {live : List Extent} :
    contract.Holds state spent live → package.mmCheckheap state = .ok ()

/-- What a request costs of a package's limit. -/
def Sound.price {package : Package} (sound : Sound package) (op : TraceOp) : Nat :=
  match op.type with
  | .free => 0
  | _ => if op.size = 0 then 0 else sound.contract.cost op.size

/-! ## Arrays -/

theorem element_eq_ok {Value : Type} {array : List Value} {index : Int} {value : Value} :
    element array index = .ok value ↔ 0 ≤ index ∧ array[index.toNat]? = some value := by
  unfold element
  split
  case isTrue negative => simp [Int.not_le.mpr negative]
  case isFalse notNegative =>
    cases found : array[index.toNat]? with
    | none => simp
    | some other => simp [Int.not_lt.mp notNegative]

/-- The array after an assignment inside its bounds. -/
theorem assign_inside {Value : Type} {array : List Value} {index : Int} (low : 0 ≤ index)
    (high : index.toNat < array.length) (value : Value) :
    Returns (assign array index value) fun after => after.length = array.length ∧
      element after index = .ok value ∧
      ∀ other, other ≠ index → element after other = element array other := by
  refine .of_eq (if_pos ⟨low, high⟩) ⟨List.length_set, ?_, fun other apart => ?_⟩
  · exact element_eq_ok.mpr ⟨low, by simp [high]⟩
  · unfold element
    split
    case isTrue => rfl
    case isFalse notNegative =>
      have different : index.toNat ≠ other.toNat := by omega
      rw [List.getElem?_set_ne different]

theorem element_replicate {Value : Type} {count : Nat} {index : Int} {value : Value}
    (low : 0 ≤ index) (high : index.toNat < count) :
    element (List.replicate count value) index = .ok value :=
  element_eq_ok.mpr ⟨low, by simp [high]⟩

theorem call_ok {Value : Type} (value : Value) :
    call (.ok value : Except Malloc.Fault Value) = .ok value := rfl

theorem call_eq_ok_iff {Value : Type} {run : Except Malloc.Fault Value} {value : Value} :
    call run = .ok value ↔ run = .ok value := by
  cases run with
  | error fault => exact ⟨fun same => (nomatch same), fun same => (nomatch same)⟩
  | ok other => exact ⟨fun same => by cases same; rfl, fun same => by cases same; rfl⟩

theorem element_of_lt {Value : Type} {array : List Value} {index : Int} (low : 0 ≤ index)
    (high : index.toNat < array.length) : ∃ value, element array index = .ok value :=
  ⟨array[index.toNat], element_eq_ok.mpr ⟨low, by simp [high]⟩⟩

/-! ## The checks on one block -/

section Checks

variable {setting : Setting} {trace : Trace} {driver : Driver} {opnum : Nat} {index : Int}

/-- The block of an id has the bytes that were written into it. -/
def Intact (setting : Setting) (driver : Driver) (index : Int) : Prop :=
  ∃ block size base, element driver.blocks index = .ok block ∧
    element driver.blockSizes index = .ok size ∧ element driver.blockRandBase index = .ok base ∧
    (size = 0 ∨ driver.state.Contains block size) ∧
    ∀ offset < size, driver.state.mem (block + offset) = setting.pattern base offset

theorem checkIndex_ok
    (intact : 0 ≤ index → setting.debugMode ≠ .none → Intact setting driver index) :
    checkIndex setting trace driver opnum index = .ok driver := by
  unfold checkIndex
  cases Int.decLt index 0 with
  | isTrue negative => rw [if_pos negative, pure_eq_ok]
  | isFalse notNegative =>
      rw [if_neg notNegative]
      cases decEq setting.debugMode .none with
      | isTrue quiet => rw [if_pos quiet, pure_eq_ok]
      | isFalse checks =>
          obtain ⟨block, size, base, isBlock, isSize, isBase, inside, data⟩ :=
            intact (Int.not_lt.mp notNegative) checks
          have nothing : ((List.range size).filter fun offset =>
              driver.state.mem (block + offset) ≠ setting.pattern base offset) = [] := by
            refine List.filter_eq_nil_iff.mpr fun offset member => ?_
            simp [data offset (List.mem_range.mp member)]
          rw [if_neg checks, isBlock, ok_bind, isSize, ok_bind, isBase, ok_bind, if_pos inside,
            nothing, pure_eq_ok]

/-- What `randomize_block` does to a block and leaves of the rest. -/
structure Randomized (setting : Setting) (driver : Driver) (index : Int) (extent : Extent)
    (after : Driver) : Prop where
  state : after.state = { driver.state with mem := after.state.mem }
  outside : ∀ address, ¬ extent.Covers address →
    after.state.mem address = driver.state.mem address
  basesLength : after.blockRandBase.length = driver.blockRandBase.length
  others : ∀ other, other ≠ index →
    element after.blockRandBase other = element driver.blockRandBase other
  pattern : setting.debugMode ≠ .none → ∃ base, element after.blockRandBase index = .ok base ∧
    ∀ offset < extent.length, after.state.mem (extent.start + offset) = setting.pattern base offset
  ranges : after.ranges = driver.ranges
  blocks : after.blocks = driver.blocks
  blockSizes : after.blockSizes = driver.blockSizes
  errors : after.errors = driver.errors
  output : after.output = driver.output

theorem randomizeBlock_returns (extent : Extent) (low : 0 ≤ index)
    (high : index.toNat < driver.blockRandBase.length)
    (isBlock : element driver.blocks index = .ok extent.start)
    (isSize : element driver.blockSizes index = .ok extent.length)
    (inside : extent.length = 0 ∨ driver.state.Contains extent.start extent.length) :
    Returns (randomizeBlock setting driver index) (Randomized setting driver index extent) := by
  unfold randomizeBlock
  cases decEq setting.debugMode .none with
  | isTrue quiet =>
      rw [if_pos quiet]
      exact .ok ⟨rfl, fun _ _ => rfl, rfl, fun _ _ => rfl, fun checks => absurd quiet checks, rfl,
        rfl, rfl, rfl, rfl⟩
  | isFalse checks =>
      obtain ⟨bases, assigned, length, isBase, others⟩ :=
        assign_inside low high (offsetT (setting.random driver.drawn))
      rw [if_neg checks]
      dsimp only
      rw [assigned, ok_bind, isBlock, ok_bind, isSize, ok_bind, if_pos inside]
      refine .ok ⟨rfl, fun address outside => if_neg outside, length, others, fun _ => ?_, rfl, rfl,
        rfl, rfl, rfl⟩
      refine ⟨_, isBase, fun offset below => ?_⟩
      have covered : extent.start ≤ extent.start + offset ∧
          extent.start + offset < extent.start + extent.length :=
        ⟨Nat.le_add_right _ _, Nat.add_lt_add_left below _⟩
      refine (if_pos covered).trans ?_
      rw [Nat.add_sub_cancel_left]

/-- The range list is kept. -/
def Recorded (setting : Setting) (trace : Trace) : Prop :=
  trace.ignoreRanges = 0 ∧ setting.debugMode ≠ .none

instance (setting : Setting) (trace : Trace) : Decidable (Recorded setting trace) :=
  inferInstanceAs (Decidable (_ ∧ _))

/-- The range that `add_range` records for a block. -/
def rangeOf (index : Int) (extent : Extent) : Range := ⟨extent.start, extent.stop - 1, index⟩

theorem rangeOf_meets {extent other : Extent} (room : 0 < extent.length) (otherRoom : 0 < other.length)
    (apart : other.Apart extent) : ¬ (rangeOf index other).Meets extent.start (extent.stop - 1) := by
  unfold Range.Meets rangeOf
  unfold Extent.Apart Extent.stop at apart
  unfold Extent.stop
  dsimp only
  omega

theorem addRange_ok {extent : Extent} (mapped : Mapped driver.state)
    (top : driver.state.memBrk ≤ driver.state.memMaxAddr) (positive : 0 < extent.length)
    (small : extent.length < 2 ^ 31) (aligned : extent.start % Malloc.alignment = 0)
    (within : extent.Within driver.state.heap driver.state.memBrk)
    (apart : Recorded setting trace → ∀ range ∈ driver.ranges,
      ¬ range.Meets extent.start (extent.stop - 1)) :
    addRange setting trace driver extent.start (offsetT extent.length) opnum index =
      .ok (true, if Recorded setting trace then
        { driver with ranges := rangeOf index extent :: driver.ranges } else driver) := by
  obtain ⟨low, high⟩ := within
  have limit := Malloc.maxHeap_eq
  have below := mapped.below
  rw [mapped.maxAddr] at top
  unfold Extent.stop at high
  have size : offsetT extent.length = extent.length :=
    Malloc.offsetT_of_small (by omega) (by omega)
  have last : u64 (extent.start + (extent.length : Int) - 1) = extent.stop - 1 := by
    unfold u64 Extent.stop
    omega
  have heapHi : memHeapHi driver.state = driver.state.memBrk - 1 := by
    unfold memHeapHi u64
    omega
  have stop : extent.stop = extent.start + extent.length := rfl
  unfold addRange
  rw [size]
  dsimp only
  rw [last, if_neg (by omega), if_neg (by simpa using aligned), if_neg (by
    unfold memHeapLo
    rw [heapHi]
    omega)]
  cases (inferInstance : Decidable (Recorded setting trace)) with
  | isTrue recorded =>
      obtain ⟨counts, checks⟩ := recorded
      have free : driver.ranges.find? (fun range => range.Meets extent.start (extent.stop - 1)) =
          none := by
        refine List.find?_eq_none.mpr fun range member => ?_
        simpa using apart ⟨counts, checks⟩ range member
      rw [if_neg (by simp [counts, checks]), free, if_pos ⟨counts, checks⟩]
      rfl
  | isFalse skips =>
      have skipped : trace.ignoreRanges ≠ 0 ∨ setting.debugMode = .none := by
        unfold Recorded at skips
        by_cases counts : trace.ignoreRanges = 0
        · exact .inr (by simpa [counts] using skips)
        · exact .inl counts
      rw [if_pos skipped, if_neg skips]

end Checks

end OsPractices.Mdriver
