import OsPractices.Library.Allocator
import OsPractices.Malloc.Code

/-!
# The driver

The functions of `mdriver.c` that run a trace of requests on a malloc package:
`eval_mm_valid` with the range list and the random data it checks the payloads
by, `eval_mm_util` and `eval_mm_speed`. The driver's own memory is that of the C
library and does not run out. A read or write outside an array, and a read of
what was never set, is undefined.
-/

set_option autoImplicit false

namespace OsPractices.Mdriver

open Library
open Malloc (State null u64 offsetT alignment memResetBrk memHeapHi)

/-- The malloc package that is linked with the driver. `mm_checkheap` reads the heap and
leaves it alone, as that of each package does. -/
structure Package where
  mmInit : State → Except Malloc.Fault (Int × State)
  mmMalloc : State → Nat → Except Malloc.Fault (Nat × State)
  mmFree : State → Nat → Except Malloc.Fault State
  mmRealloc : State → Nat → Nat → Except Malloc.Fault (Nat × State)
  mmCheckheap : State → Except Malloc.Fault Unit

inductive DebugMode where
  | none
  | cheap
  | expensive
  deriving DecidableEq, Repr

/-- `range_t` -/
structure Range where
  lo : Nat
  hi : Nat
  index : Int
  deriving DecidableEq, Repr

inductive RequestType where
  | alloc
  | free
  | realloc
  deriving DecidableEq, Repr

/-- `traceop_t`. Nothing reads the size of a request to free. -/
structure TraceOp where
  type : RequestType
  index : Int
  size : Nat
  deriving DecidableEq, Repr

/-- The fields of `trace_t` that stay as `read_trace` has set them. `num_ops` is
the length of `ops`. -/
structure Trace where
  filename : String
  weight : Int
  numIds : Int
  ignoreRanges : Int
  ops : List TraceOp
  deriving DecidableEq, Repr

/-- The other fields of the trace, the range list, the error count, what has been
printed, how often `random` has been called, and the package's memory. -/
structure Driver where
  state : State
  ranges : List Range
  blocks : List Nat
  blockSizes : List Nat
  blockRandBase : List Int
  drawn : Nat
  errors : Nat
  output : List String

/-- What a run of the driver depends on. -/
structure Setting where
  package : Package
  debugMode : DebugMode
  random : Nat → Nat

inductive Stop where
  | fault (fault : Malloc.Fault)
  | undefined
  | assertion
  | exit (message : String)
  deriving DecidableEq, Repr

def call {Value : Type} (run : Except Malloc.Fault Value) : Except Stop Value :=
  run.mapError .fault

def element {Value : Type} (array : List Value) (index : Int) : Except Stop Value :=
  if index < 0 then .error .undefined
  else
    match array[index.toNat]? with
    | none => .error .undefined
    | some value => .ok value

def assign {Value : Type} (array : List Value) (index : Int) (value : Value) :
    Except Stop (List Value) :=
  if 0 ≤ index ∧ index.toNat < array.length then .ok (array.set index.toNat value)
  else .error .undefined

/-! ## Messages -/

/-- `%p` -/
def pointerText (ptr : Nat) : String :=
  if ptr = 0 then "(nil)" else "0x" ++ String.ofList (Nat.toDigits 16 ptr)

inductive Message where
  | initFailed
  | mallocFailed
  | reallocFailed
  | reallocNotNull
  | unaligned (lo : Nat)
  | outside (lo hi heapLo heapHi : Nat)
  | overlaps (lo hi otherLo otherHi : Nat)
  | garbled (index : Int) (count first : Nat)
  deriving DecidableEq, Repr

def Message.text : Message → String
  | .initFailed => "mm_init failed."
  | .mallocFailed => "mm_malloc failed."
  | .reallocFailed => "mm_realloc failed."
  | .reallocNotNull => "mm_realloc with size 0 returned non-NULL."
  | .unaligned lo =>
      "Payload address (" ++ pointerText lo ++ ") not aligned to " ++ toString alignment ++ " bytes"
  | .outside lo hi heapLo heapHi =>
      "Payload (" ++ pointerText lo ++ ":" ++ pointerText hi ++ ") lies outside heap (" ++
        pointerText heapLo ++ ":" ++ pointerText heapHi ++ ")"
  | .overlaps lo hi otherLo otherHi =>
      "Payload (" ++ pointerText lo ++ ":" ++ pointerText hi ++ ") overlaps another payload (" ++
        pointerText otherLo ++ ":" ++ pointerText otherHi ++ ")\n"
  | .garbled index count first =>
      "block " ++ toString index ++ " has " ++ toString count ++ " garbled byte" ++
        (if 1 < count then "s" else "") ++ ", starting at byte " ++ toString first

/-- `LINENUM` -/
def lineNum (opnum : Nat) : Nat := opnum + 5

def mallocError (trace : Trace) (opnum : Nat) (message : Message) (driver : Driver) : Driver :=
  { driver with
    errors := driver.errors + 1
    output := driver.output ++ ["ERROR [trace " ++ trace.filename ++ ", line " ++
      toString (lineNum opnum) ++ "]: " ++ message.text ++ "\n"] }

/-! ## The range list -/

def memHeapLo (state : State) : Nat := state.heap

def memHeapsize (state : State) : Nat := state.memBrk - state.heap

def Range.Meets (range : Range) (lo hi : Nat) : Prop :=
  range.lo ≤ lo ∧ lo ≤ range.hi ∨ range.lo ≤ hi ∧ hi ≤ range.hi

instance (range : Range) (lo hi : Nat) : Decidable (range.Meets lo hi) :=
  inferInstanceAs (Decidable (_ ∨ _))

def addRange (setting : Setting) (trace : Trace) (driver : Driver) (lo : Nat) (size : Int)
    (opnum : Nat) (index : Int) : Except Stop (Bool × Driver) :=
  let hi := u64 (lo + size - 1)
  let heapLo := memHeapLo driver.state
  let heapHi := memHeapHi driver.state
  if size ≤ 0 then .error .assertion
  else if lo % alignment ≠ 0 then .ok (false, mallocError trace opnum (.unaligned lo) driver)
  else if lo < heapLo ∨ heapHi < lo ∨ hi < heapLo ∨ heapHi < hi then
    .ok (false, mallocError trace opnum (.outside lo hi heapLo heapHi) driver)
  else if trace.ignoreRanges ≠ 0 ∨ setting.debugMode = .none then .ok (true, driver)
  else
    match driver.ranges.find? (·.Meets lo hi) with
    | some other => .ok (false, mallocError trace opnum (.overlaps lo hi other.lo other.hi) driver)
    | none => .ok (true, { driver with ranges := ⟨lo, hi, index⟩ :: driver.ranges })

def removeRange (driver : Driver) (lo : Nat) : Driver :=
  { driver with ranges := driver.ranges.eraseP (·.lo = lo) }

def clearRanges (driver : Driver) : Driver := { driver with ranges := [] }

/-! ## The random data -/

/-- `RANDOM_DATA_LEN` -/
def randomDataLen : Nat := 2 ^ 16

/-- `init_random_data` fills the array from the first calls of `random`. -/
def Setting.randomData (setting : Setting) (index : Nat) : UInt8 :=
  UInt8.ofNat (setting.random index)

/-- The byte that a block with this base has at an offset. -/
def Setting.pattern (setting : Setting) (base : Int) (offset : Nat) : UInt8 :=
  setting.randomData (u64 (base + offset) % randomDataLen)

def randomizeBlock (setting : Setting) (driver : Driver) (index : Int) : Except Stop Driver := do
  if setting.debugMode = .none then return driver
  let base := offsetT (setting.random driver.drawn)
  let bases ← assign driver.blockRandBase index base
  let block ← element driver.blocks index
  let size ← element driver.blockSizes index
  if size = 0 ∨ driver.state.Contains block size then
    let memory : Memory := fun address =>
      if block ≤ address ∧ address < block + size then setting.pattern base (address - block)
      else driver.state.mem address
    return { driver with
      state := { driver.state with mem := memory }
      blockRandBase := bases
      drawn := driver.drawn + 1 }
  else .error (.fault .segv)

def checkIndex (setting : Setting) (trace : Trace) (driver : Driver) (opnum : Nat) (index : Int) :
    Except Stop Driver := do
  if index < 0 then return driver
  if setting.debugMode = .none then return driver
  let block ← element driver.blocks index
  let size ← element driver.blockSizes index
  let base ← element driver.blockRandBase index
  if size = 0 ∨ driver.state.Contains block size then
    match (List.range size).filter fun offset =>
        driver.state.mem (block + offset) ≠ setting.pattern base offset with
    | [] => return driver
    | first :: rest =>
        return mallocError trace opnum (.garbled index (rest.length + 1) first) driver
  else .error (.fault .segv)

/-! ## Correctness -/

def reinitTrace (trace : Trace) (driver : Driver) : Driver :=
  { driver with
    blocks := List.replicate trace.numIds.toNat 0
    blockSizes := List.replicate trace.numIds.toNat 0 }

/-- The arrays of a trace, as `read_trace` allocates them. -/
def Trace.load (trace : Trace) (driver : Driver) : Driver :=
  { reinitTrace trace driver with blockRandBase := List.replicate trace.numIds.toNat 0 }

/-- The checks of every block that `DBG_EXPENSIVE` asks for before each request. -/
def checkAll (setting : Setting) (trace : Trace) (driver : Driver) (opnum : Nat) :
    Except Stop Driver := do
  if setting.debugMode = .expensive then
    call (setting.package.mmCheckheap driver.state)
    driver.ranges.foldlM (fun driver range => checkIndex setting trace driver opnum range.index)
      driver
  else return driver

def evalAlloc (setting : Setting) (trace : Trace) (driver : Driver) (opnum : Nat) (index : Int)
    (size : Nat) : Except Stop (Bool × Driver) := do
  let (p, state) ← call (setting.package.mmMalloc driver.state size)
  let driver := { driver with state := state }
  if p = null then return (false, mallocError trace opnum .mallocFailed driver)
  let (added, driver) ← addRange setting trace driver p (offsetT size) opnum index
  if added = false then return (false, driver)
  let blocks ← assign driver.blocks index p
  let sizes ← assign driver.blockSizes index size
  let driver ← randomizeBlock setting { driver with blocks := blocks, blockSizes := sizes } index
  return (true, driver)

/-- What `eval_mm_valid` does with the block that `mm_realloc` has returned. -/
def afterRealloc (setting : Setting) (trace : Trace) (driver : Driver) (opnum : Nat) (index : Int)
    (newp size : Nat) : Except Stop (Bool × Driver) := do
  let blocks ← assign driver.blocks index newp
  let oldSize ← element driver.blockSizes index
  let sizes ← assign driver.blockSizes index (min size oldSize)
  let driver ← checkIndex setting trace { driver with blocks := blocks, blockSizes := sizes }
    opnum index
  let sizes ← assign driver.blockSizes index size
  let driver ← randomizeBlock setting { driver with blockSizes := sizes } index
  return (true, driver)

def evalRealloc (setting : Setting) (trace : Trace) (driver : Driver) (opnum : Nat) (index : Int)
    (size : Nat) : Except Stop (Bool × Driver) := do
  let driver ← checkIndex setting trace driver opnum index
  let oldp ← element driver.blocks index
  let (newp, state) ← call (setting.package.mmRealloc driver.state oldp size)
  let driver := { driver with state := state }
  if newp = null ∧ size ≠ 0 then return (false, mallocError trace opnum .reallocFailed driver)
  if newp ≠ null ∧ size = 0 then return (false, mallocError trace opnum .reallocNotNull driver)
  let driver := removeRange driver oldp
  if 0 < size then
    let (added, driver) ← addRange setting trace driver newp (offsetT size) opnum index
    if added = false then return (false, driver)
    afterRealloc setting trace driver opnum index newp size
  else afterRealloc setting trace driver opnum index newp size

def evalFree (setting : Setting) (trace : Trace) (driver : Driver) (opnum : Nat) (index : Int) :
    Except Stop (Bool × Driver) := do
  let driver ← checkIndex setting trace driver opnum index
  if index = -1 then
    let state ← call (setting.package.mmFree driver.state null)
    return (true, { driver with state := state })
  else
    let p ← element driver.blocks index
    let driver := removeRange driver p
    let state ← call (setting.package.mmFree driver.state p)
    return (true, { driver with state := state })

/-- One turn of the loop; `false` if the function returns 0 there. -/
def evalOp (setting : Setting) (trace : Trace) (driver : Driver) (opnum : Nat) (op : TraceOp) :
    Except Stop (Bool × Driver) := do
  let driver ← checkAll setting trace driver opnum
  match op.type with
  | .alloc => evalAlloc setting trace driver opnum op.index op.size
  | .realloc => evalRealloc setting trace driver opnum op.index op.size
  | .free => evalFree setting trace driver opnum op.index

def evalLoop (setting : Setting) (trace : Trace) : Driver → Nat → List TraceOp →
    Except Stop (Bool × Driver)
  | driver, _, [] => .ok (true, driver)
  | driver, opnum, op :: ops => do
      let (goes, driver) ← evalOp setting trace driver opnum op
      if goes then evalLoop setting trace driver (opnum + 1) ops else return (false, driver)

def evalMmValid (setting : Setting) (trace : Trace) (driver : Driver) :
    Except Stop (Bool × Driver) := do
  let driver := { driver with state := memResetBrk driver.state }
  let driver := reinitTrace trace (clearRanges driver)
  let (ret, state) ← call (setting.package.mmInit driver.state)
  let driver := { driver with state := state }
  if ret < 0 then return (false, mallocError trace 0 .initFailed driver)
  evalLoop setting trace driver 0 trace.ops

/-! ## Utilization and speed -/

/-- The variables of the loop of `eval_mm_util`. -/
structure Tally where
  driver : Driver
  maxTotalSize : Int
  totalSize : Int

def utilAlloc (setting : Setting) (driver : Driver) (tracenum total : Int) (op : TraceOp) :
    Except Stop (Driver × Int) := do
  let size := offsetT op.size
  let (p, state) ← call (setting.package.mmMalloc driver.state (u64 size))
  if p = null then
    throw (.exit ("trace " ++ toString tracenum ++ ": mm_malloc failed in eval_mm_util"))
  let blocks ← assign driver.blocks op.index p
  let sizes ← assign driver.blockSizes op.index (u64 size)
  return ({ driver with state := state, blocks := blocks, blockSizes := sizes },
    offsetT (total + size))

def utilRealloc (setting : Setting) (driver : Driver) (tracenum total : Int) (op : TraceOp) :
    Except Stop (Driver × Int) := do
  let newsize := offsetT op.size
  let oldsize ← element driver.blockSizes op.index
  let oldp ← element driver.blocks op.index
  let (newp, state) ← call (setting.package.mmRealloc driver.state oldp (u64 newsize))
  if newp = null ∧ newsize ≠ 0 then
    throw (.exit ("trace " ++ toString tracenum ++ ": mm_realloc failed in eval_mm_util"))
  let blocks ← assign driver.blocks op.index newp
  let sizes ← assign driver.blockSizes op.index (u64 newsize)
  return ({ driver with state := state, blocks := blocks, blockSizes := sizes },
    offsetT (total + (newsize - offsetT oldsize)))

def utilFree (setting : Setting) (driver : Driver) (total : Int) (op : TraceOp) :
    Except Stop (Driver × Int) := do
  if op.index < 0 then
    let state ← call (setting.package.mmFree driver.state null)
    return ({ driver with state := state }, total)
  else
    let size ← element driver.blockSizes op.index
    let p ← element driver.blocks op.index
    let state ← call (setting.package.mmFree driver.state p)
    return ({ driver with state := state }, offsetT (total - offsetT size))

def utilOp (setting : Setting) (tracenum : Int) (tally : Tally) (op : TraceOp) :
    Except Stop Tally := do
  let (driver, total) ← (match op.type with
    | .alloc => utilAlloc setting tally.driver tracenum tally.totalSize op
    | .realloc => utilRealloc setting tally.driver tracenum tally.totalSize op
    | .free => utilFree setting tally.driver tally.totalSize op)
  return ⟨driver, max total tally.maxTotalSize, total⟩

/-- `mem_reset_brk` and `mm_init`, as `eval_mm_util` and `eval_mm_speed` do them. -/
def restart (setting : Setting) (trace : Trace) (driver : Driver) (failure : String) :
    Except Stop Driver := do
  let driver := reinitTrace trace driver
  let (ret, state) ← call (setting.package.mmInit (memResetBrk driver.state))
  if ret < 0 then throw (.exit failure)
  return { driver with state := state }

/-- `eval_mm_util` returns `maxTotalSize / mem_heapsize()`. -/
def evalMmUtil (setting : Setting) (trace : Trace) (driver : Driver) (tracenum : Int) :
    Except Stop Tally := do
  let driver ← restart setting trace driver
    ("trace " ++ toString tracenum ++ ": mm_init failed in eval_mm_util")
  trace.ops.foldlM (utilOp setting tracenum) ⟨driver, 0, 0⟩

def speedOp (setting : Setting) (driver : Driver) (op : TraceOp) : Except Stop Driver :=
  match op.type with
  | .alloc => do
      let (p, state) ← call (setting.package.mmMalloc driver.state (u64 (offsetT op.size)))
      if p = null then throw (.exit "mm_malloc error in eval_mm_speed")
      let blocks ← assign driver.blocks op.index p
      return { driver with state := state, blocks := blocks }
  | .realloc => do
      let newsize := offsetT op.size
      let oldp ← element driver.blocks op.index
      let (newp, state) ← call (setting.package.mmRealloc driver.state oldp (u64 newsize))
      if newp = null ∧ newsize ≠ 0 then throw (.exit "mm_realloc error in eval_mm_speed")
      let blocks ← assign driver.blocks op.index newp
      return { driver with state := state, blocks := blocks }
  | .free => do
      if op.index < 0 then
        let state ← call (setting.package.mmFree driver.state null)
        return { driver with state := state }
      else
        let block ← element driver.blocks op.index
        let state ← call (setting.package.mmFree driver.state block)
        return { driver with state := state }

def evalMmSpeed (setting : Setting) (trace : Trace) (driver : Driver) : Except Stop Driver := do
  let driver ← restart setting trace driver "mm_init failed in eval_mm_speed"
  trace.ops.foldlM (speedOp setting) driver

end OsPractices.Mdriver
