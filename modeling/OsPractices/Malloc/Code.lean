import OsPractices.Library.ByteMemory
import OsPractices.Library.Fallible

/-!
# The segregated-list allocator

The functions of `mm-advance.c` over the simulated heap of `memlib.c`. A
pointer is a 64-bit address; every load and store of the allocator checks that
it falls into the region mapped by `mem_init`. Integer types are naturals
reduced modulo their width. Bytes outside the region have arbitrary values.
-/

set_option autoImplicit false

namespace OsPractices.Malloc

open Library
open Library.Memory (CopyDirection)

/-- `MAX_HEAP` -/
def maxHeap : Nat := 100 * 2 ^ 20

inductive Fault where
  | segv
  | assertion
  | divergence
  deriving DecidableEq, Repr

/-- The static variables of `memlib.c` and `mm-advance.c`, and the memory. -/
structure State where
  heap : Nat
  memBrk : Nat
  memMaxAddr : Nat
  heapBase : Nat
  mem : Memory

def null : Nat := 0

/-- `(void *)-1` -/
def sbrkFailed : Nat := 2 ^ 64 - 1

def u32 (value : Int) : Nat := (value % 2 ^ 32).toNat
def u64 (value : Int) : Nat := (value % 2 ^ 64).toNat

/-- `(offset_t)(value)`, a signed 32-bit integer. -/
def offsetT (value : Int) : Int := Int.bmod value (2 ^ 32)

/-! ## memlib.c -/

/-- What `mem_init` leaves when `mmap` returns `region`. -/
def memInit (region : Nat) (mem : Memory) : State where
  heap := region
  memBrk := region
  memMaxAddr := region + maxHeap
  heapBase := null
  mem := mem

def memResetBrk (state : State) : State := { state with memBrk := state.heap }

def memSbrk (state : State) (incr : Int) : Nat × State :=
  if incr < 0 ∨ state.memMaxAddr < state.memBrk + incr then (sbrkFailed, state)
  else (state.memBrk, { state with memBrk := state.memBrk + incr.toNat })

def memHeapHi (state : State) : Nat := u64 (state.memBrk - 1)

/-! ## Words and pointers -/

/-- The bytes from `ptr` to `ptr + length` belong to the mapped region. -/
def State.Contains (state : State) (ptr length : Nat) : Prop :=
  state.heap ≤ ptr ∧ ptr + length ≤ state.heap + maxHeap

instance (state : State) (ptr length : Nat) : Decidable (state.Contains ptr length) :=
  inferInstanceAs (Decidable (_ ∧ _))

def wordSize : Nat := 4
def alignment : Nat := 8

/-- `ALIGN` on 64 bits -/
def align (size : Nat) : Nat := u64 (size + (alignment - 1)) / 8 * 8

def State.get (state : State) (ptr : Nat) : Except Fault Nat :=
  if state.Contains ptr wordSize then .ok (state.mem.load32 ptr) else .error .segv

def State.set (state : State) (ptr value : Nat) : Except Fault State :=
  if state.Contains ptr wordSize then .ok { state with mem := state.mem.store32 ptr value }
  else .error .segv

/-- `PTR_DIFF`, a `word_t` -/
def ptrDiff (ptr base : Nat) : Nat := u32 (ptr - base)

def ptrIncr (ptr : Nat) (offset : Int) : Nat := u64 (ptr + offsetT offset)

/-- `ZIP`: the lowest three bits are the status, the others the size. -/
def zip (size status : Nat) : Nat := size / 8 * 8 + status % 8

def unzipSize (word : Nat) : Nat := word / 8 * 8
def unzipStat (word : Nat) : Nat := word % 8

def undef : Nat := 0
def used : Nat := 1
def unused : Nat := 2
def border : Nat := 3

def metaSize : Nat := 4 * wordSize

def hdrPtr (ptr : Nat) : Nat := ptrIncr ptr (-2 * wordSize)
def nexPtr (ptr : Nat) : Nat := ptrIncr ptr (-wordSize)

namespace State

/-- `SIZE` -/
def size (state : State) (ptr : Nat) : Except Fault Nat := do
  let word ← state.get (hdrPtr ptr)
  pure (unzipSize word)

/-- `STAT` -/
def stat (state : State) (ptr : Nat) : Except Fault Nat := do
  let word ← state.get (hdrPtr ptr)
  pure (unzipStat word)

def ftrPtr (state : State) (ptr : Nat) : Except Fault Nat := do
  let size ← state.size ptr
  pure (ptrIncr ptr (size - 4 * wordSize))

def prePtr (state : State) (ptr : Nat) : Except Fault Nat := do
  let size ← state.size ptr
  pure (ptrIncr ptr (size - 3 * wordSize))

def listNext (state : State) (ptr : Nat) : Except Fault Nat := do
  let word ← state.get (nexPtr ptr)
  pure (ptrIncr state.heapBase word)

def listPrev (state : State) (ptr : Nat) : Except Fault Nat := do
  let field ← state.prePtr ptr
  let word ← state.get field
  pure (ptrIncr state.heapBase word)

def heapNext (state : State) (ptr : Nat) : Except Fault Nat := do
  let size ← state.size ptr
  pure (ptrIncr ptr size)

def heapPrev (state : State) (ptr : Nat) : Except Fault Nat := do
  let word ← state.get (ptrIncr ptr (-4 * wordSize))
  pure (ptrIncr ptr (u32 (-(unzipSize word))))

end State

/-! ## Ranks -/

def minBlkBits : Nat := 8
def maxBlkBits : Nat := 10
def stpBlkBits : Nat := 1
def rankNum : Nat := (maxBlkBits - minBlkBits) / stpBlkBits + 1

def getRank (size : Nat) : Nat :=
  match (List.range' minBlkBits (maxBlkBits - minBlkBits) stpBlkBits).find? (size ≤ 2 ^ ·) with
  | some i => (i - minBlkBits) / stpBlkBits
  | none => (maxBlkBits - minBlkBits) / stpBlkBits

def bdrOff : Nat := align ((rankNum + 2) * wordSize)

def proBdrPtr (state : State) : Nat := ptrIncr state.heapBase bdrOff
def epiBdrPtr (state : State) : Nat := ptrIncr (memHeapHi state) 1
def buck (state : State) (rank : Nat) : Nat := ptrIncr state.heapBase (rank * wordSize)

/-- `LIST` -/
def list (state : State) (rank : Nat) : Except Fault Nat := do
  let word ← state.get (buck state rank)
  pure (ptrIncr state.heapBase word)

/-! ## Lists -/

def listInit (state : State) (ptr : Nat) : Except Fault State := do
  let state ← state.set (nexPtr ptr) bdrOff
  state.set (← state.prePtr ptr) bdrOff

/-- `if (STAT(ptr) != BORDER) SET(NEX_PTR(ptr), link);` -/
def linkNext (state : State) (ptr link : Nat) : Except Fault State := do
  if (← state.stat ptr) ≠ border then state.set (nexPtr ptr) link else pure state

/-- `if (STAT(ptr) != BORDER) SET(PRE_PTR(ptr), link);` -/
def linkPrev (state : State) (ptr link : Nat) : Except Fault State := do
  if (← state.stat ptr) ≠ border then state.set (← state.prePtr ptr) link else pure state

def listRemove (state : State) (entry rank : Nat) : Except Fault State := do
  let prev ← state.listPrev entry
  let next ← state.listNext entry
  let state ← linkNext state prev (ptrDiff next state.heapBase)
  let state ← linkPrev state next (ptrDiff prev state.heapBase)
  if entry = (← list state rank) then
    state.set (buck state rank) (ptrDiff next state.heapBase)
  else pure state

def listPush (state : State) (entry rank : Nat) : Except Fault State := do
  let list ← list state rank
  let state ← linkPrev state list (ptrDiff entry state.heapBase)
  let state ← state.set (nexPtr entry) (ptrDiff list state.heapBase)
  let state ← state.set (← state.prePtr entry) bdrOff
  state.set (buck state rank) (ptrDiff entry state.heapBase)

/-! ## Blocks -/

/-- `SET(HDR_PTR(ptr), ZIP(size, status)); SET(FTR_PTR(ptr), ZIP(size, status));` -/
def setTags (state : State) (ptr size status : Nat) : Except Fault State := do
  let state ← state.set (hdrPtr ptr) (zip size status)
  state.set (← state.ftrPtr ptr) (zip size status)

/-- `assert(STAT(ptr) == status)` -/
def assertStat (state : State) (ptr status : Nat) : Except Fault Unit := do
  if (← state.stat ptr) = status then pure () else throw .assertion

def extend (state : State) (size : Nat) : Except Fault (Nat × State) := do
  let (ptr, state) := memSbrk state (offsetT size)
  if ptr = null then return (null, state)
  let state ← state.set (hdrPtr (epiBdrPtr state)) (zip 0 border)
  return (ptr, state)

def split (state : State) (ptr size : Nat) : Except Fault State := do
  let orgsize ← state.size ptr
  let newptr := u64 (ptr + size)
  let state ← setTags state newptr (u32 (orgsize - size)) unused
  let state ← listPush state newptr (getRank (u32 (orgsize - size)))
  assertStat state newptr unused
  return state

def coalesce (state : State) (predPtr succPtr : Nat) (sel : Bool) : Except Fault State := do
  let succSize ← state.size succPtr
  let predSize ← state.size predPtr
  let state ← (if sel then do
      let state ← listRemove state succPtr (getRank succSize)
      listRemove state predPtr (getRank predSize)
    else pure state)
  let size := u32 (predSize + succSize)
  let state ← setTags state predPtr size unused
  let state ← listPush state predPtr (getRank size)
  assertStat state predPtr unused
  return state

def place (state : State) (ptr size : Nat) (sel : Bool) : Except Fault State := do
  let orgsize ← state.size ptr
  let state ← (if sel then pure state else listRemove state ptr (getRank orgsize))
  if metaSize < u32 (orgsize - size) then
    let state ← split state ptr size
    setTags state ptr size used
  else
    setTags state ptr orgsize used

/-- The search loop of `find_fit`. Each turn starts at a header inside the
mapped region, so a search of more than `maxHeap` turns has come back to a
pointer it has seen and never ends. -/
def findFitLoop (state : State) (size : Nat) : Nat → Nat → Except Fault Nat
  | 0, _ => .error .divergence
  | fuel + 1, ptr => do
      if (← state.stat ptr) ≠ border then
        if size ≤ (← state.size ptr) then pure ptr
        else findFitLoop state size fuel (← state.listNext ptr)
      else pure null

def findFit (state : State) (size rank : Nat) : Except Fault Nat := do
  findFitLoop state size maxHeap (← list state rank)

/-- The `do while` loop of `malloc`: the pointer and rank it ends with. -/
def fitLoop (state : State) (size : Nat) : Nat → Nat → Except Fault (Nat × Nat)
  | 0, _ => .error .divergence
  | fuel + 1, rank => do
      let ptr ← findFit state size rank
      if ptr = null then
        if rank + stpBlkBits < rankNum then fitLoop state size fuel (rank + stpBlkBits)
        else pure (ptr, rank + stpBlkBits)
      else pure (ptr, rank)

/-! ## The package -/

def mmInit (state : State) : Except Fault (Int × State) := do
  let size := bdrOff + 2 * wordSize
  let (heapBase, state) := memSbrk state size
  let state := { state with heapBase := heapBase }
  if state.heapBase = null then return (-1, state)
  let state ← (List.range rankNum).foldlM
    (fun state i => state.set (buck state i) bdrOff) state
  let state ← state.set (hdrPtr (proBdrPtr state)) (zip (2 * wordSize) border)
  let state ← state.set (hdrPtr (epiBdrPtr state)) (zip 0 border)
  return (0, state)

/-- The branch of `malloc` for which no free block fits. -/
def mallocExtend (state : State) (size : Nat) : Except Fault (Nat × State) := do
  let (ptr, state) ← extend state (u32 size)
  if ptr = null then return (null, state)
  let state ← setTags state ptr size used
  let state ← listInit state ptr
  assertStat state ptr used
  return (ptr, state)

def malloc (state : State) (size : Nat) : Except Fault (Nat × State) := do
  if size = 0 then return (null, state)
  let size := align (u64 (size + metaSize))
  let rank := getRank (u32 size)
  let (ptr, rank) ← fitLoop state (u32 size) rankNum rank
  if ptr = null then mallocExtend state size
  else
    let state ← listRemove state ptr rank
    let state ← place state ptr (u32 size) true
    assertStat state ptr used
    return (ptr, state)

def free (state : State) (ptr : Nat) : Except Fault State := do
  if ptr = null then return state
  if (← state.stat ptr) ≠ used then return state
  let size ← state.size ptr
  let state ← listPush state ptr (getRank size)
  let state ← setTags state ptr size unused
  assertStat state ptr unused
  let prev ← state.heapPrev ptr
  let next ← state.heapNext ptr
  let state ← (if (← state.stat next) = unused then coalesce state ptr next true else pure state)
  if (← state.stat prev) = unused then coalesce state prev ptr true else pure state

/-- A byte-by-byte copy in either direction. Its loads are not checked. -/
def memcpy (direction : CopyDirection) (state : State) (target source length : Nat) :
    Except Fault State :=
  if length = 0 ∨ state.Contains target length then
    .ok { state with mem := state.mem.copy direction target source length }
  else .error .segv

def memset (state : State) (target : Nat) (byte : UInt8) (length : Nat) : Except Fault State :=
  if length = 0 ∨ state.Contains target length then
    .ok { state with mem := state.mem.fill target byte length }
  else .error .segv

/-- The branch of `realloc` that moves the block. -/
def reallocMove (direction : CopyDirection) (state : State) (oldptr orgsize : Nat) :
    Except Fault (Nat × State) := do
  let (newptr, state) ← malloc state orgsize
  let state ← memcpy direction state newptr oldptr orgsize
  let state ← free state oldptr
  return (newptr, state)

def realloc (direction : CopyDirection) (state : State) (oldptr size : Nat) :
    Except Fault (Nat × State) := do
  if size = 0 then
    let state ← free state oldptr
    return (null, state)
  if oldptr = null then malloc state size
  else
    let orgsize := u32 size
    let oldsize ← state.size oldptr
    let size := align (u64 (size + metaSize))
    if size ≤ oldsize then return (oldptr, state)
    let next ← state.heapNext oldptr
    if (← state.stat next) = unused then
      let nexsize ← state.size next
      if size ≤ u32 (oldsize + nexsize) then
        let state ← listRemove state next (getRank nexsize)
        let state ← coalesce state oldptr next false
        let state ← place state oldptr (u32 size) false
        return (oldptr, state)
      else reallocMove direction state oldptr orgsize
    else reallocMove direction state oldptr orgsize

def calloc (state : State) (nmemb size : Nat) : Except Fault (Nat × State) := do
  let bytes := u64 (nmemb * size)
  let (newptr, state) ← malloc state bytes
  let state ← memset state newptr 0 bytes
  return (newptr, state)

/-! ## The walks of `mm_checkheap` -/

/-- The blocks from `ptr` up to the first one with status `BORDER`, and the
pointer to that one. -/
def heapWalk (state : State) : Nat → Nat → Except Fault (List Nat × Nat)
  | 0, _ => .error .divergence
  | fuel + 1, ptr => do
      if (← state.stat ptr) ≠ border then
        let (ptrs, last) ← heapWalk state fuel (← state.heapNext ptr)
        pure (ptr :: ptrs, last)
      else pure ([], ptr)

def listWalk (state : State) : Nat → Nat → Except Fault (List Nat)
  | 0, _ => .error .divergence
  | fuel + 1, ptr => do
      if (← state.stat ptr) ≠ border then
        let ptrs ← listWalk state fuel (← state.listNext ptr)
        pure (ptr :: ptrs)
      else pure []

/-- The block after the prologue. -/
def firstBlock (state : State) : Nat := ptrIncr (proBdrPtr state) (2 * wordSize)

end OsPractices.Malloc
