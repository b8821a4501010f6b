import OsPractices.Malloc.Code

/-!
# The implicit-list allocator

The functions of `mm-basic.c`, over the same simulated heap as those of
`mm-advance.c`. A tag is a `size_t`, and a block is found from the one before
it through the size in its header. Sizes pass through variables of type `int`
in several places.
-/

set_option autoImplicit false

namespace OsPractices.ImplicitList

open Library
open Library.Memory (CopyDirection)
open Malloc (State Fault maxHeap null u64 offsetT align memSbrk memcpy unzipSize unzipStat used
  unused border)

def sizeTSize : Nat := 8

def minBlkSize : Nat := 2 * sizeTSize

/-- `GET` -/
def get (state : State) (ptr : Nat) : Except Fault Nat :=
  if state.Contains ptr sizeTSize then .ok (state.mem.load64 ptr) else .error .segv

/-- `SET` -/
def set (state : State) (ptr value : Nat) : Except Fault State :=
  if state.Contains ptr sizeTSize then .ok { state with mem := state.mem.store64 ptr value }
  else .error .segv

/-- Pointer arithmetic on 64 bits. -/
def ptrAdd (ptr : Nat) (offset : Int) : Nat := u64 (ptr + offset)

/-- `ZIP` of an `int` or a `size_t`, converted to a `size_t`. -/
def zip (size : Int) (status : Nat) : Nat := u64 (size / 8 * 8 + status % 8)

def hdrPtr (ptr : Nat) : Nat := ptrAdd ptr (-sizeTSize)

/-- `SIZE` -/
def size (state : State) (ptr : Nat) : Except Fault Nat := do
  let tag ← get state (hdrPtr ptr)
  pure (unzipSize tag)

/-- `STAT` -/
def stat (state : State) (ptr : Nat) : Except Fault Nat := do
  let tag ← get state (hdrPtr ptr)
  pure (unzipStat tag)

def ftrPtr (state : State) (ptr : Nat) : Except Fault Nat := do
  let size ← size state ptr
  pure (ptrAdd ptr (size - sizeTSize * 2))

def nextPtr (state : State) (ptr : Nat) : Except Fault Nat := do
  let size ← size state ptr
  pure (ptrAdd ptr size)

def nextStat (state : State) (ptr : Nat) : Except Fault Nat := do
  stat state (← nextPtr state ptr)

/-- The footer before a block. -/
def prevTag (state : State) (ptr : Nat) : Except Fault Nat :=
  get state (ptrAdd ptr (-sizeTSize * 2))

def prevSize (state : State) (ptr : Nat) : Except Fault Nat := do
  let tag ← prevTag state ptr
  pure (unzipSize tag)

def prevStat (state : State) (ptr : Nat) : Except Fault Nat := do
  let tag ← prevTag state ptr
  pure (unzipStat tag)

def prevPtr (state : State) (ptr : Nat) : Except Fault Nat := do
  let size ← prevSize state ptr
  pure (ptrAdd ptr (-size))

/-- `block_list`, which `mm_init` sets together with `heap_base`. -/
def blockList (state : State) : Nat := ptrAdd state.heapBase (align sizeTSize)

/-- `SET(HDR_PTR(ptr), ZIP(size, status)); SET(FTR_PTR(ptr), ZIP(size, status));` -/
def setTags (state : State) (ptr : Nat) (size : Int) (status : Nat) : Except Fault State := do
  let state ← set state (hdrPtr ptr) (zip size status)
  set state (← ftrPtr state ptr) (zip size status)

def split (state : State) (ptr : Nat) (size : Int) : Except Fault State := do
  let orgSize := offsetT (← ImplicitList.size state ptr)
  let state ← setTags state ptr size unused
  let ptr ← nextPtr state ptr
  setTags state ptr (offsetT (orgSize - size)) unused

/-- Joins a block with the one before it. -/
def coalesce (state : State) (ptr : Nat) : Except Fault State := do
  let size := offsetT ((← size state ptr) + (← prevSize state ptr))
  let ptr ← prevPtr state ptr
  setTags state ptr size unused

def mmInit (state : State) : Except Fault (Int × State) := do
  let (heapBase, state) := memSbrk state (align (2 * sizeTSize))
  let state := { state with heapBase := heapBase }
  let state ← set state state.heapBase (zip 0 border)
  let state ← set state (blockList state) (zip 0 border)
  return (0, state)

/-- The size of the block for a request. -/
def blockSize (bytes : Nat) : Nat := align (u64 (bytes + 2 * sizeTSize))

/-- The loop of `malloc`: where it stops, and whether at a block that is to be
used. Each turn starts at a header inside the mapped region, so a scan of more
than `maxHeap` turns has come back to a pointer it has seen and never ends. -/
def scan (state : State) (size : Nat) : Nat → Nat → Except Fault (Nat × Bool)
  | 0, _ => .error .divergence
  | fuel + 1, ptr => do
      if (← stat state ptr) ≠ border then
        if (← stat state ptr) = unused ∧ size < (← ImplicitList.size state ptr) then
          pure (ptr, true)
        else scan state size fuel (← nextPtr state ptr)
      else pure (ptr, false)

/-- `malloc` at a free block that is large enough. -/
def mallocReuse (state : State) (ptr size : Nat) : Except Fault (Nat × State) := do
  let found ← ImplicitList.size state ptr
  if u64 (size + minBlkSize) < found then
    let state ← split state ptr (offsetT size)
    return (ptr, state)
  else
    let state ← setTags state ptr found used
    return (ptr, state)

/-- `malloc` at the end of the blocks. The answer of `mem_sbrk` is compared with
zero as a pointer and is not looked at again. -/
def mallocExtend (state : State) (ptr size : Nat) : Except Fault (Nat × State) := do
  let (granted, state) := memSbrk state (offsetT size)
  if granted < 0 then return (null, state)
  let state ← setTags state ptr size used
  let state ← set state (← nextPtr state ptr) (zip 0 border)
  return (ptr, state)

def malloc (state : State) (bytes : Nat) : Except Fault (Nat × State) := do
  if bytes = 0 then return (null, state)
  let (ptr, found) ← scan state (blockSize bytes) maxHeap (blockList state)
  if found then mallocReuse state ptr (blockSize bytes)
  else mallocExtend state ptr (blockSize bytes)

def free (state : State) (ptr : Nat) : Except Fault State := do
  if (← prevStat state ptr) = unused then coalesce state ptr
  else
    let size := offsetT (← size state ptr)
    setTags state ptr size unused

/-- `if (NEXT_STAT(oldptr) == UNUSED) coalesce(NEXT_PTR(oldptr));` -/
def absorbNext (state : State) (oldptr : Nat) : Except Fault State := do
  if (← nextStat state oldptr) = unused then coalesce state (← nextPtr state oldptr)
  else pure state

/-- The branch of `realloc` for a block that is large enough. Its last stores
take the size for the pointer. -/
def reallocShrink (state : State) (oldptr oldsize size : Nat) : Except Fault (Nat × State) := do
  if u64 (size + minBlkSize) < oldsize then
    let state ← split state oldptr (offsetT size)
    return (oldptr, state)
  else
    let state ← setTags state oldsize oldsize used
    return (oldptr, state)

/-- The branch of `realloc` that moves the block. -/
def reallocMove (direction : CopyDirection) (state : State) (oldptr orgsize : Nat) :
    Except Fault (Nat × State) := do
  let (newptr, state) ← malloc state orgsize
  let state ← memcpy direction state newptr oldptr orgsize
  let state ← free state oldptr
  return (newptr, state)

def realloc (direction : CopyDirection) (state : State) (oldptr bytes : Nat) :
    Except Fault (Nat × State) := do
  if bytes = 0 then
    let state ← free state oldptr
    return (null, state)
  if oldptr = null then malloc state bytes
  else
    let orgsize := offsetT bytes
    let state ← absorbNext state oldptr
    let oldsize := u64 (offsetT (← size state oldptr))
    if blockSize bytes ≤ oldsize then reallocShrink state oldptr oldsize (blockSize bytes)
    else reallocMove direction state oldptr (u64 orgsize)

end OsPractices.ImplicitList
