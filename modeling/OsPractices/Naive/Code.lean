import OsPractices.Malloc.Code
import OsPractices.Mdriver.Code

/-!
# The naive allocator

The functions of `mm-naive.c`, over the heap of `memlib.c`: a block is cut from
the end of the heap behind a word that holds its size, and is never used again.
-/

set_option autoImplicit false

namespace OsPractices.Naive

open Library
open Library.Memory (CopyDirection)
open Malloc (Fault State null u64 offsetT memSbrk memcpy)

/-- `SIZE_T_SIZE` -/
def sizeTSize : Nat := Malloc.align 8

/-- `SIZE_PTR` -/
def sizePtr (ptr : Nat) : Nat := u64 (ptr - sizeTSize)

def getSize (state : State) (ptr : Nat) : Except Fault Nat :=
  if state.Contains (sizePtr ptr) sizeTSize then .ok (state.mem.load64 (sizePtr ptr))
  else .error .segv

def setSize (state : State) (ptr value : Nat) : Except Fault State :=
  if state.Contains (sizePtr ptr) sizeTSize then
    .ok { state with mem := state.mem.store64 (sizePtr ptr) value }
  else .error .segv

def mmInit (state : State) : Except Fault (Int × State) := .ok (0, state)

/-- The end of `malloc`, with what `mem_sbrk` has returned. -/
def mallocAt (p : Nat) (state : State) (size : Nat) : Except Fault (Nat × State) := do
  -- `(long)p < 0`
  if 2 ^ 63 ≤ p then return (null, state)
  else
    let p := u64 (p + sizeTSize)
    let state ← setSize state p size
    return (p, state)

def malloc (state : State) (size : Nat) : Except Fault (Nat × State) :=
  let newsize := offsetT (Malloc.align (u64 (size + sizeTSize)))
  let granted := memSbrk state newsize
  mallocAt granted.1 granted.2 size

/-- The call is ignored. -/
def free (state : State) (_ : Nat) : Except Fault State := .ok state

def realloc (direction : CopyDirection) (state : State) (oldptr size : Nat) :
    Except Fault (Nat × State) := do
  if size = 0 then
    let state ← free state oldptr
    return (null, state)
  if oldptr = null then malloc state size
  else
    let (newptr, state) ← malloc state size
    if newptr = null then return (null, state)
    else
      let oldsize ← getSize state oldptr
      let oldsize := if size < oldsize then size else oldsize
      let state ← memcpy direction state newptr oldptr oldsize
      let state ← free state oldptr
      return (newptr, state)

def mmCheckheap (_ : State) : Except Fault Unit := .ok ()

/-- `mm-naive.c` as the package that is linked with the driver. -/
def naive (direction : CopyDirection) : Mdriver.Package where
  mmInit := mmInit
  mmMalloc := malloc
  mmFree := free
  mmRealloc := realloc direction
  mmCheckheap := mmCheckheap

end OsPractices.Naive
