import Mathlib.Algebra.Group.Int.Defs
import Mathlib.Algebra.Group.Nat.Defs
import Mathlib.Logic.Function.Basic
import OsPractices.Library.Fallible

/-!
# The buddy page allocator

The functions of `buddy.c`. The static arrays are functions on subscripts, and
every access checks its subscript against the array's declared length. A
`list_t *` always points into `meta`, so it is the subscript it points at, or
`none` for `NULL`. Integer types are naturals reduced modulo their width.
-/

set_option autoImplicit false

namespace OsPractices.Buddy

def pageBits : Nat := 12
def pageSize : Nat := 2 ^ pageBits
def maxRankNum : Nat := 20
def maxPageNum : Nat := 2 ^ maxRankNum

inductive Status where
  | undef
  | unused
  | used
  deriving DecidableEq, Repr

inductive Errno where
  | einval
  | enospc
  deriving DecidableEq, Repr

def ok : Int := 0
def einval : Int := 22

/-- What C leaves undefined, and a loop that never ends. -/
inductive Fault where
  | outOfBounds
  | badShift
  | divergence
  deriving DecidableEq, Repr

structure ListT where
  status : Status
  rank : Nat
  index : Nat
  prev : Option Nat
  next : Option Nat
  deriving DecidableEq, Repr

def listInitializer : ListT := ⟨.undef, 0, 0, none, none⟩

structure State where
  basePtr : UInt64
  rankNum : Nat
  count : Nat → Nat
  bucket : Nat → Option Nat
  metaArray : Nat → ListT

/-- Static storage when the program starts. -/
def programStart : State where
  basePtr := 0
  rankNum := 0
  count := fun _ => 0
  bucket := fun _ => none
  metaArray := fun _ => listInitializer

def u8 (value : Int) : Nat := (value % 2 ^ 8).toNat
def u32 (value : Int) : Nat := (value % 2 ^ 32).toNat

/-- `value << amount` on 32 bits, defined for amounts below the width. -/
def shl (value amount : Nat) : Except Fault Nat :=
  if amount < 32 then .ok (value * 2 ^ amount % 2 ^ 32) else .error .badShift

namespace State

def getCount (state : State) (rank : Nat) : Except Fault Nat :=
  if rank ≤ maxRankNum then .ok (state.count rank) else .error .outOfBounds

def setCount (state : State) (rank value : Nat) : Except Fault State :=
  if rank ≤ maxRankNum then
    .ok { state with count := Function.update state.count rank value }
  else .error .outOfBounds

def getBucket (state : State) (rank : Nat) : Except Fault (Option Nat) :=
  if rank ≤ maxRankNum then .ok (state.bucket rank) else .error .outOfBounds

def setBucket (state : State) (rank : Nat) (list : Option Nat) : Except Fault State :=
  if rank ≤ maxRankNum then
    .ok { state with bucket := Function.update state.bucket rank list }
  else .error .outOfBounds

/-- `*META(id)` -/
def getMeta (state : State) (id : Nat) : Except Fault ListT :=
  if id < maxPageNum then .ok (state.metaArray id) else .error .outOfBounds

def setMeta (state : State) (id : Nat) (node : ListT) : Except Fault State :=
  if id < maxPageNum then
    .ok { state with metaArray := Function.update state.metaArray id node }
  else .error .outOfBounds

def modifyMeta (state : State) (id : Nat) (change : ListT → ListT) : Except Fault State := do
  let node ← state.getMeta id
  state.setMeta id (change node)

/-- An assignment through a pointer that the code has tested against `NULL`. -/
def modifyMeta? (state : State) (id : Option Nat) (change : ListT → ListT) :
    Except Fault State :=
  match id with
  | some id => state.modifyMeta id change
  | none => .ok state

end State

def listRemove (state : State) (list node : Nat) : Except Fault State := do
  let entry ← state.getMeta node
  let state ← state.modifyMeta? entry.next fun next => { next with prev := entry.prev }
  let entry ← state.getMeta node
  let state ← state.modifyMeta? entry.prev fun prev => { prev with next := entry.next }
  if (← state.getBucket list) = some node then
    let entry ← state.getMeta node
    state.setBucket list entry.next
  else
    pure state

/-- The popped node, or `none` where the macro returns `NULL` from its caller. -/
def listPop (state : State) (list : Nat) : Except Fault (Option Nat × State) := do
  match ← state.getBucket list with
  | none => pure (none, state)
  | some node =>
      let entry ← state.getMeta node
      let state ← state.modifyMeta? entry.next fun next => { next with prev := none }
      let entry ← state.getMeta node
      let state ← state.setBucket list entry.next
      pure (some node, state)

def listPush (state : State) (list node : Nat) : Except Fault State := do
  let state ← state.modifyMeta node fun entry => { entry with prev := none }
  let head ← state.getBucket list
  let state ← state.modifyMeta node fun entry => { entry with next := head }
  let state ← state.modifyMeta? head fun entry => { entry with prev := some node }
  state.setBucket list (some node)

def log2Loop : Nat → Nat → Nat → Nat
  | 0, _, ret => ret
  | fuel + 1, num, ret => if 1 < num then log2Loop fuel (num / 2) (u8 (ret + 1)) else ret

/-- `num` has 32 bits, so 32 halvings are always enough. -/
def log2 (num : Nat) : Nat :=
  if num = 0 then u8 (-1) else log2Loop 32 num 0

def root : Nat := 0
def parent (node : Nat) : Nat := u32 (node - 1) / 2
def child (node sel : Nat) : Nat := u32 (node * 2 + sel + 1)
def buddy (node : Nat) : Nat := u32 ((u32 (node - 1) ^^^ 1 : Nat) + 1)

def State.pageNum (state : State) : Except Fault Nat :=
  shl 1 (u32 (state.rankNum - 1))

def blockToPage (state : State) (block rank : Nat) : Except Fault Nat := do
  let first ← shl 1 (u32 (state.rankNum - rank))
  shl (u32 (block - first + 1)) (u32 (rank - 1))

def blockToPtr (state : State) (block rank : Nat) : Except Fault UInt64 := do
  let page ← blockToPage state block rank
  pure (state.basePtr + UInt64.ofNat (u32 (page * pageSize)))

/-- `ptr - base_ptr` as the machine computes it, a signed 64-bit integer. -/
def ptrDiff (ptr base : UInt64) : Int :=
  Int.bmod (ptr.toNat - base.toNat) (2 ^ 64)

def isValidPtr (state : State) (ptr : UInt64) : Except Fault Bool := do
  if ptr < state.basePtr then return false
  if (ptrDiff ptr state.basePtr).tmod pageSize ≠ 0 then return false
  let pageNum ← state.pageNum
  return decide ((ptrDiff ptr state.basePtr).tdiv pageSize ≤ pageNum)

def ptrToPage (state : State) (ptr : UInt64) : Nat :=
  u32 (ptrDiff ptr state.basePtr) / pageSize

def initPage (state : State) (p : UInt64) (pgcount : Int) : Except Fault (Int × State) := do
  let rankNum := u32 (log2 (u32 pgcount) + 1)
  let state := { state with basePtr := p, rankNum := rankNum }
  let state ← (List.range' 1 rankNum).foldlM (fun state i => state.setBucket i none) state
  let state ← (List.range' 1 rankNum).foldlM (fun state i => state.setCount i 0) state
  let state ← (List.range pgcount.toNat).foldlM
    (fun state i => state.setMeta i listInitializer) state
  let state ← state.modifyMeta 0 fun entry => { entry with status := .unused }
  let state ← state.modifyMeta 0 fun entry => { entry with rank := u8 rankNum }
  let state ← state.modifyMeta 0 fun entry => { entry with index := root }
  let state ← listPush state rankNum 0
  let count ← state.getCount rankNum
  let state ← state.setCount rankNum (u32 (count + 1))
  return (ok, state)

/-- The first loop of `alloc_pages`; `unused_rank` takes 256 values. -/
def findUnusedRank (state : State) : Nat → Nat → Except Fault Nat
  | 0, _ => .error .divergence
  | fuel + 1, unusedRank => do
      if unusedRank ≤ state.rankNum then
        match ← state.getBucket unusedRank with
        | some _ => pure unusedRank
        | none => findUnusedRank state fuel (u8 (unusedRank + 1))
      else
        pure unusedRank

/-- One turn of the splitting loop after its `list_pop`. -/
def splitBlock (state : State) (block splitRank : Nat) : Except Fault State := do
  let state ← state.modifyMeta block fun entry => { entry with status := .undef }
  let count ← state.getCount splitRank
  let state ← state.setCount splitRank (u32 (count - 1))
  let splitRank := u8 (splitRank - 1)
  let entry ← state.getMeta block
  let rchild := child entry.index 1
  let lchild := child entry.index 0
  let rmeta ← blockToPage state rchild splitRank
  let lmeta ← blockToPage state lchild splitRank
  let state ← state.setMeta rmeta ⟨.unused, splitRank, rchild, none, none⟩
  let state ← state.setMeta lmeta ⟨.unused, splitRank, lchild, none, none⟩
  let state ← listPush state splitRank rmeta
  let state ← listPush state splitRank lmeta
  let count ← state.getCount splitRank
  state.setCount splitRank (u32 (count + 2))

/-- The splitting loop; `false` where `list_pop` returns from `alloc_pages`. -/
def splitLoop (rank : Nat) : Nat → State → Nat → Except Fault (Bool × State)
  | 0, _, _ => .error .divergence
  | fuel + 1, state, splitRank => do
      if rank < splitRank then
        match ← listPop state splitRank with
        | (none, state) => pure (false, state)
        | (some block, state) =>
            let state ← splitBlock state block splitRank
            splitLoop rank fuel state (u8 (splitRank - 1))
      else
        pure (true, state)

/-- `(void *)-EINVAL` and `(void *)-ENOSPC` are the errors. -/
def allocPages (state : State) (rank : Int) :
    Except Fault (Except Errno UInt64 × State) := do
  if rank < 1 ∨ state.rankNum < rank then return (.error .einval, state)
  let unusedRank ← findUnusedRank state 256 (u8 rank)
  if state.rankNum < unusedRank then return (.error .enospc, state)
  let rank := rank.toNat
  match ← splitLoop rank 256 state unusedRank with
  | (false, state) => return (.ok 0, state)
  | (true, state) =>
      match ← listPop state rank with
      | (none, state) => return (.ok 0, state)
      | (some block, state) =>
          let state ← state.modifyMeta block fun entry => { entry with status := .used }
          let count ← state.getCount rank
          let state ← state.setCount rank (u32 (count - 1))
          let entry ← state.getMeta block
          let ptr ← blockToPtr state entry.index (u8 rank)
          return (.ok ptr, state)

/-- The merging loop of `return_pages`: the state, rank and index it leaves. -/
def mergeLoop : Nat → State → Nat → Nat → Except Fault (State × Nat × Nat)
  | 0, _, _, _ => .error .divergence
  | fuel + 1, state, rank, index => do
      if rank < state.rankNum then
        let node ← blockToPage state index rank
        let other ← blockToPage state (buddy index) rank
        let entry ← state.getMeta other
        if entry.rank ≠ rank ∨ entry.status ≠ .unused then
          pure (state, rank, index)
        else
          let state ← state.modifyMeta other fun entry => { entry with status := .undef }
          let state ← state.modifyMeta node fun entry => { entry with status := .undef }
          let state ← listRemove state rank other
          let count ← state.getCount rank
          let state ← state.setCount rank (u32 (count - 1))
          mergeLoop fuel state (u8 (rank + 1)) (parent index)
      else
        pure (state, rank, index)

def returnPages (state : State) (p : UInt64) : Except Fault (Int × State) := do
  if !(← isValidPtr state p) then return (-einval, state)
  let node ← state.getMeta (ptrToPage state p)
  if node.status ≠ .used then return (-einval, state)
  let (state, rank, index) ← mergeLoop 256 state node.rank node.index
  let node ← blockToPage state index rank
  let state ← state.modifyMeta node fun entry => { entry with status := .unused }
  let state ← state.modifyMeta node fun entry => { entry with rank := rank }
  let state ← state.modifyMeta node fun entry => { entry with index := index }
  let state ← listPush state rank node
  let count ← state.getCount rank
  let state ← state.setCount rank (u32 (count + 1))
  return (ok, state)

def queryRanks (state : State) (p : UInt64) : Except Fault Int := do
  if !(← isValidPtr state p) then return -einval
  let node ← state.getMeta (ptrToPage state p)
  return if node.status ≠ .undef then (node.rank : Int) else -einval

def queryPageCounts (state : State) (rank : Int) : Except Fault Int := do
  if rank < 1 ∨ state.rankNum < rank then return -einval
  let count ← state.getCount rank.toNat
  return count

end OsPractices.Buddy
