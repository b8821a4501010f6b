import OsPractices.Buddy.Session

/-!
# The code with its arithmetic checked

The same functions with `block_to_page`, `CHILD`, `BUDDY` and the byte offset of
`block_to_ptr` compared with their exact values: a difference is a trap. The
array subscripts are checked in either version.
-/

set_option autoImplicit false

namespace OsPractices.Buddy

open Library

inductive Trap where
  | fault (fault : Fault)
  | inexact
  deriving DecidableEq, Repr

instance : MonadLift (Except Fault) (Except Trap) where
  monadLift computation := computation.mapError .fault

/-- A result that has to be exact. -/
def exactly (value : Nat) (exact : Int) : Except Trap Nat :=
  if (value : Int) = exact then .ok value else .error .inexact

def childChecked (node sel : Nat) : Except Trap Nat :=
  exactly (child node sel) (node * 2 + sel + 1)

/-- `((node - 1) ^ 1) + 1` exchanges `2 * k + 1` and `2 * k + 2`. -/
def buddyChecked (node : Nat) : Except Trap Nat :=
  exactly (buddy node) (if node % 2 = 1 then (node : Int) + 1 else (node : Int) - 1)

def blockToPageChecked (state : State) (block rank : Nat) : Except Trap Nat := do
  let page ← blockToPage state block rank
  exactly page (((block : Int) - 2 ^ (state.rankNum - rank) + 1) * 2 ^ (rank - 1))

def blockToPtrChecked (state : State) (block rank : Nat) : Except Trap UInt64 := do
  let page ← blockToPageChecked state block rank
  let bytes ← exactly (u32 (page * pageSize)) (page * pageSize)
  pure (state.basePtr + UInt64.ofNat bytes)

def splitBlockChecked (state : State) (block splitRank : Nat) : Except Trap State := do
  let state ← state.modifyMeta block fun entry => { entry with status := .undef }
  let count ← state.getCount splitRank
  let state ← state.setCount splitRank (u32 (count - 1))
  let splitRank := u8 (splitRank - 1)
  let entry ← state.getMeta block
  let rchild ← childChecked entry.index 1
  let lchild ← childChecked entry.index 0
  let rmeta ← blockToPageChecked state rchild splitRank
  let lmeta ← blockToPageChecked state lchild splitRank
  let state ← state.setMeta rmeta ⟨.unused, splitRank, rchild, none, none⟩
  let state ← state.setMeta lmeta ⟨.unused, splitRank, lchild, none, none⟩
  let state ← listPush state splitRank rmeta
  let state ← listPush state splitRank lmeta
  let count ← state.getCount splitRank
  state.setCount splitRank (u32 (count + 2))

def splitLoopChecked (rank : Nat) : Nat → State → Nat → Except Trap (Bool × State)
  | 0, _, _ => .error (.fault .divergence)
  | fuel + 1, state, splitRank => do
      if rank < splitRank then
        match ← listPop state splitRank with
        | (none, state) => pure (false, state)
        | (some block, state) =>
            let state ← splitBlockChecked state block splitRank
            splitLoopChecked rank fuel state (u8 (splitRank - 1))
      else
        pure (true, state)

def allocPagesChecked (state : State) (rank : Int) :
    Except Trap (Except Errno UInt64 × State) := do
  if rank < 1 ∨ state.rankNum < rank then return (.error .einval, state)
  let unusedRank ← findUnusedRank state 256 (u8 rank)
  if state.rankNum < unusedRank then return (.error .enospc, state)
  let rank := rank.toNat
  match ← splitLoopChecked rank 256 state unusedRank with
  | (false, state) => return (.ok 0, state)
  | (true, state) =>
      match ← listPop state rank with
      | (none, state) => return (.ok 0, state)
      | (some block, state) =>
          let state ← state.modifyMeta block fun entry => { entry with status := .used }
          let count ← state.getCount rank
          let state ← state.setCount rank (u32 (count - 1))
          let entry ← state.getMeta block
          let ptr ← blockToPtrChecked state entry.index (u8 rank)
          return (.ok ptr, state)

def mergeLoopChecked : Nat → State → Nat → Nat → Except Trap (State × Nat × Nat)
  | 0, _, _, _ => .error (.fault .divergence)
  | fuel + 1, state, rank, index => do
      if rank < state.rankNum then
        let node ← blockToPageChecked state index rank
        let buddyIndex ← buddyChecked index
        let other ← blockToPageChecked state buddyIndex rank
        let entry ← state.getMeta other
        if entry.rank ≠ rank ∨ entry.status ≠ .unused then
          pure (state, rank, index)
        else
          let state ← state.modifyMeta other fun entry => { entry with status := .undef }
          let state ← state.modifyMeta node fun entry => { entry with status := .undef }
          let state ← listRemove state rank other
          let count ← state.getCount rank
          let state ← state.setCount rank (u32 (count - 1))
          mergeLoopChecked fuel state (u8 (rank + 1)) (parent index)
      else
        pure (state, rank, index)

def returnPagesChecked (state : State) (p : UInt64) : Except Trap (Int × State) := do
  if !(← isValidPtr state p) then return (-einval, state)
  let node ← state.getMeta (ptrToPage state p)
  if node.status ≠ .used then return (-einval, state)
  let (state, rank, index) ← mergeLoopChecked 256 state node.rank node.index
  let node ← blockToPageChecked state index rank
  let state ← state.modifyMeta node fun entry => { entry with status := .unused }
  let state ← state.modifyMeta node fun entry => { entry with rank := rank }
  let state ← state.modifyMeta node fun entry => { entry with index := index }
  let state ← listPush state rank node
  let count ← state.getCount rank
  let state ← state.setCount rank (u32 (count + 1))
  return (ok, state)

/-- The queries have no such arithmetic. -/
def execChecked (state : State) : Call → Except Trap (Reply × State)
  | .allocPages rank => do
      match ← allocPagesChecked state rank with
      | (.ok ptr, state) => pure (.pages ptr, state)
      | (.error errno, state) => pure (.failure errno, state)
  | .returnPages p => do
      let (value, state) ← returnPagesChecked state p
      pure (.status value, state)
  | .queryRanks p => exec state (.queryRanks p)
  | .queryPageCounts rank => exec state (.queryPageCounts rank)

def runChecked (state : State) : List Call → Except Trap (List Reply × State)
  | [] => pure ([], state)
  | call :: calls => do
      let (reply, state) ← execChecked state call
      let (replies, state) ← runChecked state calls
      pure (reply :: replies, state)

def runCheckedFrom (state : State) (p : UInt64) (pgcount : Int) (calls : List Call) :
    Except Trap (List Reply × State) := do
  let (_, state) ← initPage state p pgcount
  runChecked state calls

/-! ## Lifting -/

section

variable {Value Result : Type}

@[simp] theorem lift_ok (value : Value) :
    (liftM (Except.ok value : Except Fault Value) : Except Trap Value) = .ok value := rfl

@[simp] theorem lift_error (fault : Fault) :
    (liftM (Except.error fault : Except Fault Value) : Except Trap Value) =
      .error (.fault fault) := rfl

theorem lift_bind (source : Except Fault Value) (continuation : Value → Except Fault Result) :
    (liftM (source >>= continuation) : Except Trap Result) =
      (liftM source : Except Trap Value) >>= fun value => liftM (continuation value) := by
  cases source with
  | error fault => rfl
  | ok value => rfl

end

end OsPractices.Buddy
