import OsPractices.Library.LinkedList
import OsPractices.Buddy.Code

/-!
# The bucket lists in memory

The list macros edit the pointer fields of records that also carry a status, a
rank and a tree index. Here the two are taken apart: `links` is one bucket's
list, `label` is the rest of a record, and every macro is an operation of the
list library on the one and leaves the other alone.
-/

set_option autoImplicit false

namespace OsPractices.Buddy

open Library

namespace State

def links (state : State) (list : Nat) : Links Nat where
  head := state.bucket list
  next := fun id => (state.metaArray id).next
  prev := fun id => (state.metaArray id).prev

/-- Status, rank and tree index of a record. -/
def label (state : State) (id : Nat) : Status × Nat × Nat :=
  ((state.metaArray id).status, (state.metaArray id).rank, (state.metaArray id).index)

/-- The state with other pointers, and another head for one bucket. -/
def withLinks (state : State) (list : Nat) (links : Links Nat) : State :=
  { state with
    bucket := Function.update state.bucket list links.head
    metaArray := fun id =>
      { state.metaArray id with prev := links.prev id, next := links.next id } }

@[simp] theorem links_withLinks (state : State) (list : Nat) (links : Links Nat) :
    (state.withLinks list links).links list = links := by
  simp [State.links, State.withLinks]

@[simp] theorem label_withLinks (state : State) (list : Nat) (links : Links Nat) (id : Nat) :
    (state.withLinks list links).label id = state.label id := rfl

@[simp] theorem count_withLinks (state : State) (list : Nat) (links : Links Nat) :
    (state.withLinks list links).count = state.count := rfl

@[simp] theorem rankNum_withLinks (state : State) (list : Nat) (links : Links Nat) :
    (state.withLinks list links).rankNum = state.rankNum := rfl

@[simp] theorem basePtr_withLinks (state : State) (list : Nat) (links : Links Nat) :
    (state.withLinks list links).basePtr = state.basePtr := rfl

theorem bucket_withLinks_of_ne (state : State) {list other : Nat} (links : Links Nat)
    (different : other ≠ list) :
    (state.withLinks list links).bucket other = state.bucket other := by
  simp [State.withLinks, different]

theorem eq_withLinks {state next : State} {list : Nat} {links : Links Nat}
    (basePtr : next.basePtr = state.basePtr) (rankNum : next.rankNum = state.rankNum)
    (count : next.count = state.count)
    (bucket : next.bucket = Function.update state.bucket list links.head)
    (metaArray : ∀ id, next.metaArray id =
      { state.metaArray id with prev := links.prev id, next := links.next id }) :
    next = state.withLinks list links := by
  cases next
  cases basePtr
  cases rankNum
  cases count
  cases bucket
  cases (funext metaArray)
  rfl

/-! ## Accesses within bounds -/

theorem getBucket_eq (state : State) {rank : Nat} (bound : rank ≤ maxRankNum) :
    state.getBucket rank = .ok (state.bucket rank) := by
  simp [getBucket, bound]

theorem setBucket_eq (state : State) {rank : Nat} (bound : rank ≤ maxRankNum)
    (list : Option Nat) :
    state.setBucket rank list =
      .ok { state with bucket := Function.update state.bucket rank list } := by
  simp [setBucket, bound]

theorem getCount_eq (state : State) {rank : Nat} (bound : rank ≤ maxRankNum) :
    state.getCount rank = .ok (state.count rank) := by
  simp [getCount, bound]

theorem setCount_eq (state : State) {rank : Nat} (bound : rank ≤ maxRankNum) (value : Nat) :
    state.setCount rank value =
      .ok { state with count := Function.update state.count rank value } := by
  simp [setCount, bound]

theorem getMeta_eq (state : State) {id : Nat} (bound : id < maxPageNum) :
    state.getMeta id = .ok (state.metaArray id) := by
  simp [getMeta, bound]

theorem setMeta_eq (state : State) {id : Nat} (bound : id < maxPageNum) (node : ListT) :
    state.setMeta id node =
      .ok { state with metaArray := Function.update state.metaArray id node } := by
  simp [setMeta, bound]

theorem modifyMeta_eq (state : State) {id : Nat} (bound : id < maxPageNum)
    (change : ListT → ListT) :
    state.modifyMeta id change =
      .ok { state with
        metaArray := Function.update state.metaArray id (change (state.metaArray id)) } := by
  simp [modifyMeta, getMeta_eq state bound, setMeta_eq state bound]

/-- The effect of an assignment through a pointer that may be null. -/
def setAt (state : State) (target : Option Nat) (change : ListT → ListT) : State :=
  { state with
    metaArray := fun id =>
      if target = some id then change (state.metaArray id) else state.metaArray id }

@[simp] theorem bucket_setAt (state : State) (target : Option Nat) (change : ListT → ListT) :
    (state.setAt target change).bucket = state.bucket := rfl

theorem modifyMeta?_eq (state : State) {target : Option Nat}
    (bound : ∀ id, target = some id → id < maxPageNum) (change : ListT → ListT) :
    state.modifyMeta? target change = .ok (state.setAt target change) := by
  cases target with
  | none => simp [modifyMeta?, setAt]
  | some id =>
      rw [modifyMeta?, state.modifyMeta_eq (bound id rfl), setAt]
      congr 2
      funext other
      by_cases same : other = id
      · simp [same]
      · simp [same, Ne.symm same]

end State

/-! ## The macros -/

variable {state : State} {list node : Nat}

theorem listPush_eq (listBound : list ≤ maxRankNum) (nodeBound : node < maxPageNum)
    (headBound : ∀ id, state.bucket list = some id → id < maxPageNum)
    (fresh : state.bucket list ≠ some node) :
    listPush state list node = .ok (state.withLinks list ((state.links list).push node)) := by
  simp only [listPush, State.modifyMeta_eq _ nodeBound, State.getBucket_eq _ listBound, ok_bind]
  rw [State.modifyMeta?_eq _ headBound, ok_bind, State.setBucket_eq _ listBound]
  simp only [State.setAt, State.withLinks, State.links, Links.push]
  congr 2
  funext id
  cases head : state.bucket list with
  | none => by_cases isNode : id = node <;> simp [isNode]
  | some first =>
      have different : first ≠ node := fun same => fresh (same ▸ head)
      by_cases isNode : id = node
      · simp [isNode, different]
      · by_cases isFirst : id = first
        · simp [isFirst, different]
        · simp [isNode, isFirst, Ne.symm isFirst]

/-- Both neighbour assignments of `list_remove`, when the node is not its own
neighbour. -/
private theorem setAt_neighbours (state : State) (node : Nat) (next prev : Option Nat) (id : Nat)
    (links : Links Nat) (nextEq : links.next node = next) (prevEq : links.prev node = prev)
    (fields : ∀ id, links.next id = (state.metaArray id).next ∧
      links.prev id = (state.metaArray id).prev) :
    (((state.setAt next fun entry => { entry with prev := prev }).setAt prev
        fun entry => { entry with next := next }).metaArray id) =
      { state.metaArray id with
        prev := (links.unlink node).prev id, next := (links.unlink node).next id } := by
  have nextOf : (links.unlink node).next id =
      if prev = some id then next else (state.metaArray id).next := by
    simp only [Links.unlink, nextEq, prevEq]
    cases prev with
    | none => simp [fields]
    | some before =>
        by_cases same : id = before
        · simp [same]
        · simp [same, Ne.symm same, fields]
  have prevOf : (links.unlink node).prev id =
      if next = some id then prev else (state.metaArray id).prev := by
    simp only [Links.unlink, nextEq, prevEq]
    cases next with
    | none => simp [fields]
    | some after =>
        by_cases same : id = after
        · simp [same]
        · simp [same, Ne.symm same, fields]
  rw [nextOf, prevOf]
  simp only [State.setAt]
  split <;> split <;> rfl

theorem listRemove_eq (listBound : list ≤ maxRankNum) (nodeBound : node < maxPageNum)
    (nextBound : ∀ id, (state.links list).next node = some id → id < maxPageNum)
    (prevBound : ∀ id, (state.links list).prev node = some id → id < maxPageNum)
    (notNext : (state.links list).next node ≠ some node)
    (notPrev : (state.links list).prev node ≠ some node) :
    listRemove state list node =
      .ok (state.withLinks list ((state.links list).unlink node)) := by
  simp only [State.links] at nextBound prevBound notNext notPrev
  have fields := fun id => setAt_neighbours state node _ _ id
    (state.links list) rfl rfl fun _ => ⟨rfl, rfl⟩
  simp only [listRemove, State.getMeta_eq _ nodeBound, ok_bind, State.modifyMeta?_eq _ nextBound]
  have entry : (state.setAt (state.metaArray node).next fun next =>
      { next with prev := (state.metaArray node).prev }).metaArray node =
        state.metaArray node := by
    simp [State.setAt, notNext]
  have entryAgain : ((state.setAt (state.metaArray node).next fun next =>
      { next with prev := (state.metaArray node).prev }).setAt (state.metaArray node).prev
        fun prev => { prev with next := (state.metaArray node).next }).metaArray node =
        state.metaArray node := by
    simp [State.setAt, notNext, notPrev]
  rw [entry, State.modifyMeta?_eq _ prevBound, ok_bind, State.getBucket_eq _ listBound, ok_bind]
  by_cases first : state.bucket list = some node
  · simp only [State.bucket_setAt, if_pos first, entryAgain, State.setBucket_eq _ listBound]
    refine congrArg Except.ok (State.eq_withLinks rfl rfl rfl ?_ fields)
    simp [Links.unlink, State.links, first]
  · simp only [State.bucket_setAt, first, ↓reduceIte, pure_eq_ok]
    refine congrArg Except.ok (State.eq_withLinks rfl rfl rfl ?_ fields)
    simp [Links.unlink, State.links, first]

/-- Popping is unlinking the head, whose `prev` is null. -/
theorem listPop_eq (listBound : list ≤ maxRankNum) (head : state.bucket list = some node)
    (nodeBound : node < maxPageNum)
    (nextBound : ∀ id, (state.links list).next node = some id → id < maxPageNum)
    (notNext : (state.links list).next node ≠ some node)
    (prevNull : (state.links list).prev node = none) :
    listPop state list =
      .ok (some node, state.withLinks list ((state.links list).unlink node)) := by
  simp only [State.links] at nextBound prevNull notNext
  have fields := fun id => setAt_neighbours state node _ _ id
    (state.links list) rfl rfl fun _ => ⟨rfl, rfl⟩
  have entry : (state.setAt (state.metaArray node).next fun next =>
      { next with prev := none }).metaArray node = state.metaArray node := by
    simp [State.setAt, notNext]
  rw [listPop, State.getBucket_eq _ listBound, ok_bind, head]
  simp only [State.getMeta_eq _ nodeBound, ok_bind, State.modifyMeta?_eq _ nextBound, entry,
    State.setBucket_eq _ listBound, pure_eq_ok]
  refine congrArg (fun next => Except.ok (some node, next))
    (State.eq_withLinks rfl rfl rfl ?_ fun id => ?_)
  · simp [Links.unlink, State.links, head]
  · rw [← fields id]
    simp [State.links, State.setAt, prevNull]

end OsPractices.Buddy
