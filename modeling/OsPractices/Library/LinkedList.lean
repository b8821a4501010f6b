import Mathlib.Logic.Function.Basic
import Mathlib.Data.List.Nodup

/-!
# Doubly linked lists with a head pointer

The pointer fields of a list are three functions: the head, and each node's
`next` and `prev`. `Links.Holds` says which nodes such a list contains, in
order. Nodes outside a list may carry any pointers, so several lists can share
one pair of pointer functions.
-/

set_option autoImplicit false

namespace OsPractices.Library

variable {Node : Type}

/-- Consecutive nodes point at each other; `before` and `after` are what the
first node's `prev` and the last node's `next` hold. -/
def Segment (next prev : Node → Option Node) :
    Option Node → List Node → Option Node → Prop
  | _, [], _ => True
  | before, node :: rest, after =>
      prev node = before ∧ next node = rest.head?.or after ∧
        Segment next prev (some node) rest after

theorem Segment.append_iff {next prev : Node → Option Node}
    {before after : Option Node} {front back : List Node} :
    Segment next prev before (front ++ back) after ↔
      Segment next prev before front (back.head?.or after) ∧
        Segment next prev (front.getLast?.or before) back after := by
  induction front generalizing before with
  | nil => simp [Segment]
  | cons node rest ih =>
      cases rest with
      | nil => simp [Segment, and_assoc]
      | cons second rest =>
          change (prev node = before ∧ next node = some second ∧
              Segment next prev (some node) (second :: rest ++ back) after) ↔
            (prev node = before ∧ next node = some second ∧
              Segment next prev (some node) (second :: rest) (back.head?.or after)) ∧
              Segment next prev ((node :: second :: rest).getLast?.or before) back after
          have ends : (second :: rest).getLast?.or (some node) =
              (second :: rest).getLast?.or before := by
            rw [List.getLast?_cons]
            rfl
          rw [ih, List.getLast?_cons_cons, ends]
          simp only [and_assoc]

theorem Segment.congr {next prev next' prev' : Node → Option Node}
    {before after : Option Node} {nodes : List Node}
    (segment : Segment next prev before nodes after)
    (sameNext : ∀ node ∈ nodes, next' node = next node)
    (samePrev : ∀ node ∈ nodes, prev' node = prev node) :
    Segment next' prev' before nodes after := by
  induction nodes generalizing before with
  | nil => trivial
  | cons node rest ih =>
      obtain ⟨back, forth, tail⟩ := segment
      refine ⟨(samePrev node (by simp)).trans back, (sameNext node (by simp)).trans forth, ?_⟩
      exact ih tail (fun other member => sameNext other (.tail _ member))
        (fun other member => samePrev other (.tail _ member))

/-- The pointer fields of one list. -/
structure Links (Node : Type) where
  head : Option Node
  next : Node → Option Node
  prev : Node → Option Node

namespace Links

/-- The list starting at `head` is finite, consistently linked both ways, ends
in null on both sides and visits exactly `nodes`. -/
structure Holds (links : Links Node) (nodes : List Node) : Prop where
  head : links.head = nodes.head?
  nodup : nodes.Nodup
  segment : Segment links.next links.prev none nodes none

theorem Holds.congr {links links' : Links Node} {nodes : List Node}
    (holds : links.Holds nodes) (sameHead : links'.head = links.head)
    (sameNext : ∀ node ∈ nodes, links'.next node = links.next node)
    (samePrev : ∀ node ∈ nodes, links'.prev node = links.prev node) :
    links'.Holds nodes :=
  ⟨sameHead.trans holds.head, holds.nodup, holds.segment.congr sameNext samePrev⟩

/-- The pointers of a member, read off its place in the list. -/
theorem Holds.pointers {links : Links Node} {front back : List Node} {node : Node}
    (holds : links.Holds (front ++ node :: back)) :
    links.prev node = front.getLast? ∧ links.next node = back.head? := by
  have split := (Segment.append_iff.mp holds.segment).2
  exact ⟨by simpa using split.1, by simpa using split.2.1⟩

theorem Holds.next_mem {links : Links Node} {nodes : List Node} {node target : Node}
    (holds : links.Holds nodes) (member : node ∈ nodes)
    (points : links.next node = some target) : target ∈ nodes := by
  obtain ⟨front, back, rfl⟩ := List.append_of_mem member
  rw [holds.pointers.2] at points
  simp [List.mem_of_head? points]

theorem Holds.prev_mem {links : Links Node} {nodes : List Node} {node target : Node}
    (holds : links.Holds nodes) (member : node ∈ nodes)
    (points : links.prev node = some target) : target ∈ nodes := by
  obtain ⟨front, back, rfl⟩ := List.append_of_mem member
  rw [holds.pointers.1] at points
  simp [List.mem_of_getLast? points]

theorem Holds.head_mem {links : Links Node} {nodes : List Node} {node : Node}
    (holds : links.Holds nodes) (first : links.head = some node) : node ∈ nodes :=
  List.mem_of_head? (holds.head ▸ first)

/-- A member's neighbours are other nodes. -/
theorem Holds.notSelf {links : Links Node} {nodes : List Node} {node : Node}
    (holds : links.Holds nodes) (member : node ∈ nodes) :
    links.next node ≠ some node ∧ links.prev node ≠ some node := by
  obtain ⟨front, back, rfl⟩ := List.append_of_mem member
  obtain ⟨prevEq, nextEq⟩ := holds.pointers
  obtain ⟨_, nodeBack, apart⟩ := List.nodup_append.mp holds.nodup
  constructor
  · intro same
    exact (List.nodup_cons.mp nodeBack).1 (List.mem_of_head? (nextEq ▸ same))
  · intro same
    exact apart node (List.mem_of_getLast? (prevEq ▸ same)) node (.head _) rfl

theorem Holds.prev_head {links : Links Node} {nodes : List Node} {node : Node}
    (holds : links.Holds nodes) (first : links.head = some node) : links.prev node = none := by
  cases nodes with
  | nil =>
      rw [holds.head] at first
      cases first
  | cons head rest =>
      have same : head = node := by simpa [holds.head] using first
      exact same ▸ holds.segment.1

/-- Two sets of pointer fields that cannot be told apart on `nodes`. -/
structure AgreesOn (nodes : Node → Prop) (links links' : Links Node) : Prop where
  head : links'.head = links.head
  next : ∀ node, nodes node → links'.next node = links.next node
  prev : ∀ node, nodes node → links'.prev node = links.prev node

namespace AgreesOn

variable {nodes : Node → Prop} {links links' links'' : Links Node}

theorem refl (nodes : Node → Prop) (links : Links Node) : AgreesOn nodes links links :=
  ⟨rfl, fun _ _ => rfl, fun _ _ => rfl⟩

theorem trans (first : AgreesOn nodes links links') (second : AgreesOn nodes links' links'') :
    AgreesOn nodes links links'' :=
  ⟨second.head.trans first.head,
    fun node member => (second.next node member).trans (first.next node member),
    fun node member => (second.prev node member).trans (first.prev node member)⟩

theorem holds (agrees : AgreesOn nodes links links') {members : List Node}
    (holds : links.Holds members) (inside : ∀ node ∈ members, nodes node) :
    links'.Holds members :=
  holds.congr agrees.head (fun node member => agrees.next node (inside node member))
    fun node member => agrees.prev node (inside node member)

theorem withHead (agrees : AgreesOn nodes links links') (value : Option Node) :
    AgreesOn nodes { links with head := value } { links' with head := value } :=
  ⟨rfl, agrees.next, agrees.prev⟩

end AgreesOn

variable [DecidableEq Node]

/-- Store through a pointer that may be null. -/
def setAt (field : Node → Option Node) (target value : Option Node) : Node → Option Node :=
  match target with
  | none => field
  | some node => Function.update field node value

@[simp] theorem setAt_none (field : Node → Option Node) (value : Option Node) :
    setAt field none value = field := rfl

@[simp] theorem setAt_some (field : Node → Option Node) (node : Node) (value : Option Node) :
    setAt field (some node) value = Function.update field node value := rfl

theorem setAt_of_ne {field : Node → Option Node} {target value : Option Node} {node : Node}
    (different : target ≠ some node) : setAt field target value node = field node := by
  cases target with
  | none => rfl
  | some other =>
      have : node ≠ other := fun same => different (by rw [same])
      simp [this]

/-- Store to the `next` or the `prev` of a node that may be null. -/
def setNext (links : Links Node) (target value : Option Node) : Links Node :=
  { links with next := setAt links.next target value }

def setPrev (links : Links Node) (target value : Option Node) : Links Node :=
  { links with prev := setAt links.prev target value }

theorem AgreesOn.setNext {nodes : Node → Prop} {links links' : Links Node}
    (agrees : AgreesOn nodes links links') (target value : Option Node) :
    AgreesOn nodes (links.setNext target value) (links'.setNext target value) := by
  refine ⟨agrees.head, fun node member => ?_, agrees.prev⟩
  cases target with
  | none => exact agrees.next node member
  | some other =>
      simp only [Links.setNext, setAt_some, Function.update_apply]
      rw [agrees.next node member]

theorem AgreesOn.setPrev {nodes : Node → Prop} {links links' : Links Node}
    (agrees : AgreesOn nodes links links') (target value : Option Node) :
    AgreesOn nodes (links.setPrev target value) (links'.setPrev target value) := by
  refine ⟨agrees.head, agrees.next, fun node member => ?_⟩
  cases target with
  | none => exact agrees.prev node member
  | some other =>
      simp only [Links.setPrev, setAt_some, Function.update_apply]
      rw [agrees.prev node member]

/-- Stores through nodes outside a list leave the list alone. -/
theorem Holds.setNext {links : Links Node} {nodes : List Node} (holds : links.Holds nodes)
    {target : Option Node} (outside : ∀ node ∈ target, node ∉ nodes) (value : Option Node) :
    (links.setNext target value).Holds nodes :=
  holds.congr rfl (fun node member => setAt_of_ne fun same => outside node same member)
    fun _ _ => rfl

theorem Holds.setPrev {links : Links Node} {nodes : List Node} (holds : links.Holds nodes)
    {target : Option Node} (outside : ∀ node ∈ target, node ∉ nodes) (value : Option Node) :
    (links.setPrev target value).Holds nodes :=
  holds.congr rfl (fun _ _ => rfl)
    fun node member => setAt_of_ne fun same => outside node same member

/-- Insert `node` in front. -/
def push (links : Links Node) (node : Node) : Links Node where
  head := some node
  next := Function.update links.next node links.head
  prev := Function.update (setAt links.prev links.head (some node)) node none

/-- Take `node` out by linking its neighbours to each other. -/
def unlink (links : Links Node) (node : Node) : Links Node where
  head := if links.head = some node then links.next node else links.head
  next := setAt links.next (links.prev node) (links.next node)
  prev := setAt links.prev (links.next node) (links.prev node)

theorem push_next_of_ne {links : Links Node} {node other : Node} (different : other ≠ node) :
    (links.push node).next other = links.next other := by
  simp [push, different]

theorem Holds.push_prev_of_notMem {links : Links Node} {nodes : List Node} {node other : Node}
    (holds : links.Holds nodes) (different : other ≠ node) (outside : other ∉ nodes) :
    (links.push node).prev other = links.prev other := by
  have notHead : links.head ≠ some other := fun same => outside (holds.head_mem same)
  simp [push, different, setAt_of_ne notHead]

theorem Holds.push {links : Links Node} {nodes : List Node} {node : Node}
    (holds : links.Holds nodes) (fresh : node ∉ nodes) :
    (links.push node).Holds (node :: nodes) := by
  refine ⟨rfl, List.nodup_cons.mpr ⟨fresh, holds.nodup⟩, ?_⟩
  refine ⟨by simp [Links.push], by simp [Links.push, holds.head], ?_⟩
  cases nodes with
  | nil => trivial
  | cons first rest =>
      obtain ⟨firstFresh, restFresh⟩ : node ≠ first ∧ node ∉ rest := by simpa using fresh
      have firstOut : first ∉ rest := (List.nodup_cons.mp holds.nodup).1
      have head : links.head = some first := holds.head
      obtain ⟨-, forth, tail⟩ := holds.segment
      refine ⟨by simp [Links.push, head, firstFresh.symm], ?_, ?_⟩
      · simpa [Links.push, firstFresh.symm] using forth
      · refine tail.congr (fun other member => ?_) (fun other member => ?_)
        · exact push_next_of_ne fun same => restFresh (same ▸ member)
        · have notNode : other ≠ node := fun same => restFresh (same ▸ member)
          have notFirst : other ≠ first := fun same => firstOut (same ▸ member)
          simp [Links.push, head, notNode, notFirst]

/-- Changing where the last node points changes only the end of a segment. -/
private theorem segment_retarget {next prev : Node → Option Node}
    {before after : Option Node} (target : Option Node) {nodes : List Node}
    (nodup : nodes.Nodup) (segment : Segment next prev before nodes after) :
    Segment (setAt next nodes.getLast? target) prev before nodes target := by
  induction nodes generalizing before with
  | nil => trivial
  | cons node rest ih =>
      obtain ⟨back, forth, tail⟩ := segment
      obtain ⟨fresh, nodupRest⟩ := List.nodup_cons.mp nodup
      cases rest with
      | nil => exact ⟨back, by simp, trivial⟩
      | cons second rest =>
          have different : (second :: rest).getLast? ≠ some node := fun same =>
            fresh (List.mem_of_getLast? same)
          rw [List.getLast?_cons_cons]
          refine ⟨back, ?_, ih nodupRest tail⟩
          rw [setAt_of_ne different, forth]
          simp

theorem Holds.unlink_split {links : Links Node} {front back : List Node} {node : Node}
    (holds : links.Holds (front ++ node :: back)) :
    (links.unlink node).Holds (front ++ back) := by
  obtain ⟨prevEq, nextEq⟩ := holds.pointers
  obtain ⟨frontSegment, -, -, backSegment⟩ := Segment.append_iff.mp holds.segment
  have nodup := holds.nodup
  obtain ⟨frontNodup, nodeBack, apart⟩ := List.nodup_append.mp nodup
  obtain ⟨nodeFresh, backNodup⟩ := List.nodup_cons.mp nodeBack
  have crossed : ∀ other ∈ front, other ∉ back := fun other inFront inBack =>
    apart other inFront other (.tail _ inBack) rfl
  have nodeFront : node ∉ front := fun inFront => apart node inFront node (.head _) rfl
  refine ⟨?_, ?_, ?_⟩
  · cases front with
    | nil => simpa [Links.unlink, holds.head] using nextEq
    | cons first rest =>
        have different : first ≠ node := fun same => nodeFront (by simp [same])
        simp [Links.unlink, holds.head, different]
  · exact List.nodup_append.mpr ⟨frontNodup, backNodup,
      fun left inFront right inBack => apart left inFront right (.tail _ inBack)⟩
  · simp only [Links.unlink, prevEq, nextEq]
    refine Segment.append_iff.mpr ⟨?_, ?_⟩
    · have retargeted := segment_retarget back.head? frontNodup frontSegment
      rw [Option.or_none]
      refine retargeted.congr (fun other member => rfl) (fun other member => ?_)
      exact setAt_of_ne fun same => crossed other member (List.mem_of_head? same)
    · cases back with
      | nil => trivial
      | cons first rest =>
          obtain ⟨firstFresh, -⟩ := List.nodup_cons.mp backNodup
          obtain ⟨-, forth, tail⟩ := backSegment
          have keepsNext : ∀ other ∈ first :: rest,
              setAt links.next front.getLast? (some first) other = links.next other :=
            fun other member => setAt_of_ne fun same =>
              crossed other (List.mem_of_getLast? same) member
          refine ⟨by simp, (keepsNext first (.head _)).trans forth, ?_⟩
          refine tail.congr (fun other member => keepsNext other (.tail _ member))
            (fun other member => ?_)
          refine setAt_of_ne fun same => firstFresh ?_
          simp only [List.head?_cons, Option.some.injEq] at same
          exact same ▸ member

theorem Holds.unlink {links : Links Node} {nodes : List Node} {node : Node}
    (holds : links.Holds nodes) (member : node ∈ nodes) :
    (links.unlink node).Holds (nodes.erase node) := by
  obtain ⟨front, back, rfl⟩ := List.append_of_mem member
  have notFront : node ∉ front := fun inFront =>
    (List.nodup_append.mp holds.nodup).2.2 node inFront node (.head _) rfl
  rw [List.erase_append_right _ notFront, List.erase_cons_head]
  exact holds.unlink_split

/-- Unlinking writes only pointers of the list's own nodes. -/
theorem Holds.unlink_of_notMem {links : Links Node} {nodes : List Node} {node other : Node}
    (holds : links.Holds nodes) (member : node ∈ nodes) (outside : other ∉ nodes) :
    (links.unlink node).next other = links.next other ∧
      (links.unlink node).prev other = links.prev other :=
  ⟨setAt_of_ne fun same => outside (holds.prev_mem member same),
    setAt_of_ne fun same => outside (holds.next_mem member same)⟩

end Links

end OsPractices.Library
