import OsPractices.Mdriver.Balance

/-!
# Balanced traces in the driver

A trace that `checktrace.pl` accepts keeps the rules of a client, and the balanced
trace is read by the driver as one that leaves no block behind.
-/

set_option autoImplicit false

namespace OsPractices.Mdriver

open Library

def TraceOp.request (op : TraceOp) : Request := (op.type, op.index)

/-- The request to free an id, as `read_trace` reads it. -/
def releaseOf (id : Int) : TraceOp := ⟨.free, id, 0⟩

/-- The trace with the requests to free that are appended. -/
def Trace.release (trace : Trace) (ids : List Int) : Trace :=
  { trace with ops := trace.ops ++ ids.map releaseOf }

/-! ## Requests to free -/

theorem outstanding_release {requests : List Request} {ids : List Int} {id : Int} :
    Outstanding (requests ++ ids.map fun id => (.free, id)) id ↔
      Outstanding requests id ∧ id ∉ ids := by
  induction ids generalizing requests with
  | nil => simp
  | cons first ids ih =>
      rw [List.map_cons, List.append_cons, ih, outstanding_append]
      simp [@eq_comm _ id, and_assoc]

theorem fitsAfter_append {before first second : List Request} :
    FitsAfter before (first ++ second) ↔
      FitsAfter before first ∧ FitsAfter (before ++ first) second := by
  induction first generalizing before with
  | nil =>
      have empty : FitsAfter before [] := by
        intro front request back same
        cases front <;> cases same
      simp [empty]
  | cons request first ih =>
      rw [List.cons_append, fitsAfter_cons, ih, fitsAfter_cons, and_assoc, List.append_assoc,
        List.singleton_append]

theorem fitsAfter_release {requests : List Request} {ids : List Int} (nodup : ids.Nodup)
    (outstanding : ∀ id ∈ ids, Outstanding requests id) :
    FitsAfter requests (ids.map fun id => (.free, id)) := by
  induction ids generalizing requests with
  | nil =>
      intro front request back same
      cases front <;> cases same
  | cons first ids ih =>
      obtain ⟨fresh, nodup'⟩ := List.nodup_cons.mp nodup
      refine fitsAfter_cons.mpr ⟨outstanding first List.mem_cons_self, ih nodup' fun id member => ?_⟩
      refine outstanding_append.mpr (.inr ⟨outstanding id (List.mem_cons_of_mem first member), ?_⟩)
      rintro ⟨⟩
      exact fresh member

/-! ## Slots -/

/-- The slots agree with what is outstanding, on the ids of the trace. -/
structure Slots.Follows (slots : Slots) (numIds : Int) (requests : List Request) : Prop where
  usable : ∀ id, Outstanding requests id → slots id ≠ .stale
  dead : ∀ id, ¬ Outstanding requests id → ¬ (slots id).IsLive
  inRange : ∀ id, Outstanding requests id → 0 ≤ id ∧ id < numIds

theorem follows_initial (numIds : Int) : Slots.initial.Follows numIds [] where
  usable id outstanding := absurd outstanding (outstanding_nil id)
  dead _ _ live := live
  inRange id outstanding := absurd outstanding (outstanding_nil id)

/-- The sizes and ids that a client may use in a request. -/
structure TraceOp.Usable (numIds : Int) (op : TraceOp) : Prop where
  index : op.type = .alloc → 0 ≤ op.index ∧ op.index < numIds
  size : op.size < 2 ^ 31
  positive : op.type = .alloc → 0 < op.size

/-- A request changes its own slot, and leaves the other ids as they are. -/
theorem Slots.Follows.update {slots : Slots} {numIds index : Int} {requests later : List Request}
    {slot : Slot} (follows : slots.Follows numIds requests)
    (others : ∀ id, id ≠ index → (Outstanding later id ↔ Outstanding requests id))
    (own : Outstanding later index → slot ≠ .stale ∧ 0 ≤ index ∧ index < numIds)
    (dead : ¬ Outstanding later index → ¬ slot.IsLive) :
    Slots.Follows (Function.update slots index slot) numIds later := by
  refine ⟨fun id outstanding => ?_, fun id isFree => ?_, fun id outstanding => ?_⟩
  · by_cases same : id = index
    · subst same
      rw [Function.update_self]
      exact (own outstanding).1
    · rw [Function.update_of_ne same]
      exact follows.usable id ((others id same).mp outstanding)
  · by_cases same : id = index
    · subst same
      rw [Function.update_self]
      exact dead isFree
    · rw [Function.update_of_ne same]
      exact follows.dead id fun outstanding => isFree ((others id same).mpr outstanding)
  · by_cases same : id = index
    · subst same
      exact (own outstanding).2
    · exact follows.inRange id ((others id same).mp outstanding)

theorem Slots.Follows.step {slots : Slots} {numIds : Int} {requests : List Request} {op : TraceOp}
    (follows : slots.Follows numIds requests) (usable : op.Usable numIds)
    (fits : Fitting requests op.request) :
    slots.Admits numIds op ∧ (slots.after op).Follows numIds (requests ++ [op.request]) := by
  obtain ⟨type, index, size⟩ := op
  obtain ⟨inRange, small, positive⟩ := usable
  have others : ∀ id, id ≠ index →
      (Outstanding (requests ++ [(type, index)]) id ↔ Outstanding requests id) := by
    intro id other
    rw [outstanding_append]
    simp [Ne.symm other]
  cases type with
  | alloc =>
      refine ⟨⟨inRange rfl, follows.dead index fits, positive rfl, small⟩,
        follows.update others (fun _ => ⟨Slot.noConfusion, inRange rfl⟩) fun isFree => ?_⟩
      exact absurd (outstanding_append.mpr (.inl rfl)) isFree
  | realloc =>
      have range := follows.inRange index fits
      refine ⟨⟨range, follows.usable index fits, small⟩, follows.update others (fun _ => ?_)
        fun isFree => ?_⟩
      · refine ⟨?_, range⟩
        dsimp only
        split <;> exact Slot.noConfusion
      · exact absurd (outstanding_append.mpr (.inr ⟨fits, by simp [TraceOp.request]⟩)) isFree
  | free =>
      have range := follows.inRange index fits
      refine ⟨.inr ⟨range, follows.usable index fits⟩, follows.update others (fun outstanding => ?_)
        fun _ => ?_⟩
      · rw [outstanding_append] at outstanding
        simp [TraceOp.request] at outstanding
      · dsimp only
        split <;> exact id

/-- A trace that allocates and frees in turn keeps the rules. -/
theorem conforms_of_fits {numIds : Int} {ops : List TraceOp} {slots : Slots}
    {requests : List Request} (follows : slots.Follows numIds requests)
    (usable : ∀ op ∈ ops, op.Usable numIds)
    (fits : FitsAfter requests (ops.map TraceOp.request)) :
    slots.Conforms numIds ops ∧
      (ops.foldl Slots.after slots).Follows numIds (requests ++ ops.map TraceOp.request) := by
  induction ops generalizing slots requests with
  | nil => exact ⟨trivial, by simpa using follows⟩
  | cons op ops ih =>
      obtain ⟨fit, later⟩ := fitsAfter_cons.mp fits
      obtain ⟨admits, follows'⟩ := follows.step (usable op List.mem_cons_self) fit
      obtain ⟨conforms, follows''⟩ :=
        ih follows' (fun other member => usable other (List.mem_cons_of_mem op member)) later
      refine ⟨⟨admits, conforms⟩, ?_⟩
      rwa [List.append_assoc, List.singleton_append] at follows''

/-! ## The balanced trace -/

theorem line_request (ops : List TraceOp) :
    (ops.map TraceOp.line).map Line.request = ops.map TraceOp.request := by
  rw [List.map_map]
  rfl

theorem print_release (trace : Trace) (ids : List Int) :
    (trace.release ids).print = printTrace trace.weight trace.numIds trace.ignoreRanges
      (trace.ops.map TraceOp.line ++ ids.map freeOf) := by
  unfold Trace.print Trace.release
  rw [List.map_append, List.map_map]
  rfl

theorem topIndex_release (ops : List TraceOp) (ids : List Int) :
    topIndex (ops ++ ids.map releaseOf) = topIndex ops := by
  induction ids using List.reverseRecOn with
  | nil => rw [List.map_nil, List.append_nil]
  | append_singleton ids id ih =>
      rw [List.map_append, List.map_singleton, ← List.append_assoc, topIndex_append]
      exact (if_pos rfl).trans ih

theorem le_topIndex {ops : List TraceOp} {op : TraceOp} (member : op ∈ ops)
    (isRequest : op.type ≠ .free) : op.index ≤ topIndex ops := by
  induction ops using List.reverseRecOn with
  | nil => exact absurd member List.not_mem_nil
  | append_singleton ops last ih =>
      rw [topIndex_append]
      rcases List.mem_append.mp member with before | isLast
      · split
        case isTrue => exact ih before
        case isFalse => exact (ih before).trans (Int.le_max_right _ _)
      · rw [List.mem_singleton.mp isLast] at isRequest ⊢
        rw [if_neg isRequest]
        exact Int.le_max_left _ _

theorem Outstanding.alloc {ops : List TraceOp} {id : Int}
    (outstanding : Outstanding (ops.map TraceOp.request) id) :
    ∃ op ∈ ops, op.type = .alloc ∧ op.index = id := by
  obtain ⟨before, after, same, _⟩ := outstanding
  have member : (RequestType.alloc, id) ∈ ops.map TraceOp.request := by
    rw [same]
    simp
  obtain ⟨op, inside, isAlloc⟩ := List.mem_map.mp member
  exact ⟨op, inside, congrArg Prod.fst isAlloc, congrArg Prod.snd isAlloc⟩

theorem readable_release {source : Source} {trace : Trace} {ids : List Int}
    (readable : trace.Readable source) (residue : Residue (trace.ops.map TraceOp.request) ids)
    (short : IsInt (trace.ops.length + ids.length)) : (trace.release ids).Readable source where
  filename := readable.filename
  weight := readable.weight
  ignoreRanges := readable.ignoreRanges
  length := by
    unfold Trace.release
    rw [List.length_append, List.length_map, Nat.cast_add]
    exact short
  numIds := readable.numIds
  top := (topIndex_release trace.ops ids).trans readable.top
  ops op member := by
    rcases List.mem_append.mp member with before | free
    · exact readable.ops op before
    · obtain ⟨id, isId, rfl⟩ := List.mem_map.mp free
      obtain ⟨first, inside, _, rfl⟩ := ((residue.mem_iff id).mp isId).alloc
      exact ⟨(readable.ops first inside).index, rfl⟩

/-- A readable trace that `checktrace.pl` accepts keeps the rules of a client, if its
sizes and ids do. So does the balanced trace that is printed for it, which leaves no
block behind, and which the driver reads back. -/
theorem checktrace_conforms {source : Source} {trace : Trace} {script : String}
    {output : List UInt8} (readable : trace.Readable source)
    (usable : ∀ op ∈ trace.ops, op.size < 2 ^ 31 ∧ (op.type = .alloc → 0 ≤ op.index ∧ 0 < op.size))
    (run : checktrace script false trace.print = some ⟨output, none⟩) :
    trace.Conforms ∧ ∃ ids, Residue (trace.ops.map TraceOp.request) ids ∧
      output = (trace.release ids).print ∧ (trace.release ids).Conforms ∧
      (∀ id, ¬ ((trace.release ids).ops.foldl Slots.after .initial id).IsLive) ∧
      (IsInt (trace.ops.length + ids.length) →
        readTrace source output = .ok (trace.release ids)) := by
  have isOps : IsInt (trace.ops.map TraceOp.line).length := by
    rw [List.length_map]
    exact readable.length
  have alloc : ∀ op ∈ trace.ops, op.type = .alloc → op.index < trace.numIds := by
    intro op member isAlloc
    have low := le_topIndex member (by simp [isAlloc])
    rw [readable.top] at low
    omega
  have own : ∀ op ∈ trace.ops, op.Usable trace.numIds := fun op member =>
    ⟨fun isAlloc => ⟨((usable op member).2 isAlloc).1, alloc op member isAlloc⟩,
      (usable op member).1, fun isAlloc => ((usable op member).2 isAlloc).2⟩
  rcases @foldlM_text script (trace.ops.map TraceOp.line) ⟨∅, 4, []⟩ [] Hash.Records.empty with
    ⟨paired, hash, checked, records⟩ | ⟨front, line, back, same, _, _, died⟩
  · obtain ⟨ids, residue, printed, _⟩ := checktrace_of_run isOps records checked
    obtain ⟨isOutput, _⟩ := Outcome.mk.inj (Option.some.inj (run.symm.trans printed))
    rw [line_request] at paired residue
    have released : FitsAfter [] ((trace.release ids).ops.map TraceOp.request) := by
      unfold Trace.release
      rw [List.map_append, List.map_map]
      exact fitsAfter_append.mpr ⟨paired, fitsAfter_release residue.nodup fun id member =>
        (residue.mem_iff id).mp member⟩
    have usable' : ∀ op ∈ (trace.release ids).ops, op.Usable trace.numIds := by
      intro op member
      rcases List.mem_append.mp member with before | free
      · exact own op before
      · obtain ⟨id, _, rfl⟩ := List.mem_map.mp free
        exact ⟨RequestType.noConfusion, Nat.two_pow_pos 31, RequestType.noConfusion⟩
    have conforms := conforms_of_fits (follows_initial trace.numIds) usable' released
    refine ⟨(conforms_of_fits (follows_initial trace.numIds) own paired).1, ids, residue,
      isOutput.trans (print_release trace ids).symm, conforms.1, fun id => conforms.2.dead id ?_,
      fun short => ?_⟩
    · rw [List.nil_append]
      unfold Trace.release
      rw [List.map_append, List.map_map]
      intro outstanding
      obtain ⟨left, absent⟩ := outstanding_release.mp outstanding
      exact absent ((residue.mem_iff id).mpr left)
    · rw [isOutput, ← print_release]
      exact readTrace_print_self (readable_release readable residue short)
  · unfold Trace.print at run
    rw [checktrace_of_error died] at run
    simp at run

def unbalanced : Trace := ⟨"stdin", 1, 1, 0, [⟨.alloc, 0, 8⟩]⟩

theorem checktrace_conforms_unbalanced :
    unbalanced.Conforms ∧ ∃ ids, Residue (unbalanced.ops.map TraceOp.request) ids ∧
      (unbalanced.release [0]).print = (unbalanced.release ids).print ∧
      (unbalanced.release ids).Conforms ∧
      (∀ id, ¬ ((unbalanced.release ids).ops.foldl Slots.after .initial id).IsLive) ∧
      (IsInt (unbalanced.ops.length + ids.length) →
        readTrace .stdin (unbalanced.release [0]).print = .ok (unbalanced.release ids)) :=
  @checktrace_conforms .stdin unbalanced _ _
    ⟨rfl, by decide, by decide, by decide, by decide, by decide, by
      intro op member
      rw [List.mem_singleton.mp member]
      exact ⟨by decide, ⟨8, by decide, rfl⟩⟩⟩
    (by
      intro op member
      rw [List.mem_singleton.mp member]
      decide)
    (by decide : checktrace "checktrace.pl" false unbalanced.print = _)

end OsPractices.Mdriver
