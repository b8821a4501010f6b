import OsPractices.Malloc.Safety

/-!
# Placement does not depend on data

Two runs with the same calls are runs of one layout, whatever the heap held
before and whatever the clients write.
-/

set_option autoImplicit false

namespace OsPractices.Malloc

open Library

variable {layout : Layout} {least : Nat}

/-- A call without what has no part in placement: stores of the client do not
count, and neither does the order of a copy. -/
def Call.visible : Call → Option Call
  | .write _ _ => none
  | .realloc _ ptr size => some (.realloc .ascending ptr size)
  | call => some call

theorem Layout.step_visible (layout : Layout) (call : Call) :
    match call.visible with
    | none => layout.step call = some (layout, [])
    | some seen => layout.step seen = layout.step call := by
  cases call with
  | write position byte => rfl
  | realloc direction ptr size =>
      cases ptr with
      | none => rfl
      | some off => rfl
  | malloc size => rfl
  | calloc nmemb size => rfl
  | free ptr => rfl

/-- A run of a layout is one with the visible parts of its calls. -/
theorem Layout.run_visible {start : Layout} {calls : List Call} {outputs : List (Option Nat)}
    (run : Run Layout.step (fun _ _ => True) start calls outputs layout) :
    Run Layout.step (fun _ _ => True) start (calls.filterMap Call.visible) outputs layout := by
  induction run with
  | nil => exact .nil
  | @snoc calls outputs more state next call _ _ stepped ih =>
      have seen := Layout.step_visible state call
      rw [List.filterMap_append]
      cases isSeen : call.visible with
      | none =>
          rw [isSeen] at seen
          obtain ⟨rfl, rfl⟩ := Prod.mk.inj (Option.some.inj (seen.symm.trans stepped))
          have nothing : [call].filterMap Call.visible = [] := by simp [isSeen]
          rw [nothing, List.append_nil, List.append_nil]
          exact ih
      | some visible =>
          rw [isSeen] at seen
          have one : [call].filterMap Call.visible = [visible] := by simp [isSeen]
          rw [one]
          exact ih.snoc trivial (seen.trans stepped)

/-- The same blocks at the same offsets, with the same sizes and statuses, the
same free lists in the same order, and heaps of the same size. -/
structure SamePlacement (left right : State) : Prop where
  blocks : ∃ offs : List Nat, left.Chain (offs.map (left.heap + ·)) ∧
    right.Chain (offs.map (right.heap + ·)) ∧
    ∀ off ∈ offs, left.size (left.heap + off) = right.size (right.heap + off) ∧
      left.stat (left.heap + off) = right.stat (right.heap + off)
  lists : ∀ rank < rankNum, ∃ offs : List Nat, left.ListOf rank (offs.map (left.heap + ·)) ∧
    right.ListOf rank (offs.map (right.heap + ·))
  brk : left.memBrk - left.heap = right.memBrk - right.heap

theorem Represents.samePlacement {left right : State} (first : Represents left layout none)
    (second : Represents right layout none) : SamePlacement left right := by
  have chain : ∀ {state : State}, Represents state layout none →
      state.Chain ((layout.blocks.map Block.off).map (state.heap + ·)) := by
    intro state represents
    rw [List.map_map]
    exact represents.chain
  refine ⟨⟨layout.blocks.map Block.off, chain first, chain second, ?_⟩, fun rank small => ?_, ?_⟩
  · intro off inside
    obtain ⟨block, member, rfl⟩ := List.mem_map.mp inside
    rw [first.framed.size member (by simp), second.framed.size member (by simp),
      first.framed.stat member (by simp), second.framed.stat member (by simp)]
    exact ⟨rfl, rfl⟩
  · rw [rankNum_eq] at small
    exact ⟨layout.bins rank, first.listOf small, second.listOf small⟩
  · rw [first.framed.brk, second.framed.brk, Nat.add_sub_cancel_left, Nat.add_sub_cancel_left]

/-- Two runs whose calls look the same return the same offsets and place the
blocks alike. -/
theorem placement_independent {left right : State} {calls others : List Call}
    {outputs answers : List (Option Nat)} {first second : Session}
    (leftMapped : Mapped left) (rightMapped : Mapped right)
    (one : Reaches (Call.Sized 16) left calls outputs first)
    (other : Reaches (Call.Sized 16) right others answers second)
    (same : calls.filterMap Call.visible = others.filterMap Call.visible) :
    outputs = answers ∧ SamePlacement first.state second.state := by
  obtain ⟨layout, leftRun, leftTracks, _⟩ := one.tracks leftMapped (by decide) (by decide)
  obtain ⟨layout', rightRun, rightTracks, _⟩ := other.tracks rightMapped (by decide) (by decide)
  have seen := Layout.run_visible leftRun
  have seen' := Layout.run_visible rightRun
  rw [same] at seen
  obtain ⟨rfl, rfl⟩ := seen.deterministic seen'
  exact ⟨rfl, leftTracks.represents.samePlacement rightTracks.represents⟩

/-- A region whose bytes are all zero. -/
def clearRegion : State := memInit 8192 fun _ => 0

theorem clearRegion_mapped : Mapped clearRegion :=
  ⟨by decide, by decide, by decide, rfl⟩

theorem placement_independent_written : ∃ first second,
    Reaches (Call.Sized 16) sampleRegion
      [.malloc 20, .malloc 8, .write 40 200, .free (some 32), .malloc 8]
      [some 32, some 72, some 32] first ∧
    Reaches (Call.Sized 16) clearRegion [.malloc 20, .malloc 8, .free (some 32), .malloc 8]
      [some 32, some 72, some 32] second ∧
    SamePlacement first.state second.state := by
  obtain ⟨first, one⟩ := Reaches.of_outputs sampleRegion_mapped
    (by decide +kernel : (Run.exec (Run.guarded Session.step (Allowed (Call.Sized 16))) _
      [.malloc 20, .malloc 8, .write 40 200, .free (some 32), .malloc 8]).map Prod.snd =
        some [some 32, some 72, some 32])
  obtain ⟨second, other⟩ := Reaches.of_outputs clearRegion_mapped
    (by decide +kernel : (Run.exec (Run.guarded Session.step (Allowed (Call.Sized 16))) _
      [.malloc 20, .malloc 8, .free (some 32), .malloc 8]).map Prod.snd =
        some [some 32, some 72, some 32])
  exact ⟨first, second, one, other,
    (placement_independent sampleRegion_mapped clearRegion_mapped one other rfl).2⟩

/-- `malloc(2^32 - 16)` gives a block without a size, and the next block gets
the same place. What the client of a later block there writes decides whether
a `free` is heard. -/
theorem truncated_request_reveals_data : ¬ ∀ calls others outputs answers first second,
    Reaches (fun _ => True) sampleRegion calls outputs first →
    Reaches (fun _ => True) sampleRegion others answers second →
    calls.filterMap Call.visible = others.filterMap Call.visible → outputs = answers := by
  intro independent
  obtain ⟨first, one⟩ := Reaches.of_outputs sampleRegion_mapped
    (by decide +kernel : (Run.exec (Run.guarded Session.step (Allowed fun _ => True)) _
      [.malloc 8, .malloc 4294967280, .malloc 8, .free (some 56), .malloc 20, .malloc 8,
        .free (some 80), .malloc 8]).map Prod.snd =
          some [some 32, some 56, some 56, some 56, some 80, some 80])
  obtain ⟨second, other⟩ := Reaches.of_outputs sampleRegion_mapped
    (by decide +kernel : (Run.exec (Run.guarded Session.step (Allowed fun _ => True)) _
      [.malloc 8, .malloc 4294967280, .malloc 8, .free (some 56), .malloc 20, .malloc 8,
        .write 72 24, .free (some 80), .malloc 8]).map Prod.snd =
          some [some 32, some 56, some 56, some 56, some 80, some 104])
  exact absurd (independent _ _ _ _ first second one other rfl) (by decide)

end OsPractices.Malloc
