import OsPractices.Malloc.Safety

/-!
# The heap checker

`mm_checkheap` without what it prints: it visits at most 49 blocks of the heap
and of each free list, and asserts that those on a list are free.
-/

set_option autoImplicit false

namespace OsPractices.Malloc

open Library

/-- `for (; STAT(ptr) != BORDER && --cnt1 > 0; ptr = HEAP_NEXT(ptr))` -/
def checkBlocks (state : State) : Nat → Nat → Except Fault Unit
  | 0, _ => .ok ()
  | cnt + 1, ptr => do
      if (← state.stat ptr) ≠ border then
        if 0 < cnt then checkBlocks state cnt (← state.heapNext ptr)

/-- `for (; STAT(ptr) != BORDER && --cnt2 > 0; ptr = LIST_NEXT(ptr))` -/
def checkList (state : State) : Nat → Nat → Except Fault Unit
  | 0, _ => .ok ()
  | cnt + 1, ptr => do
      if (← state.stat ptr) ≠ border then
        if 0 < cnt then
          assertStat state ptr unused
          checkList state cnt (← state.listNext ptr)

def mmCheckheap (state : State) : Except Fault Unit := do
  checkBlocks state 50 (firstBlock state)
  (List.range rankNum).forM fun i => do checkList state 50 (← list state i)

variable {state : State} {layout : Layout} {least : Nat}

/-- Where the walk over the heap ends, so does the loop that counts. -/
theorem checkBlocks_of_walk {fuel cnt ptr : Nat} {result : List Nat × Nat}
    (walk : heapWalk state fuel ptr = .ok result) : checkBlocks state cnt ptr = .ok () := by
  induction cnt generalizing fuel ptr result with
  | zero => rfl
  | succ cnt ih =>
      cases fuel with
      | zero => cases walk
      | succ fuel =>
          unfold heapWalk at walk
          unfold checkBlocks
          obtain ⟨status, read, walk⟩ := bind_eq_ok_iff.mp walk
          rw [read, ok_bind]
          split
          case isFalse => rfl
          case isTrue inside =>
            rw [if_pos inside] at walk
            obtain ⟨next, found, walk⟩ := bind_eq_ok_iff.mp walk
            obtain ⟨later, rest, _⟩ := bind_eq_ok_iff.mp walk
            split
            case isTrue =>
              rw [found, ok_bind]
              exact ih rest
            case isFalse => rfl

theorem checkList_of_walk {fuel cnt ptr : Nat} {ptrs : List Nat}
    (walk : listWalk state fuel ptr = .ok ptrs) (free : ∀ ptr ∈ ptrs, state.stat ptr = .ok unused) :
    checkList state cnt ptr = .ok () := by
  induction cnt generalizing fuel ptr ptrs with
  | zero => rfl
  | succ cnt ih =>
      cases fuel with
      | zero => cases walk
      | succ fuel =>
          unfold listWalk at walk
          unfold checkList
          obtain ⟨status, read, walk⟩ := bind_eq_ok_iff.mp walk
          rw [read, ok_bind]
          split
          case isFalse => rfl
          case isTrue inside =>
            rw [if_pos inside] at walk
            obtain ⟨next, found, walk⟩ := bind_eq_ok_iff.mp walk
            obtain ⟨later, rest, ends⟩ := bind_eq_ok_iff.mp walk
            obtain rfl := Except.ok.inj ends
            have isFree := free ptr List.mem_cons_self
            have asserted : assertStat state ptr unused = .ok () := by
              unfold assertStat
              rw [isFree, ok_bind, if_pos rfl, pure_eq_ok]
            split
            case isTrue =>
              rw [asserted, ok_bind, found, ok_bind]
              exact ih rest fun other member => free other (List.mem_cons_of_mem _ member)
            case isFalse => rfl

theorem Represents.checkheap (represents : Represents state layout none)
    (valid : layout.Valid least) : mmCheckheap state = .ok () := by
  have blocks : checkBlocks state 50 (Malloc.firstBlock state) = .ok () :=
    checkBlocks_of_walk represents.heapWalk
  -- what is on a list is free
  have lists : ∀ i < 3, (Malloc.list state i >>= checkList state 50) = .ok () := by
    intro i small
    obtain ⟨ptr, read, walk⟩ := bind_eq_ok_iff.mp (represents.listWalk small)
    rw [read, ok_bind]
    refine checkList_of_walk walk fun ptr member => ?_
    obtain ⟨off, inList, rfl⟩ := List.mem_map.mp member
    obtain ⟨block, vacant, rfl, _⟩ := (valid.lists.mem_iff i off).mp inList
    exact (represents.framed.stat vacant.1 (by simp)).trans
      (congrArg Except.ok (status_eq_unused.mpr vacant.2))
  unfold mmCheckheap
  rw [blocks, ok_bind, rankNum_eq]
  change ((Malloc.list state 0 >>= checkList state 50) >>= fun _ =>
    (Malloc.list state 1 >>= checkList state 50) >>= fun _ =>
      (Malloc.list state 2 >>= checkList state 50) >>= fun _ => .ok ()) = .ok ()
  rw [lists 0 (by decide), ok_bind, lists 1 (by decide), ok_bind, lists 2 (by decide), ok_bind]

/-- The heap checker finds nothing, whatever the client has done. -/
theorem mmCheckheap_passes {region : State} {calls : List Call} {outputs : List (Option Nat)}
    {session : Session} (mapped : Mapped region)
    (reaches : Reaches (Call.Sized 16) region calls outputs session) :
    mmCheckheap session.state = .ok () := by
  obtain ⟨layout, _, tracks, _⟩ := reaches.tracks mapped (by decide) (by decide)
  exact tracks.represents.checkheap tracks.valid

theorem mmCheckheap_passes_freed : ∃ session,
    Reaches (Call.Sized 16) sampleRegion [.malloc 100, .malloc 8, .free (some 32)]
      [some 32, some 152] session ∧ mmCheckheap session.state = .ok () := by
  obtain ⟨session, reaches⟩ := Reaches.of_outputs sampleRegion_mapped
    (by decide +kernel : (Run.exec (Run.guarded Session.step (Allowed (Call.Sized 16))) _
      [.malloc 100, .malloc 8, .free (some 32)]).map Prod.snd = some [some 32, some 152])
  exact ⟨session, reaches, mmCheckheap_passes sampleRegion_mapped reaches⟩

end OsPractices.Malloc
