import OsPractices.ImplicitList.Code
import OsPractices.Malloc.Words

/-!
# Tags in the implicit list

The tags that `mm-basic.c` reads and writes, as a function on aligned offsets
from the start of the heap, with each macro of the source evaluated once.
-/

set_option autoImplicit false

namespace OsPractices.ImplicitList

open Library
open Malloc (State maxHeap maxHeap_eq u64 unzipSize unzipStat Mapped)

variable {state : State} {offset length status : Nat}

/-- The tag at an aligned offset from the start of the heap. -/
def tagAt (state : State) (offset : Nat) : Nat :=
  if offset % 8 = 0 then state.mem.load64 (state.heap + offset) else 0

def put (state : State) (offset value : Nat) : State :=
  { state with mem := state.mem.store64 (state.heap + offset) value }

theorem tagAt_put (aligned : offset % 8 = 0) (value : Nat) :
    tagAt (put state offset value) = Function.update (tagAt state) offset (value % 2 ^ 64) := by
  funext other
  unfold tagAt
  cases decEq other offset with
  | isTrue same => simp [same, aligned, put, Memory.load64_store64_same]
  | isFalse different =>
      rw [Function.update_of_ne different]
      split
      · simp only [put]
        exact Memory.load64_store64_apart (by omega)
      · rfl

theorem ptrAdd_at (mapped : Mapped state) {distance : Int} {place : Nat}
    (moved : (offset : Int) + distance = place) (near : place ≤ 2 * maxHeap) :
    ptrAdd (state.heap + offset) distance = state.heap + place := by
  have limit := maxHeap_eq
  have below := mapped.below
  unfold ptrAdd u64
  omega

theorem get_at (aligned : offset % 8 = 0) (inside : offset + 8 ≤ maxHeap) :
    get state (state.heap + offset) = .ok (tagAt state offset) := by
  have within : state.Contains (state.heap + offset) sizeTSize :=
    ⟨Nat.le_add_right _ _, by unfold sizeTSize; omega⟩
  unfold get tagAt
  rw [if_pos within, if_pos aligned]

theorem set_at (inside : offset + 8 ≤ maxHeap) (value : Nat) :
    set state (state.heap + offset) value = .ok (put state offset value) := by
  have within : state.Contains (state.heap + offset) sizeTSize :=
    ⟨Nat.le_add_right _ _, by unfold sizeTSize; omega⟩
  exact if_pos within

theorem hdrPtr_at (mapped : Mapped state) (high : 8 ≤ offset) (inside : offset ≤ maxHeap) :
    hdrPtr (state.heap + offset) = state.heap + (offset - 8) :=
  ptrAdd_at mapped (by unfold sizeTSize; omega) (by omega)

theorem size_at (mapped : Mapped state) (aligned : offset % 8 = 0) (high : 8 ≤ offset)
    (inside : offset ≤ maxHeap) :
    size state (state.heap + offset) = .ok (unzipSize (tagAt state (offset - 8))) := by
  unfold size
  rw [hdrPtr_at mapped high inside, get_at (by omega) (by omega)]
  rfl

theorem stat_at (mapped : Mapped state) (aligned : offset % 8 = 0) (high : 8 ≤ offset)
    (inside : offset ≤ maxHeap) :
    stat state (state.heap + offset) = .ok (unzipStat (tagAt state (offset - 8))) := by
  unfold stat
  rw [hdrPtr_at mapped high inside, get_at (by omega) (by omega)]
  rfl

theorem nextPtr_of_size (mapped : Mapped state)
    (read : size state (state.heap + offset) = .ok length) (near : offset + length ≤ 2 * maxHeap) :
    nextPtr state (state.heap + offset) = .ok (state.heap + (offset + length)) := by
  have place : ptrAdd (state.heap + offset) length = state.heap + (offset + length) :=
    ptrAdd_at mapped (by omega) near
  unfold nextPtr
  rw [read, ok_bind, place]
  rfl

theorem prevTag_at (mapped : Mapped state) (aligned : offset % 8 = 0) (high : 16 ≤ offset)
    (inside : offset ≤ maxHeap) :
    prevTag state (state.heap + offset) = .ok (tagAt state (offset - 16)) := by
  have place : ptrAdd (state.heap + offset) (-sizeTSize * 2) = state.heap + (offset - 16) :=
    ptrAdd_at mapped (by unfold sizeTSize; omega) (by omega)
  unfold prevTag
  rw [place, get_at (by omega) (by omega)]

/-- In front of the first block there is no footer. -/
theorem prevTag_first (mapped : Mapped state) : prevTag state (state.heap + 8) = .error .segv := by
  have page := mapped.page
  have positive := mapped.positive
  have outside : ¬ state.Contains (ptrAdd (state.heap + 8) (-sizeTSize * 2)) sizeTSize := by
    unfold Malloc.State.Contains ptrAdd u64 sizeTSize
    have below := mapped.below
    omega
  unfold prevTag get
  exact if_neg outside

theorem zip_eq (small : length < 2 ^ 32) (low : status < 8) :
    zip length status = Malloc.zip length status := by
  unfold zip Malloc.zip u64
  omega

/-- The tags of a block of some length at any place of the heap. -/
theorem setTags_at (mapped : Mapped state) (aligned : offset % 8 = 0) (high : 8 ≤ offset)
    (multiple : length % 8 = 0) (long : 8 ≤ length) (inside : offset + length ≤ maxHeap + 8)
    (low : status < 8) :
    setTags state (state.heap + offset) length status =
      .ok (put (put state (offset - 8) (Malloc.zip length status)) (offset + length - 16)
        (Malloc.zip length status)) := by
  have limit := maxHeap_eq
  have mapped' : Mapped (put state (offset - 8) (Malloc.zip length status)) :=
    mapped.of_same rfl rfl
  have small : Malloc.zip length status % 2 ^ 64 = Malloc.zip length status := by
    unfold Malloc.zip
    omega
  have read : size (put state (offset - 8) (Malloc.zip length status)) (state.heap + offset) =
      .ok length := by
    have found := size_at mapped' aligned high (by omega)
    rw [tagAt_put (by omega), Function.update_self, small, Malloc.zip_size multiple] at found
    exact found
  have footer : ftrPtr (put state (offset - 8) (Malloc.zip length status)) (state.heap + offset) =
      .ok (state.heap + (offset + length - 16)) := by
    have place : ptrAdd (state.heap + offset) (length - sizeTSize * 2) =
        state.heap + (offset + length - 16) :=
      ptrAdd_at mapped (by unfold sizeTSize; omega) (by omega)
    unfold ftrPtr
    rw [read, ok_bind, place]
    rfl
  unfold setTags
  rw [hdrPtr_at mapped high (by omega), zip_eq (by omega) low, set_at (by omega), ok_bind, footer,
    ok_bind]
  exact set_at (by omega) _

end OsPractices.ImplicitList
