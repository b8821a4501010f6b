import OsPractices.Buddy.Lists
import OsPractices.Buddy.TreeIndex

/-!
# The free lists in memory

`FreeLists` says that the bucket of each rank is a well-formed list that visits
the first pages of the free blocks of that rank. All lists share the pointer
fields of `meta`; they stay apart because no two free blocks start at one page.
-/

set_option autoImplicit false

namespace OsPractices.Buddy

open Library

/-- The first pages of free blocks of one height. -/
def starts (height : Nat) (free : List Nat) : List Nat :=
  free.map fun pos => (⟨height, pos⟩ : DyadicBlock).start

@[simp] theorem starts_cons (height pos : Nat) (free : List Nat) :
    starts height (pos :: free) = (⟨height, pos⟩ : DyadicBlock).start :: starts height free := rfl

theorem mem_starts {height page : Nat} {free : List Nat} :
    page ∈ starts height free ↔ ∃ pos ∈ free, (⟨height, pos⟩ : DyadicBlock).start = page :=
  List.mem_map

theorem starts_injective (height : Nat) :
    Function.Injective fun pos => (⟨height, pos⟩ : DyadicBlock).start := by
  intro left right same
  exact congrArg DyadicBlock.pos (@DyadicBlock.ext_of_start ⟨height, left⟩ ⟨height, right⟩ rfl same)

theorem starts_erase (height pos : Nat) (free : List Nat) :
    starts height (free.erase pos) =
      (starts height free).erase (⟨height, pos⟩ : DyadicBlock).start :=
  List.map_erase (starts_injective height) free

structure FreeLists (state : State) (height : Nat) (free : Nat → List Nat) : Prop where
  inside : ∀ block : DyadicBlock, block.pos ∈ free block.height → block.Inside height
  apart : ∀ left right : DyadicBlock, left.pos ∈ free left.height →
    right.pos ∈ free right.height → left.start = right.start → left = right
  holds : ∀ h ≤ height, (state.links (h + 1)).Holds (starts h (free h))

/-- Two states with the same buckets whose records carry the same pointers at
the free blocks. -/
structure SamePointers (free : Nat → List Nat) (state next : State) : Prop where
  bucket : next.bucket = state.bucket
  pointers : ∀ block : DyadicBlock, block.pos ∈ free block.height →
    (next.metaArray block.start).next = (state.metaArray block.start).next ∧
      (next.metaArray block.start).prev = (state.metaArray block.start).prev

/-- What the list macros leave alone. -/
structure Relinked (list : Nat) (state next : State) : Prop where
  label : next.label = state.label
  count : next.count = state.count
  rankNum : next.rankNum = state.rankNum
  basePtr : next.basePtr = state.basePtr
  bucket : ∀ other, other ≠ list → next.bucket other = state.bucket other

theorem relinked_withLinks (state : State) (list : Nat) (links : Links Nat) :
    Relinked list state (state.withLinks list links) :=
  ⟨rfl, rfl, rfl, rfl, fun _ different => State.bucket_withLinks_of_ne state links different⟩

/-- What no operation on a region of `2 ^ height` pages writes: the base, the
buckets and counts of ranks the region does not have, and the records of pages
past its end. -/
structure Within (height : Nat) (state next : State) : Prop where
  basePtr : next.basePtr = state.basePtr
  bucket : ∀ rank, rank = 0 ∨ height + 1 < rank → next.bucket rank = state.bucket rank
  count : ∀ rank, rank = 0 ∨ height + 1 < rank → next.count rank = state.count rank
  label : ∀ page, 2 ^ height ≤ page → next.label page = state.label page

namespace Within

variable {state middle next : State} {height h : Nat}

theorem refl (height : Nat) (state : State) : Within height state state :=
  ⟨rfl, fun _ _ => rfl, fun _ _ => rfl, fun _ _ => rfl⟩

theorem trans (first : Within height state middle) (second : Within height middle next) :
    Within height state next where
  basePtr := second.basePtr.trans first.basePtr
  bucket rank outside := (second.bucket rank outside).trans (first.bucket rank outside)
  count rank outside := (second.count rank outside).trans (first.count rank outside)
  label page past := (second.label page past).trans (first.label page past)

theorem setCount (within : Within height state next) (bound : h ≤ height) (value : Nat) :
    Within height state { next with count := Function.update next.count (h + 1) value } where
  basePtr := within.basePtr
  bucket := within.bucket
  count rank outside := by
    have different : rank ≠ h + 1 := by omega
    simp only [Function.update_of_ne different]
    exact within.count rank outside
  label := within.label

theorem setMeta (within : Within height state next) (metaArray : Nat → ListT)
    (label : ∀ page, 2 ^ height ≤ page →
      State.label { next with metaArray := metaArray } page = next.label page) :
    Within height state { next with metaArray := metaArray } where
  basePtr := within.basePtr
  bucket := within.bucket
  count := within.count
  label page past := (label page past).trans (within.label page past)

end Within

/-- No record past the end of the region is in use. -/
def Blank (state : State) (height : Nat) : Prop :=
  ∀ page, 2 ^ height ≤ page → (state.metaArray page).status = .undef

theorem Blank.of_within {state next : State} {height : Nat} (blank : Blank state height)
    (within : Within height state next) : Blank next height := fun page past =>
  (congrArg Prod.fst (within.label page past)).trans (blank page past)

theorem Relinked.within {state next : State} {height h : Nat} (relinked : Relinked (h + 1) state next)
    (bound : h ≤ height) : Within height state next where
  basePtr := relinked.basePtr
  bucket rank outside := relinked.bucket rank (by omega)
  count rank _ := congrFun relinked.count rank
  label page _ := congrFun relinked.label page

namespace FreeLists

variable {state next : State} {height : Nat} {free : Nat → List Nat}

theorem congr (lists : FreeLists state height free) (same : SamePointers free state next) :
    FreeLists next height free where
  inside := lists.inside
  apart := lists.apart
  holds h bound := by
    have pointers : ∀ node ∈ starts h (free h),
        (next.metaArray node).next = (state.metaArray node).next ∧
          (next.metaArray node).prev = (state.metaArray node).prev := by
      intro node member
      obtain ⟨pos, inFree, start⟩ := mem_starts.mp member
      exact start ▸ same.pointers ⟨h, pos⟩ inFree
    exact (lists.holds h bound).congr (congrFun same.bucket _)
      (fun node member => (pointers node member).1) (fun node member => (pointers node member).2)

theorem bound_of_mem (lists : FreeLists state height free) (small : height < maxRankNum)
    {h page : Nat} (member : page ∈ starts h (free h)) : page < maxPageNum := by
  obtain ⟨pos, inFree, rfl⟩ := mem_starts.mp member
  exact start_lt_maxPageNum small (lists.inside ⟨h, pos⟩ inFree)

/-- A page on one list is not on another. -/
theorem notMem_other (lists : FreeLists state height free) (block : DyadicBlock)
    (member : block.pos ∈ free block.height) {h : Nat} (different : h ≠ block.height) :
    block.start ∉ starts h (free h) := by
  intro other
  obtain ⟨pos, inFree, start⟩ := mem_starts.mp other
  exact different (congrArg DyadicBlock.height (lists.apart ⟨h, pos⟩ block inFree member start))

theorem bucket_eq (lists : FreeLists state height free) {h : Nat} (bound : h ≤ height) :
    state.bucket (h + 1) = (starts h (free h)).head? :=
  (lists.holds h bound).head

/-- Pushing a block that no list holds. -/
theorem push (lists : FreeLists state height free) (small : height < maxRankNum)
    {block : DyadicBlock} (inside : block.Inside height)
    (fresh : ∀ other : DyadicBlock, other.pos ∈ free other.height →
      other.start ≠ block.start) :
    ∃ next, listPush state (block.height + 1) block.start = .ok next ∧
      Relinked (block.height + 1) state next ∧
      FreeLists next height
        (Function.update free block.height (block.pos :: free block.height)) := by
  have low := inside.1
  have old := lists.holds block.height low
  have outside : block.start ∉ starts block.height (free block.height) := by
    intro member
    obtain ⟨pos, inFree, start⟩ := mem_starts.mp member
    exact fresh ⟨block.height, pos⟩ inFree start
  have pushed := listPush_eq (show block.height + 1 ≤ maxRankNum by omega)
    (start_lt_maxPageNum small inside)
    (fun id first => lists.bound_of_mem small (old.head_mem first))
    (fun first => outside (old.head_mem first))
  refine ⟨_, pushed, relinked_withLinks _ _ _, ?_, ?_, ?_⟩
  · intro other member
    rcases (Pool.mem_update_cons free block other).mp member with same | inFree
    · exact same ▸ inside
    · exact lists.inside other inFree
  · intro left right inLeft inRight start
    rcases (Pool.mem_update_cons free block left).mp inLeft with leftNew | leftOld
    · rcases (Pool.mem_update_cons free block right).mp inRight with rightNew | rightOld
      · exact leftNew.trans rightNew.symm
      · exact absurd (start.symm.trans (congrArg _ leftNew)) (fresh right rightOld)
    · rcases (Pool.mem_update_cons free block right).mp inRight with rightNew | rightOld
      · exact absurd (start.trans (congrArg _ rightNew)) (fresh left leftOld)
      · exact lists.apart left right leftOld rightOld start
  · intro h bound
    by_cases same : h = block.height
    · subst same
      rw [State.links_withLinks, Function.update_self]
      exact old.push outside
    · rw [Function.update_of_ne same]
      have notPushed : ∀ node ∈ starts h (free h), node ≠ block.start := by
        intro node member equal
        obtain ⟨pos, inFree, start⟩ := mem_starts.mp member
        exact fresh ⟨h, pos⟩ inFree (start.trans equal)
      have notListed : ∀ node ∈ starts h (free h),
          node ∉ starts block.height (free block.height) := by
        intro node member inOther
        obtain ⟨pos, inFree, start⟩ := mem_starts.mp member
        exact lists.notMem_other ⟨h, pos⟩ inFree (Ne.symm same) (start ▸ inOther)
      refine (lists.holds h bound).congr ?_ ?_ ?_
      · exact State.bucket_withLinks_of_ne state _ (by omega)
      · intro node member
        exact Links.push_next_of_ne (notPushed node member)
      · intro node member
        exact old.push_prev_of_notMem (notPushed node member) (notListed node member)

/-- Unlinking a listed block. -/
private theorem unlinked (lists : FreeLists state height free) (block : DyadicBlock)
    (nodup : (free block.height).Nodup) (member : block.pos ∈ free block.height) :
    FreeLists (state.withLinks (block.height + 1)
        ((state.links (block.height + 1)).unlink block.start)) height
      (Function.update free block.height ((free block.height).erase block.pos)) := by
  have old := lists.holds block.height (lists.inside block member).1
  have listed : block.start ∈ starts block.height (free block.height) :=
    mem_starts.mpr ⟨block.pos, member, rfl⟩
  refine ⟨?_, ?_, ?_⟩
  · intro other inNew
    exact lists.inside other ((Pool.mem_update_erase nodup other).mp inNew).1
  · intro left right inLeft inRight start
    exact lists.apart left right ((Pool.mem_update_erase nodup left).mp inLeft).1
      ((Pool.mem_update_erase nodup right).mp inRight).1 start
  · intro h bound
    by_cases same : h = block.height
    · subst same
      rw [State.links_withLinks, Function.update_self, starts_erase]
      exact old.unlink listed
    · rw [Function.update_of_ne same]
      have notListed : ∀ node ∈ starts h (free h),
          node ∉ starts block.height (free block.height) := by
        intro node inList inOther
        obtain ⟨pos, inFree, start⟩ := mem_starts.mp inList
        exact lists.notMem_other ⟨h, pos⟩ inFree (Ne.symm same) (start ▸ inOther)
      refine (lists.holds h bound).congr ?_ ?_ ?_
      · exact State.bucket_withLinks_of_ne state _ (by omega)
      · intro node inList
        exact (old.unlink_of_notMem listed (notListed node inList)).1
      · intro node inList
        exact (old.unlink_of_notMem listed (notListed node inList)).2

theorem remove (lists : FreeLists state height free) (small : height < maxRankNum)
    {block : DyadicBlock} (nodup : (free block.height).Nodup)
    (member : block.pos ∈ free block.height) :
    ∃ next, listRemove state (block.height + 1) block.start = .ok next ∧
      Relinked (block.height + 1) state next ∧
      FreeLists next height
        (Function.update free block.height ((free block.height).erase block.pos)) := by
  have inside := lists.inside block member
  have low := inside.1
  have old := lists.holds block.height low
  have listed : block.start ∈ starts block.height (free block.height) :=
    mem_starts.mpr ⟨block.pos, member, rfl⟩
  have notSelf := old.notSelf listed
  have removed := listRemove_eq (show block.height + 1 ≤ maxRankNum by omega)
    (start_lt_maxPageNum small inside)
    (fun id points => lists.bound_of_mem small (old.next_mem listed points))
    (fun id points => lists.bound_of_mem small (old.prev_mem listed points))
    notSelf.1 notSelf.2
  exact ⟨_, removed, relinked_withLinks _ _ _, lists.unlinked block nodup member⟩

theorem pop (lists : FreeLists state height free) (small : height < maxRankNum)
    {h pos : Nat} {rest : List Nat} (nodup : (free h).Nodup) (head : free h = pos :: rest) :
    ∃ next, listPop state (h + 1) = .ok (some (⟨h, pos⟩ : DyadicBlock).start, next) ∧
      Relinked (h + 1) state next ∧ FreeLists next height (Function.update free h rest) := by
  have member : pos ∈ free h := by simp [head]
  have inside := lists.inside ⟨h, pos⟩ member
  have low : h ≤ height := inside.1
  have old := lists.holds h low
  have listed : (⟨h, pos⟩ : DyadicBlock).start ∈ starts h (free h) :=
    mem_starts.mpr ⟨pos, member, rfl⟩
  have first : state.bucket (h + 1) = some (⟨h, pos⟩ : DyadicBlock).start := by
    rw [lists.bucket_eq low, head]
    rfl
  have popped := listPop_eq (show h + 1 ≤ maxRankNum by omega) first
    (start_lt_maxPageNum small inside)
    (fun id points => lists.bound_of_mem small (old.next_mem listed points))
    (old.notSelf listed).1 (old.prev_head first)
  refine ⟨_, popped, relinked_withLinks _ _ _, ?_⟩
  have unlinked := lists.unlinked ⟨h, pos⟩ nodup member
  simp only [head, List.erase_cons_head] at unlinked
  exact unlinked

end FreeLists

end OsPractices.Buddy
