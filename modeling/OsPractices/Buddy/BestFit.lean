import OsPractices.Buddy.Counts

/-!
# What `alloc_pages` takes

A request fails exactly when every aligned block of its size has a live page.
Otherwise it takes the first pages of the first block on the least list that is
not empty, and the rest of that block becomes one block on each list between.
-/

set_option autoImplicit false

namespace OsPractices.Buddy

open Library

namespace Pool

/-! ## The lists after splitting -/

/-- The lists when the first block of height `first`, at position `pos` and
followed by `rest`, has been cut down to height `height` and taken. -/
def cutFree (pool : Pool) (height first pos : Nat) (rest : List Nat) (h : Nat) : List Nat :=
  if h = first then rest
  else if height ≤ h ∧ h < first then [pos * 2 ^ (first - h) + 1]
  else pool.free h

theorem cutFree_first (pool : Pool) (height first pos : Nat) (rest : List Nat) :
    pool.cutFree height first pos rest first = rest :=
  if_pos rfl

theorem cutFree_between (pool : Pool) {height first h : Nat} (pos : Nat) (rest : List Nat)
    (low : height ≤ h) (high : h < first) :
    pool.cutFree height first pos rest h = [pos * 2 ^ (first - h) + 1] := by
  rw [cutFree, if_neg (by omega), if_pos ⟨low, high⟩]

theorem cutFree_other (pool : Pool) {height first h : Nat} (pos : Nat) (rest : List Nat)
    (other : h < height ∨ first < h) (low : height ≤ first) :
    pool.cutFree height first pos rest h = pool.free h := by
  rw [cutFree, if_neg (by omega), if_neg (by omega)]

/-- One turn of the splitting loop moves the cut one height down. -/
theorem cutFree_splitHead {pool : Pool} {height gap pos : Nat} {rest : List Nat}
    (head : pool.free (height + gap + 1) = pos :: rest) :
    (pool.splitHead (height + gap)).cutFree height (height + gap) (2 * pos) [2 * pos + 1] =
      pool.cutFree height (height + gap + 1) pos rest := by
  obtain ⟨low, high, others⟩ := free_splitHead head
  funext h
  rcases lt_trichotomy h (height + gap) with below | same | above
  · rcases Nat.lt_or_ge h height with outside | between
    · rw [cutFree_other _ _ _ (.inl outside) (by omega), cutFree_other _ _ _ (.inl outside) (by omega)]
      exact others h (by omega) (by omega)
    · rw [cutFree_between _ _ _ between below, cutFree_between _ _ _ between (by omega),
        show height + gap + 1 - h = height + gap - h + 1 by omega, pow_succ]
      congr 2
      ring
  · subst same
    rw [cutFree_first, cutFree_between _ _ _ (by omega) (by omega),
      show height + gap + 1 - (height + gap) = 1 by omega, pow_one, Nat.mul_comm]
  · rw [cutFree_other _ _ _ (.inr above) (by omega)]
    by_cases isHigh : h = height + gap + 1
    · subst isHigh
      rw [cutFree_first, high]
    · rw [cutFree_other _ _ _ (.inr (by omega)) (by omega)]
      exact others h (by omega) isHigh

theorem free_splitDown {pool : Pool} {height gap pos : Nat} {rest : List Nat}
    (head : pool.free (height + gap) = pos :: rest)
    (empty : ∀ lower, height ≤ lower → lower < height + gap → pool.free lower = []) :
    (pool.splitDown height gap).free =
      Function.update (pool.cutFree height (height + gap) pos rest) height
        (pos * 2 ^ gap :: pool.cutFree height (height + gap) pos rest height) := by
  induction gap generalizing pool pos rest with
  | zero =>
      funext h
      by_cases same : h = height
      · subst same
        simpa [Pool.splitDown, cutFree] using head
      · simp [Pool.splitDown, cutFree, same]
  | succ gap ih =>
      rw [← Nat.add_assoc] at head empty ⊢
      obtain ⟨low, -, others⟩ := free_splitHead head
      rw [empty (height + gap) (by omega) (by omega)] at low
      have below : ∀ lower, height ≤ lower → lower < height + gap →
          (pool.splitHead (height + gap)).free lower = [] := by
        intro lower atLeast under
        rw [others lower (by omega) (by omega)]
        exact empty lower atLeast (by omega)
      have rest := ih low below
      rw [cutFree_splitHead head] at rest
      rw [Pool.splitDown, rest, show 2 * pos * 2 ^ gap = pos * 2 ^ (gap + 1) by rw [pow_succ]; ring]

/-! ## Allocation -/

theorem takeHead_splitDown {pool : Pool} {height gap pos : Nat} {rest : List Nat}
    (head : pool.free (height + gap) = pos :: rest)
    (empty : ∀ lower, height ≤ lower → lower < height + gap → pool.free lower = []) :
    (pool.splitDown height gap).takeHead height =
      some (⟨height, pos * 2 ^ gap⟩,
        { height := pool.height
          free := pool.cutFree height (height + gap) pos rest
          live := pool.live ++ [⟨height, pos * 2 ^ gap⟩] }) := by
  have lists := free_splitDown head empty
  apply takeHead_eq_some_iff.mpr
  refine ⟨_, _, by rw [lists, Function.update_self], rfl, ?_⟩
  simp only [lists, Function.update_idem, Function.update_eq_self, live_splitDown, height_splitDown]

/-- What a successful allocation takes and what it leaves. -/
theorem alloc_cuts {pool next : Pool} {height : Nat} {block : DyadicBlock}
    (result : pool.alloc height = some (block, next)) :
    ∃ first pos rest, height ≤ first ∧ first ≤ pool.height ∧ pool.free first = pos :: rest ∧
      (∀ lower, height ≤ lower → lower < first → pool.free lower = []) ∧
      block = ⟨height, pos * 2 ^ (first - height)⟩ ∧
      next = { height := pool.height
               free := pool.cutFree height first pos rest
               live := pool.live ++ [block] } := by
  obtain ⟨first, least, taken⟩ := Option.bind_eq_some_iff.mp result
  obtain ⟨low, high, nonempty, empty⟩ := firstFree_eq_some least
  obtain ⟨pos, rest, head⟩ := List.exists_cons_of_ne_nil nonempty
  obtain ⟨gap, rfl⟩ := Nat.exists_eq_add_of_le low
  rw [Nat.add_sub_cancel_left, takeHead_splitDown head empty] at taken
  cases taken
  exact ⟨height + gap, pos, rest, low, high, head, empty, by rw [Nat.add_sub_cancel_left], rfl⟩

/-- Allocation fails only when the lists from `height` on are empty. -/
theorem alloc_eq_none_iff_lists {pool : Pool} {height : Nat} :
    pool.alloc height = none ↔ ∀ h, height ≤ h → h ≤ pool.height → pool.free h = [] := by
  constructor
  · intro result
    cases least : pool.firstFree height with
    | none => exact firstFree_eq_none least
    | some first =>
        obtain ⟨low, -, nonempty, empty⟩ := firstFree_eq_some least
        obtain ⟨pos, rest, head⟩ := List.exists_cons_of_ne_nil nonempty
        obtain ⟨gap, rfl⟩ := Nat.exists_eq_add_of_le low
        rw [Pool.alloc, least, Option.bind_some, Nat.add_sub_cancel_left,
          takeHead_splitDown head empty] at result
        cases result
  · intro empty
    cases result : pool.alloc height with
    | none => rfl
    | some found =>
        obtain ⟨first, pos, rest, low, high, head, -⟩ := alloc_cuts result
        rw [empty first low high] at head
        cases head

/-- A region without a live page lies in one free block. -/
theorem exists_free_of_clear {pool : Pool} (valid : pool.Valid) (canonical : pool.Canonical)
    {block : DyadicBlock} (inside : block.Inside pool.height)
    (clear : ∀ busy ∈ pool.live, ¬ busy.Overlaps block) :
    ∃ tile : DyadicBlock, tile.pos ∈ pool.free tile.height ∧ block.height ≤ tile.height ∧
      tile.Covers block.start := by
  obtain ⟨tile, member, covers⟩ := valid.tiles.cover _ inside.start_lt
  have free : tile.pos ∈ pool.free tile.height :=
    member.resolve_right fun live => clear tile live ⟨_, covers, block.covers_start⟩
  refine ⟨tile, free, ?_, covers⟩
  by_contra lower
  -- a smaller tile has a live page beside it, still within the block
  have below : tile.height + 1 ≤ block.height := Nat.lt_of_not_ge lower
  obtain ⟨busy, live, cell, inBusy, beside⟩ := canonical tile free (below.trans inside.1)
  apply clear busy live
  refine ⟨cell, inBusy, DyadicBlock.covers_of_le tile.parent block below ?_ block.covers_start ?_⟩
  · exact DyadicBlock.covers_parent_iff.mpr (.inl covers)
  · exact DyadicBlock.covers_parent_iff.mpr (.inr beside)

theorem alloc_eq_none_iff {pool : Pool} (valid : pool.Valid) (canonical : pool.Canonical)
    {height : Nat} :
    pool.alloc height = none ↔ ∀ block : DyadicBlock, block.height = height →
      block.Inside pool.height → ∃ busy ∈ pool.live, busy.Overlaps block := by
  rw [alloc_eq_none_iff_lists]
  constructor
  · intro empty block isHeight inside
    by_contra none
    obtain ⟨tile, free, le, -⟩ := exists_free_of_clear valid canonical inside
      fun busy live overlaps => none ⟨busy, live, overlaps⟩
    rw [empty tile.height (isHeight ▸ le) (valid.inside (.inl free)).1] at free
    cases free
  · intro busyAll h low high
    by_contra nonempty
    obtain ⟨pos, free⟩ := List.exists_mem_of_ne_nil _ nonempty
    -- the first block of the height within the free one
    obtain ⟨gap, rfl⟩ := Nat.exists_eq_add_of_le low
    have tileInside := valid.inside (.inl free : (⟨height + gap, pos⟩ : DyadicBlock) ∈ pool.blocks)
    have start : (⟨height, pos * 2 ^ gap⟩ : DyadicBlock).start =
        (⟨height + gap, pos⟩ : DyadicBlock).start := by
      simp only [DyadicBlock.start, pow_add]
      ring
    have inside : (⟨height, pos * 2 ^ gap⟩ : DyadicBlock).Inside pool.height := by
      refine ⟨low.trans high, ?_⟩
      have bound := tileInside.2
      calc pos * 2 ^ gap < 2 ^ (pool.height - (height + gap)) * 2 ^ gap :=
            Nat.mul_lt_mul_of_pos_right bound (by positivity)
        _ = 2 ^ (pool.height - height) := by
            rw [← pow_add]
            congr 1
            omega
    obtain ⟨busy, live, cell, inBusy, inBlock⟩ := busyAll _ rfl inside
    have inTile : (⟨height + gap, pos⟩ : DyadicBlock).Covers cell :=
      DyadicBlock.covers_of_le ⟨height, pos * 2 ^ gap⟩ ⟨height + gap, pos⟩ low
        (DyadicBlock.covers_start _) (start ▸ DyadicBlock.covers_start _) inBlock
    have same := valid.tiles.apart busy (.inr live) ⟨height + gap, pos⟩ (.inl free)
      ⟨cell, inBusy, inTile⟩
    subst same
    exact valid.apart _ live free

end Pool

/-! ## The lists and the records -/

/-- Every size-aligned block of a rank has a live page. -/
def NoHole (base : UInt64) (live : List Allocation) (rankNum rank : Nat) : Prop :=
  ∀ k < 2 ^ (rankNum - rank), ∃ page, page / 2 ^ (rank - 1) = k ∧ LivePage base live page

/-- `bucket[rank]` keeps its blocks in their order. -/
def SameBucket (state next : State) (rank : Nat) : Prop :=
  ∃ pages, (state.links rank).Holds pages ∧ (next.links rank).Holds pages

/-- The record stays out of use or keeps its status, rank and index. -/
def SameRecord (state next : State) (page : Nat) : Prop :=
  (state.metaArray page).status = .undef ∧ (next.metaArray page).status = .undef ∨
    next.label page = state.label page

/-- A call with `rank` took the first pages of the block that starts at `page`,
the first one on the least list from `rank` on that is not empty. -/
structure TakesFrom (base : UInt64) (state next : State) (rank : Nat) (ptr : UInt64)
    (found page : Nat) (behind : List Nat) : Prop where
  low : rank ≤ found
  high : found ≤ state.rankNum
  least : ∀ lower, rank ≤ lower → lower < found → (state.links lower).Holds []
  head : (state.links found).Holds (page :: behind)
  whole : (state.metaArray page).status = .unused ∧ (state.metaArray page).rank = found
  returned : ptr = pageAddress base page
  taken : (next.metaArray page).status = .used ∧ (next.metaArray page).rank = rank
  behind : (next.links found).Holds behind
  between : ∀ r, rank ≤ r → r < found → (next.links r).Holds [page + 2 ^ (r - 1)] ∧
    (next.metaArray (page + 2 ^ (r - 1))).status = .unused ∧
    (next.metaArray (page + 2 ^ (r - 1))).rank = r
  buckets : ∀ r, 1 ≤ r → r ≤ state.rankNum → r < rank ∨ found < r → SameBucket state next r
  records : ∀ other, other < page ∨ page + 2 ^ (found - 1) ≤ other → SameRecord state next other

theorem Pool.blockAt_congr {pool other : Pool} {page : Nat} (valid : pool.Valid)
    (otherValid : other.Valid)
    (same : ∀ block : DyadicBlock, block.start = page →
      (block ∈ other.blocks ↔ block ∈ pool.blocks)) :
    other.blockAt page = pool.blockAt page := by
  apply Option.ext
  intro block
  rw [otherValid.blockAt_eq_some, valid.blockAt_eq_some]
  constructor
  · intro found
    exact ⟨(same block found.2).mp found.1, found.2⟩
  · intro found
    exact ⟨(same block found.2).mpr found.1, found.2⟩

/-- Two pools with the same tile at a page give the page the same record. -/
theorem sameRecord_of_tiles {state next : State} {pool other : Pool} {page : Nat}
    (valid : pool.Valid) (represents : Represents state pool none) (otherValid : other.Valid)
    (otherRepresents : Represents next other none) (height : other.height = pool.height)
    (bound : page < 2 ^ pool.height)
    (blocks : ∀ block : DyadicBlock, block.start = page →
      (block ∈ other.blocks ↔ block ∈ pool.blocks))
    (live : ∀ block : DyadicBlock, block.start = page →
      (block ∈ other.live ↔ block ∈ pool.live)) : SameRecord state next page := by
  have before := represents.record valid bound
  have after := otherRepresents.record otherValid (height ▸ bound)
  rw [Pool.blockAt_congr valid otherValid blocks] at after
  cases found : pool.blockAt page with
  | none =>
      simp only [found] at before after
      exact .inl ⟨before, after⟩
  | some block =>
      simp only [found] at before after
      obtain ⟨-, start⟩ := valid.blockAt_eq_some.mp found
      simp only [live block start, height] at after
      right
      simp only [State.label, before, after]

section

variable {base : UInt64} {session : Session} {pool next : Pool}

theorem Tracks.noHole_iff (tracks : Tracks base session pool) {h : Nat} (low : h ≤ pool.height) :
    NoHole base session.live (pool.height + 1) (h + 1) ↔
      ∀ block : DyadicBlock, block.height = h → block.Inside pool.height →
        ∃ busy ∈ pool.live, busy.Overlaps block := by
  unfold NoHole
  rw [Nat.add_sub_add_right, Nat.add_sub_cancel]
  constructor
  · intro full block isHeight inside
    subst isHeight
    obtain ⟨page, covers, livePage⟩ := full block.pos inside.2
    obtain ⟨busy, live, inBusy⟩ := tracks.livePage_iff.mp livePage
    exact ⟨busy, live, page, inBusy, covers⟩
  · intro full k bound
    obtain ⟨busy, live, page, inBusy, covers⟩ := full ⟨h, k⟩ rfl ⟨low, bound⟩
    exact ⟨page, covers, tracks.livePage_iff.mpr ⟨busy, live, inBusy⟩⟩

/-- Off the block that was cut, the free blocks stay as they are. -/
theorem mem_cutFree_iff {height first pos : Nat} {rest : List Nat}
    (head : pool.free first = pos :: rest) (low : height ≤ first)
    (empty : ∀ lower, height ≤ lower → lower < first → pool.free lower = [])
    {block : DyadicBlock} (outside : ¬ (⟨first, pos⟩ : DyadicBlock).Covers block.start) :
    block.pos ∈ pool.cutFree height first pos rest block.height ↔
      block.pos ∈ pool.free block.height := by
  obtain ⟨h, k⟩ := block
  rcases lt_trichotomy h first with below | same | above
  · rcases Nat.lt_or_ge h height with under | between
    · rw [Pool.cutFree_other _ _ _ (.inl under) low]
    · rw [Pool.cutFree_between _ _ _ between below, empty h between below]
      refine iff_of_false ?_ List.not_mem_nil
      intro member
      obtain rfl := List.mem_singleton.mp member
      apply outside
      obtain ⟨gap, rfl⟩ := Nat.exists_eq_add_of_le below.le
      apply DyadicBlock.covers_iff.mpr
      have half : 2 ^ h ≤ 2 ^ (h + gap) := Nat.pow_le_pow_right (by decide) (by omega)
      have strict : 2 ^ h < 2 ^ (h + gap) := Nat.pow_lt_pow_right (by decide) below
      simp only [DyadicBlock.start, Nat.add_sub_cancel_left, Nat.add_mul, Nat.one_mul,
        Nat.mul_assoc, ← pow_add, Nat.add_comm gap h]
      exact ⟨Nat.le_add_right _ _, Nat.add_lt_add_left strict _⟩
  · subst same
    rw [Pool.cutFree_first, head, List.mem_cons]
    refine (or_iff_right ?_).symm
    intro isCut
    obtain rfl : k = pos := isCut
    exact outside (DyadicBlock.covers_start _)
  · rw [Pool.cutFree_other _ _ _ (.inr above) low]

/-- What a successful call does to the lists and the records. -/
theorem Tracks.alloc_takes (tracks : Tracks base session pool) {h : Nat} {block : DyadicBlock}
    {after : State} (result : pool.alloc h = some (block, next))
    (represents : Represents after next none) (within : Within pool.height session.state after) :
    ∃ found page behind, TakesFrom base session.state after (h + 1)
      (pageAddress base block.start) found page behind := by
  have before := tracks.represents
  obtain ⟨nextValid, -, -, sameHeight, -⟩ :=
    Pool.alloc_eq_some tracks.valid tracks.canonical result
  obtain ⟨first, pos, rest, low, high, head, empty, rfl, rfl⟩ := Pool.alloc_cuts result
  have start : (⟨h, pos * 2 ^ (first - h)⟩ : DyadicBlock).start =
      (⟨first, pos⟩ : DyadicBlock).start := by
    simp only [DyadicBlock.start, Nat.mul_assoc, ← pow_add, Nat.sub_add_cancel low]
  have lists : ∀ height ≤ pool.height, (after.links (height + 1)).Holds
      (starts height (pool.cutFree h first pos rest height)) := represents.lists.holds
  have unused := before.unused ⟨first, pos⟩ (by simp [head])
  have used := represents.used ⟨h, pos * 2 ^ (first - h)⟩
    (List.mem_append_right _ (List.mem_singleton_self _)) (by simp)
  simp only [State.label, Prod.mk.injEq] at unused used
  refine ⟨first + 1, (⟨first, pos⟩ : DyadicBlock).start, starts first rest, ?_⟩
  constructor
  case low => omega
  case high =>
    rw [before.rankNum]
    omega
  case least =>
    intro lower atLeast under
    obtain ⟨height, rfl⟩ : ∃ height, lower = height + 1 := ⟨lower - 1, by omega⟩
    have holds := before.lists.holds height (by omega)
    rw [empty height (by omega) (by omega)] at holds
    exact holds
  case head =>
    have holds := before.lists.holds first high
    rw [head] at holds
    exact holds
  case whole => exact ⟨unused.1, unused.2.1⟩
  case returned => rw [start]
  case taken => exact start ▸ ⟨used.1, used.2.1⟩
  case behind =>
    have holds := lists first high
    rw [Pool.cutFree_first] at holds
    exact holds
  case between =>
    intro r atLeast under
    obtain ⟨height, rfl⟩ : ∃ height, r = height + 1 := ⟨r - 1, by omega⟩
    have half := pool.cutFree_between pos rest (show h ≤ height by omega) (show height < first by omega)
    have page : (⟨height, pos * 2 ^ (first - height) + 1⟩ : DyadicBlock).start =
        (⟨first, pos⟩ : DyadicBlock).start + 2 ^ height := by
      simp only [DyadicBlock.start, Nat.add_mul, Nat.one_mul, Nat.mul_assoc, ← pow_add,
        Nat.sub_add_cancel (show height ≤ first by omega)]
    have holds := lists height (by omega)
    have record := represents.unused ⟨height, pos * 2 ^ (first - height) + 1⟩ (by simp [half])
    rw [half, starts_cons, page] at holds
    rw [page] at record
    simp only [State.label, Prod.mk.injEq] at record
    exact ⟨holds, record.1, record.2.1⟩
  case buckets =>
    intro r positive inRange outside
    obtain ⟨height, rfl⟩ : ∃ height, r = height + 1 := ⟨r - 1, by omega⟩
    rw [before.rankNum] at inRange
    have holds := lists height (by omega)
    rw [Pool.cutFree_other _ _ _ (by omega) low] at holds
    exact ⟨_, before.lists.holds height (by omega), holds⟩
  case records =>
    intro other outside
    rw [Nat.add_sub_cancel] at outside
    have notCovered : ¬ (⟨first, pos⟩ : DyadicBlock).Covers other := by
      intro covers
      obtain ⟨atLeast, under⟩ : _ ∧ other < _ + 2 ^ first := DyadicBlock.covers_iff.mp covers
      omega
    by_cases bound : other < 2 ^ pool.height
    · have live : ∀ tile : DyadicBlock, tile.start = other →
          (tile ∈ pool.live ++ [⟨h, pos * 2 ^ (first - h)⟩] ↔ tile ∈ pool.live) := by
        intro tile at_
        rw [List.mem_append, List.mem_singleton]
        refine or_iff_left ?_
        intro isTaken
        apply notCovered
        rw [← at_, isTaken, start]
        exact DyadicBlock.covers_start _
      refine sameRecord_of_tiles tracks.valid before nextValid represents rfl bound ?_ live
      intro tile at_
      rw [Pool.mem_blocks, Pool.mem_blocks, mem_cutFree_iff head low empty (at_ ▸ notCovered),
        live tile at_]
    · exact .inr (within.label other (by omega))

end

/-- `alloc_pages` refuses a rank the region does not have, fails exactly when no
aligned block of the rank is clear, and otherwise takes the first block of the
least rank that has one. -/
theorem alloc_complete_best_fit (base : UInt64) (pgcount : Nat) (positive : 1 ≤ pgcount)
    (bound : pgcount < 2 ^ 20) (calls : List Call)
    (client : returnsLiveFrom base pgcount calls = true) :
    ∃ replies last, runFrom programStart base pgcount calls = .ok (replies, last) ∧
      last.state.rankNum = pgcount.log2 + 1 ∧
      ∀ rank : Int, ∃ result next, allocPages last.state rank = .ok (result, next) ∧
        (result = .error .einval ↔ rank < 1 ∨ last.state.rankNum < rank) ∧
        (result = .error .enospc ↔ 1 ≤ rank ∧ rank ≤ last.state.rankNum ∧
          NoHole base last.live last.state.rankNum rank.toNat) ∧
        (∀ ptr, result = .ok ptr → ∃ found page behind,
          TakesFrom base last.state next rank.toNat ptr found page behind) ∧
        ∀ errno, result = .error errno → next = last.state := by
  obtain ⟨replies, last, pool, run, tracks, height, -⟩ := clientRun_tracks base positive bound client
  have represents := tracks.represents
  have rankNum := represents.rankNum
  refine ⟨replies, last, run, by rw [rankNum, height], ?_⟩
  intro rank
  rw [rankNum]
  by_cases invalid : rank < 1 ∨ (pool.height : Int) + 1 < rank
  · refine ⟨.error .einval, last.state, allocPages_invalid represents invalid, ?_⟩
    refine ⟨iff_of_true rfl (by push_cast; exact invalid), iff_of_false (by simp) ?_, by simp,
      fun _ _ => rfl⟩
    intro ⟨low, high, _⟩
    push_cast at high
    omega
  · obtain ⟨h, rfl⟩ : ∃ h : Nat, rank = (h + 1 : Nat) := ⟨rank.toNat - 1, by omega⟩
    have low : h ≤ pool.height := by omega
    have result := allocPages_represents tracks.valid represents low
    have noHole := (tracks.noHole_iff low).trans
      (Pool.alloc_eq_none_iff tracks.valid tracks.canonical).symm
    rw [Int.toNat_natCast, noHole]
    cases taken : pool.alloc h with
    | none =>
        simp only [taken] at result
        refine ⟨.error .enospc, last.state, result, iff_of_false (by simp) ?_,
          iff_of_true rfl ⟨by omega, by omega, rfl⟩, by simp, fun _ _ => rfl⟩
        push_cast
        exact invalid
    | some found =>
        obtain ⟨block, next⟩ := found
        simp only [taken] at result
        obtain ⟨after, call, afterRepresents, within⟩ := result
        rw [tracks.basePtr] at call
        refine ⟨.ok (pageAddress base block.start), after, call, iff_of_false (by simp) ?_,
          iff_of_false (by simp) (by simp), ?_, by simp⟩
        · push_cast
          exact invalid
        · intro ptr same
          cases same
          exact tracks.alloc_takes taken afterRepresents within

theorem alloc_complete_best_fit_after_return :
    ∃ replies last, runFrom programStart 0x100000 11
        [.allocPages 1, .allocPages 3, .returnPages 0x100000] = .ok (replies, last) ∧
      last.state.rankNum = Nat.log2 11 + 1 ∧
      ∀ rank : Int, ∃ result next, allocPages last.state rank = .ok (result, next) ∧
        (result = .error .einval ↔ rank < 1 ∨ last.state.rankNum < rank) ∧
        (result = .error .enospc ↔ 1 ≤ rank ∧ rank ≤ last.state.rankNum ∧
          NoHole 0x100000 last.live last.state.rankNum rank.toNat) ∧
        (∀ ptr, result = .ok ptr → ∃ found page behind,
          TakesFrom 0x100000 last.state next rank.toNat ptr found page behind) ∧
        ∀ errno, result = .error errno → next = last.state :=
  alloc_complete_best_fit 0x100000 11 (by decide) (by decide)
    [.allocPages 1, .allocPages 3, .returnPages 0x100000] (by decide +kernel)

end OsPractices.Buddy
