import OsPractices.Malloc.Valid

/-!
# The operations on valid layouts

Each operation keeps a layout valid, and changes the client's blocks as the
client expects.
-/

set_option autoImplicit false

namespace OsPractices.Malloc

open Library

/-- No two adjacent blocks are both free. -/
def Settled (blocks : List Block) : Prop :=
  blocks.IsChain fun left right => left.used = true ∨ right.used = true

structure Layout.Valid (least : Nat) (layout : Layout) : Prop where
  laid : Laid least layout.blocks layout.top
  lists : layout.bins.Lists (vacantOf layout.blocks)
  settled : Settled layout.blocks

/-- What a block was cut down to by `place`. -/
def Block.placedSize (block : Block) (size : Nat) : Nat :=
  if size + metaSize < block.size then size else block.size

theorem settled_split {front back : List Block} {block : Block} :
    Settled (front ++ block :: back) ↔
      (Settled front ∧ ∀ last ∈ front.getLast?, last.used = true ∨ block.used = true) ∧
        (Settled back ∧ ∀ next ∈ back.head?, block.used = true ∨ next.used = true) := by
  unfold Settled
  rw [List.isChain_append, List.isChain_cons]
  simp only [List.head?_cons, Option.mem_def, Option.some.injEq, forall_eq']
  tauto

theorem liveOf_split (front back : List Block) (block : Block) :
    liveOf (front ++ block :: back) =
      if block.used = true then insert block (liveOf (front ++ back))
      else liveOf (front ++ back) := by
  ext other
  cases used : block.used with
  | true => simp only [liveOf, List.mem_append, List.mem_cons, Set.mem_ofPred_eq, if_true,
      Set.mem_insert_iff]; grind
  | false => simp only [liveOf, List.mem_append, List.mem_cons, Set.mem_ofPred_eq]; grind

theorem vacantOf_split (front back : List Block) (block : Block) :
    vacantOf (front ++ block :: back) =
      if block.used = false then insert block (vacantOf (front ++ back))
      else vacantOf (front ++ back) := by
  ext other
  cases used : block.used with
  | true => simp only [vacantOf, List.mem_append, List.mem_cons, Set.mem_ofPred_eq]; grind
  | false => simp only [vacantOf, List.mem_append, List.mem_cons, Set.mem_ofPred_eq, if_true,
      Set.mem_insert_iff]; grind

variable {least top size : Nat} {front back : List Block} {block : Block} {bins : Bins}

/-- The two ways in which `place` ends. -/
theorem placeBetween_cut (large : size + 16 < block.size) :
    Layout.placeBetween front block back bins top size =
      ⟨front ++ ⟨block.off, size, true⟩ ::
          ⟨block.off + size, block.size - size, false⟩ :: back,
        bins.push ⟨block.off + size, block.size - size, false⟩, top⟩ := by
  simp [Layout.placeBetween, Block.placed, Bins.place, large]

theorem placeBetween_whole (tight : ¬ size + 16 < block.size) :
    Layout.placeBetween front block back bins top size =
      ⟨front ++ ⟨block.off, block.size, true⟩ :: back, bins, top⟩ := by
  simp [Layout.placeBetween, Block.placed, Bins.place, tight]

theorem Laid.cut (laid : Laid least (front ++ block :: back) top) (small : least ≤ 24)
    (enough : least ≤ size) (multiple : size % 8 = 0) (large : size + 16 < block.size) :
    Laid least (front ++ ⟨block.off, size, true⟩ ::
      ⟨block.off + size, block.size - size, false⟩ :: back) top := by
  have aligned := (laid.sizes block (by simp)).2
  have fills : ∀ {left right}, Block.Tiled left [block] right → Block.Tiled left
      [⟨block.off, size, true⟩, ⟨block.off + size, block.size - size, false⟩] right := by
    intro left right tiled
    simp only [Library.Tiled] at tiled ⊢
    omega
  rw [List.append_cons] at laid
  have replaced := laid.replace fills fun part member => by
    simp only [List.mem_cons, List.not_mem_nil, or_false] at member
    cases member with
    | inl isFirst => subst isFirst; exact ⟨enough, multiple⟩
    | inr isRest => subst isRest; simp only; omega
  simpa using replaced

/-- Change whether the client holds a block. -/
theorem Laid.mark (laid : Laid least (front ++ block :: back) top) (used : Bool) :
    Laid least (front ++ ⟨block.off, block.size, used⟩ :: back) top := by
  have sizes := laid.sizes block (by simp)
  have fills : ∀ {left right}, Block.Tiled left [block] right →
      Block.Tiled left [⟨block.off, block.size, used⟩] right := fun tiled => tiled
  rw [List.append_cons] at laid
  have replaced := laid.replace fills fun part member => by
    rw [List.mem_singleton.mp member]
    exact sizes
  simpa using replaced

theorem Laid.join {next : Block} (laid : Laid least (front ++ block :: next :: back) top) :
    Laid least (front ++ block.join next :: back) top := by
  have blockSizes := laid.sizes block (by simp)
  have nextSizes := laid.sizes next (by simp)
  have fills : ∀ {left right}, Block.Tiled left [block, next] right →
      Block.Tiled left [block.join next] right := by
    intro left right tiled
    simp only [Library.Tiled, Block.join] at tiled ⊢
    omega
  have regroup : front ++ block :: next :: back = front ++ [block, next] ++ back := by simp
  rw [regroup] at laid
  have replaced := laid.replace fills fun part member => by
    rw [List.mem_singleton.mp member]
    simp only [Block.join]
    omega
  simpa using replaced

/-- `place` on a block that has been taken out of its free list. -/
theorem placeBetween_valid (positive : 0 < least) (small : least ≤ 24) (enough : least ≤ size)
    (multiple : size % 8 = 0) (laid : Laid least (front ++ block :: back) top)
    (lists : bins.Lists (vacantOf (front ++ back))) (before : Settled front)
    (behind : Settled back) (next : ∀ other ∈ back.head?, other.used = true) :
    (Layout.placeBetween front block back bins top size).Valid least := by
  cases Nat.decLt (size + 16) block.size with
  | isTrue large =>
      have cut := laid.cut small enough multiple large
      have regroup : front ++ ⟨block.off, size, true⟩ ::
          ⟨block.off + size, block.size - size, false⟩ :: back =
          (front ++ [⟨block.off, size, true⟩]) ++
            ⟨block.off + size, block.size - size, false⟩ :: back := by simp
      have fresh := cut.off_ne positive regroup
      rw [placeBetween_cut large]
      refine ⟨cut, ?_, ?_⟩
      · simp only
        rw [regroup, vacantOf_split, if_pos rfl, List.append_assoc, List.singleton_append,
          vacantOf_split, if_neg (by simp)]
        apply lists.push
        intro other member
        apply fresh other
        rw [List.append_assoc]
        exact mem_beside _ member.1
      · simp only
        rw [regroup]
        refine settled_split.mpr ⟨⟨settled_split.mpr ⟨⟨before, by simp⟩, ?_, by simp⟩, by simp⟩,
          behind, fun other head => .inr (next other head)⟩
        exact List.isChain_nil
  | isFalse tight =>
      rw [placeBetween_whole tight]
      refine ⟨laid.mark true, ?_, ?_⟩
      · simp only
        rw [vacantOf_split, if_neg (by simp)]
        exact lists
      · exact settled_split.mpr ⟨⟨before, by simp⟩, behind, by simp⟩

theorem placeBetween_live :
    liveOf (Layout.placeBetween front block back bins top size).blocks =
      insert ⟨block.off, block.placedSize size, true⟩ (liveOf (front ++ back)) := by
  cases Nat.decLt (size + 16) block.size with
  | isTrue large =>
      have placed : block.placedSize size = size := if_pos large
      rw [placeBetween_cut large, placed]
      simp only
      rw [liveOf_split, if_pos rfl, liveOf_split, if_neg (by simp)]
  | isFalse tight =>
      have placed : block.placedSize size = block.size := if_neg tight
      rw [placeBetween_whole tight, placed]
      simp only
      rw [liveOf_split, if_pos rfl]

theorem placedSize_ge (fits : size ≤ block.size) : size ≤ block.placedSize size := by
  unfold Block.placedSize
  split
  · exact Nat.le_refl _
  · exact fits

/-! ## Allocation -/

/-- A valid layout split at one of its blocks. -/
theorem Layout.Valid.splitAt {layout : Layout} (valid : layout.Valid least) (positive : 0 < least)
    {block : Block} (member : block ∈ layout.blocks) :
    ∃ front back, layout.blocks = front ++ block :: back ∧
      locate block.off layout.blocks = some (front, block, back) := by
  obtain ⟨front, back, same⟩ := List.append_of_mem member
  exact ⟨front, back, same, valid.laid.locate_eq positive same⟩

theorem Layout.Valid.sizeOf_eq {layout : Layout} (valid : layout.Valid least)
    (positive : 0 < least) {block : Block} (member : block ∈ layout.blocks) :
    layout.sizeOf block.off = block.size :=
  valid.laid.sizeOf_eq positive member layout.bins

theorem Layout.Valid.fit_some {layout : Layout} (valid : layout.Valid least)
    (positive : 0 < least) {off : Nat} (found : layout.fit size = some off) :
    ∃ block ∈ layout.blocks, block.used = false ∧ block.off = off ∧ size ≤ block.size := by
  have fits : size ≤ layout.sizeOf off := by simpa using List.find?_some found
  obtain ⟨rank, _, listed⟩ := List.mem_flatMap.mp (List.mem_of_find?_eq_some found)
  obtain ⟨block, ⟨member, unused⟩, same, _⟩ := (valid.lists.mem_iff _ _).mp listed
  rw [← same, valid.sizeOf_eq positive member] at fits
  exact ⟨block, member, unused, same, fits⟩

/-- The search fails only where no free block is large enough: the list of a
large enough block is at or behind the one of the request. -/
theorem Layout.Valid.fit_none {layout : Layout} (valid : layout.Valid least)
    (positive : 0 < least) :
    layout.fit size = none ↔ ∀ block ∈ vacantOf layout.blocks, block.size < size := by
  constructor
  · intro missed block vacant
    by_contra fits
    have large : size ≤ block.size := Nat.le_of_not_lt fits
    have order := getRank_mono large
    have bound := getRank_lt block.size
    have searched : block.off ∈
        (List.range' (getRank size) (3 - getRank size)).flatMap layout.bins := by
      refine List.mem_flatMap.mpr ⟨getRank block.size, ?_, valid.lists.mem vacant⟩
      rw [List.mem_range'_1]
      omega
    have unfit := List.find?_eq_none.mp missed block.off searched
    rw [valid.sizeOf_eq positive vacant.1] at unfit
    exact unfit (by simpa using large)
  · intro short
    cases found : layout.fit size with
    | none => rfl
    | some off =>
        obtain ⟨block, inside, unused, _, fits⟩ := valid.fit_some positive found
        exact absurd fits (Nat.not_le.mpr (short block ⟨inside, unused⟩))

/-- What taking a free block out of its list leaves. -/
theorem Layout.Valid.take {layout : Layout} (valid : layout.Valid least) (positive : 0 < least)
    (split : layout.blocks = front ++ block :: back) (unused : block.used = false) :
    (layout.bins.remove block).Lists (vacantOf (front ++ back)) ∧ Settled front ∧ Settled back ∧
      ∀ other ∈ back.head?, other.used = true := by
  obtain ⟨⟨before, _⟩, behind, next⟩ := settled_split.mp (split ▸ valid.settled)
  have different := valid.laid.off_ne positive split
  have lists := valid.lists
  rw [split, vacantOf_split, if_pos unused] at lists
  refine ⟨lists.remove fun other member => different other member.1, before, behind, ?_⟩
  intro other head
  exact (next other head).resolve_left (by simp [unused])

/-- A block that the client gets is none of its earlier blocks. -/
structure Gains (old new : List Block) (block : Block) : Prop where
  live : liveOf new = insert block (liveOf old)
  used : block.used = true
  fresh : ∀ other ∈ liveOf old, other.off ≠ block.off

theorem Layout.Valid.malloc {layout next : Layout} {off : Nat} (valid : layout.Valid least)
    (positive : 0 < least) (small : least ≤ 24) (enough : least ≤ size) (multiple : size % 8 = 0)
    (result : layout.malloc size = some (off, next)) :
    next.Valid least ∧ ∃ block, block.off = off ∧ size ≤ block.size ∧
      Gains layout.blocks next.blocks block := by
  unfold Layout.malloc at result
  cases found : layout.fit size with
  | some candidate =>
      obtain ⟨block, member, unused, same, fits⟩ := valid.fit_some positive found
      obtain ⟨front, back, split, located⟩ := valid.splitAt positive member
      obtain ⟨lists, before, behind, after⟩ := valid.take positive split unused
      subst same
      simp only [found, located, Option.map_some, Option.some.injEq, Prod.mk.injEq] at result
      obtain ⟨rfl, rfl⟩ := result
      refine ⟨placeBetween_valid positive small enough multiple (split ▸ valid.laid) lists before
        behind after, ⟨block.off, block.placedSize size, true⟩, rfl, placedSize_ge fits, ?_⟩
      refine ⟨?_, rfl, ?_⟩
      · rw [placeBetween_live, split, liveOf_split, if_neg (by simp [unused])]
      · intro other live
        rw [split, liveOf_split, if_neg (by simp [unused])] at live
        exact valid.laid.off_ne positive split other live.1
  | none =>
      simp only [found] at result
      split at result
      case isFalse refused => cases result
      case isTrue granted =>
        simp only [Option.some.injEq, Prod.mk.injEq] at result
        obtain ⟨rfl, rfl⟩ := result
        have fresh : ∀ other ∈ layout.blocks, other.off ≠ layout.top := by
          intro other member
          have := valid.laid.bounds member
          omega
        refine ⟨⟨⟨?_, ?_, granted⟩, ?_, ?_⟩, ⟨layout.top, size, true⟩, rfl, Nat.le_refl _,
          ⟨?_, rfl, fun other live => fresh other live.1⟩⟩
        · exact Tiled.append_iff.mpr ⟨layout.top, valid.laid.tiled, rfl, rfl⟩
        · intro other member
          cases List.mem_append.mp member with
          | inl old => exact valid.laid.sizes other old
          | inr new =>
              rw [List.mem_singleton.mp new]
              exact ⟨enough, multiple⟩
        · simp only
          rw [vacantOf_split, if_neg (by simp), List.append_nil]
          exact valid.lists
        · exact settled_split.mpr ⟨⟨valid.settled, by simp⟩, List.isChain_nil, by simp⟩
        · simp only
          rw [liveOf_split, if_pos rfl, List.append_nil]

/-! ## Release -/

theorem Bins.Lists.coalesce {next : Block}
    (lists : bins.Lists (vacantOf (front ++ block :: next :: back)))
    (unused : block.used = false) (nextUnused : next.used = false) (positive : 0 < least)
    (laid : Laid least (front ++ block :: next :: back) top) :
    (bins.coalesce block next).Lists (vacantOf (front ++ block.join next :: back)) := by
  have regroup : front ++ block :: next :: back = (front ++ [block]) ++ next :: back := by simp
  have blockFresh := laid.off_ne positive rfl
  have nextFresh := laid.off_ne positive regroup
  have inner : front ++ [block] ++ back = front ++ block :: back := by simp
  rw [regroup, vacantOf_split, if_pos nextUnused, inner] at lists
  have fewer : (bins.remove next).Lists (insert block (vacantOf (front ++ back))) := by
    rw [vacantOf_split, if_pos unused] at lists
    refine lists.remove fun other member => nextFresh other ?_
    rw [inner]
    cases member with
    | inl isBlock => simp [isBlock]
    | inr old => exact mem_beside block old.1
  have outside : ∀ other ∈ vacantOf (front ++ back), other.off ≠ block.off := by
    intro other member
    exact blockFresh other (mem_beside next member.1)
  have joined : (block.join next).used = false := rfl
  rw [vacantOf_split, if_pos joined]
  exact (fewer.remove outside).push outside

/-- A block that `free` has just put into a free list. -/
structure Freed (least : Nat) (front : List Block) (block : Block) (back : List Block)
    (bins : Bins) (top : Nat) : Prop where
  laid : Laid least (front ++ block :: back) top
  lists : bins.Lists (vacantOf (front ++ block :: back))
  unused : block.used = false
  before : Settled front
  behind : Settled back

theorem Freed.absorbNext (freed : Freed least front block back bins top) (positive : 0 < least)
    {merged : Block} {rest : List Block} {bins' : Bins}
    (result : Layout.absorbNext block bins back = (merged, rest, bins')) :
    Freed least front merged rest bins' top ∧ (∀ next ∈ rest.head?, next.used = true) ∧
      liveOf (front ++ merged :: rest) = liveOf (front ++ block :: back) := by
  cases back with
  | nil =>
      obtain ⟨rfl, rfl, rfl⟩ : block = merged ∧ [] = rest ∧ bins = bins' := by
        simpa [Layout.absorbNext] using result
      exact ⟨freed, by simp, rfl⟩
  | cons next back =>
      cases used : next.used with
      | true =>
          obtain ⟨rfl, rfl, rfl⟩ : block = merged ∧ next :: back = rest ∧ bins = bins' := by
            simpa [Layout.absorbNext, used] using result
          exact ⟨freed, by simp [used], rfl⟩
      | false =>
          obtain ⟨rfl, rfl, rfl⟩ :
              block.join next = merged ∧ back = rest ∧ bins.coalesce block next = bins' := by
            simpa [Layout.absorbNext, used] using result
          obtain ⟨⟨_, _⟩, behind, after⟩ := settled_split.mp (show Settled ([] ++ next :: back) from
            freed.behind)
          refine ⟨⟨freed.laid.join, freed.lists.coalesce freed.unused used positive freed.laid, rfl,
            freed.before, behind⟩, ?_, ?_⟩
          · intro other head
            exact (after other head).resolve_left (by simp [used])
          · rw [liveOf_split, if_neg (by simp [Block.join]), liveOf_split,
              if_neg (by simp [freed.unused]), liveOf_split, if_neg (by simp [used])]

theorem Freed.absorbPrev (freed : Freed least front block back bins top) (positive : 0 < least)
    (after : ∀ next ∈ back.head?, next.used = true) {blocks : List Block} {bins' : Bins}
    (result : Layout.absorbPrev front block bins = (blocks, bins')) :
    (⟨blocks ++ back, bins', top⟩ : Layout).Valid least ∧
      liveOf (blocks ++ back) = liveOf (front ++ block :: back) := by
  cases List.eq_nil_or_concat front with
  | inl empty =>
      subst empty
      obtain ⟨rfl, rfl⟩ : [block] = blocks ∧ bins = bins' := by
        simpa [Layout.absorbPrev] using result
      refine ⟨⟨freed.laid, freed.lists, ?_⟩, rfl⟩
      exact settled_split.mpr ⟨⟨freed.before, by simp⟩, freed.behind, fun other head =>
        .inr (after other head)⟩
  | inr ends =>
      obtain ⟨front, prev, ends⟩ := ends
      rw [List.concat_eq_append] at ends
      subst ends
      have regroup : front ++ [prev] ++ block :: back = front ++ prev :: block :: back := by simp
      cases used : prev.used with
      | true =>
          obtain ⟨rfl, rfl⟩ : front ++ [prev] ++ [block] = blocks ∧ bins = bins' := by
            simpa [Layout.absorbPrev, used] using result
          have same : front ++ [prev] ++ [block] ++ back = front ++ [prev] ++ block :: back := by
            simp
          rw [same]
          refine ⟨⟨freed.laid, freed.lists, ?_⟩, rfl⟩
          exact settled_split.mpr ⟨⟨freed.before, by simp [used]⟩, freed.behind, fun other head =>
            .inr (after other head)⟩
      | false =>
          obtain ⟨rfl, rfl⟩ : front ++ [prev.join block] = blocks ∧
              bins.coalesce prev block = bins' := by
            simpa [Layout.absorbPrev, used] using result
          have same : front ++ [prev.join block] ++ back = front ++ prev.join block :: back := by
            simp
          have laid := freed.laid
          have lists := freed.lists
          obtain ⟨⟨before, last⟩, _⟩ := settled_split.mp freed.before
          rw [regroup] at laid lists ⊢
          rw [same]
          refine ⟨⟨laid.join, lists.coalesce used freed.unused positive laid, ?_⟩, ?_⟩
          · refine settled_split.mpr ⟨⟨before, fun other final => ?_⟩, freed.behind,
              fun other head => .inr (after other head)⟩
            exact .inl ((last other final).resolve_right (by simp [used]))
          · rw [liveOf_split, if_neg (by simp [Block.join]), liveOf_split, if_neg (by simp [used]),
              liveOf_split, if_neg (by simp [freed.unused])]

theorem Layout.Valid.freed {layout : Layout} (valid : layout.Valid least) (positive : 0 < least)
    (split : layout.blocks = front ++ block :: back) (used : block.used = true) :
    Freed least front { block with used := false } back (layout.bins.push block) layout.top := by
  obtain ⟨⟨before, _⟩, behind, _⟩ := settled_split.mp (split ▸ valid.settled)
  have lists := valid.lists
  rw [split, vacantOf_split, if_neg (by simp [used])] at lists
  have pushed : (layout.bins.push ⟨block.off, block.size, false⟩).Lists
      (insert ⟨block.off, block.size, false⟩ (vacantOf (front ++ back))) :=
    lists.push fun other member => valid.laid.off_ne positive split other member.1
  refine ⟨(split ▸ valid.laid).mark false, ?_, rfl, before, behind⟩
  rw [vacantOf_split, if_pos rfl]
  exact pushed

theorem Layout.Valid.releaseBetween {layout : Layout} (valid : layout.Valid least)
    (positive : 0 < least) (split : layout.blocks = front ++ block :: back)
    (used : block.used = true) :
    (Layout.releaseBetween front block back layout.bins layout.top).Valid least ∧
      liveOf (Layout.releaseBetween front block back layout.bins layout.top).blocks =
        liveOf (front ++ back) := by
  unfold Layout.releaseBetween
  obtain ⟨merged, rest, bins', next⟩ : ∃ merged rest bins', Layout.absorbNext
      { block with used := false } (layout.bins.push block) back = (merged, rest, bins') :=
    ⟨_, _, _, rfl⟩
  obtain ⟨freed, after, live⟩ := (valid.freed positive split used).absorbNext positive next
  obtain ⟨blocks, bins'', prev⟩ : ∃ blocks bins'', Layout.absorbPrev front merged bins' =
      (blocks, bins'') := ⟨_, _, rfl⟩
  obtain ⟨result, same⟩ := freed.absorbPrev positive after prev
  simp only [next, prev]
  refine ⟨result, same.trans (live.trans ?_)⟩
  rw [liveOf_split, if_neg (by simp)]

/-- The client's blocks but the one at an offset. -/
def liveBut (off : Nat) (blocks : List Block) : Set Block :=
  {other ∈ liveOf blocks | other.off ≠ off}

theorem liveBut_split (different : ∀ other ∈ front ++ back, other.off ≠ block.off) :
    liveBut block.off (front ++ block :: back) = liveOf (front ++ back) := by
  ext other
  constructor
  · intro ⟨⟨inside, used⟩, apart⟩
    simp only [List.mem_append, List.mem_cons] at inside
    rcases inside with inFront | isBlock | inBack
    · exact ⟨List.mem_append_left _ inFront, used⟩
    · exact absurd (congrArg Block.off isBlock) apart
    · exact ⟨List.mem_append_right _ inBack, used⟩
  · intro ⟨inside, used⟩
    refine ⟨⟨?_, used⟩, different other inside⟩
    simp only [List.mem_append, List.mem_cons] at inside ⊢
    exact inside.imp_right .inr

/-- Releasing a live block leaves the client all its other blocks. -/
theorem Layout.Valid.release {layout : Layout} (valid : layout.Valid least) (positive : 0 < least)
    {block : Block} (live : block ∈ liveOf layout.blocks) :
    (layout.release block.off).Valid least ∧
      liveOf (layout.release block.off).blocks =
        {other ∈ liveOf layout.blocks | other.off ≠ block.off} := by
  obtain ⟨member, used⟩ := live
  obtain ⟨front, back, split, located⟩ := valid.splitAt positive member
  obtain ⟨result, left⟩ := valid.releaseBetween positive split used
  unfold Layout.release
  simp only [located]
  have others := liveBut_split (valid.laid.off_ne positive split)
  rw [← split] at others
  exact ⟨result, left.trans others.symm⟩

/-! ## Resizing -/

/-- What `realloc` does to the client's blocks: the block has a successor, or
none where `realloc` returns no pointer. -/
structure Moves (old new : List Block) (block : Block) (bytes : Nat) (ret : Option Nat) :
    Prop where
  gone : ret = none → liveOf new = liveBut block.off old
  kept : ∀ off ∈ ret, ∃ next : Block, next.off = off ∧ next.used = true ∧
    liveOf new = insert next (liveBut block.off old) ∧
    (∀ other ∈ liveBut block.off old, other.off ≠ off) ∧
    (bytes + 24 ≤ 2 ^ 32 → bytes + 16 ≤ next.size)

theorem liveOf_liveBut {layout : Layout} (valid : layout.Valid least) (positive : 0 < least)
    (live : block ∈ liveOf layout.blocks) :
    liveOf layout.blocks = insert block (liveBut block.off layout.blocks) := by
  ext other
  constructor
  · intro inside
    cases Nat.decEq other.off block.off with
    | isTrue same => exact .inl (valid.laid.eq_of_off_eq positive inside.1 live.1 same)
    | isFalse apart => exact .inr ⟨inside, apart⟩
  · rintro (rfl | ⟨inside, _⟩)
    · exact live
    · exact inside

theorem Layout.Valid.reallocMove {layout next : Layout} (valid : layout.Valid least)
    (positive : 0 < least) (small : least ≤ 24) (live : block ∈ liveOf layout.blocks)
    {bytes : Nat} {ret : Option Nat}
    (result : layout.reallocMove block.off bytes = some (ret, next)) :
    next.Valid least ∧ Moves layout.blocks next.blocks block bytes ret := by
  have limit := maxHeap_eq
  unfold Layout.reallocMove at result
  split at result
  case isTrue zero =>
    cases result
    obtain ⟨valid', left⟩ := valid.release positive live
    exact ⟨valid', fun _ => left, nofun⟩
  case isFalse nonzero =>
    split at result
    case h_1 => cases result
    case h_2 new grown allocated =>
      split at result
      case isFalse => cases result
      case isTrue room =>
        cases result
        have whole : bytes + 24 ≤ 2 ^ 32 := by omega
        have fits := blockSize_ge whole
        have large : 24 ≤ blockSize bytes := by
          rw [blockSize_eq whole]
          omega
        obtain ⟨valid', gained, rfl, longer, gains⟩ :=
          valid.malloc positive small (by omega) (blockSize_aligned bytes) allocated
        have live' : block ∈ liveOf grown.blocks := gains.live ▸ Set.mem_insert_of_mem _ live
        obtain ⟨valid'', left⟩ := valid'.release positive live'
        refine ⟨valid'', nofun, ?_⟩
        rintro _ ⟨⟩
        refine ⟨gained, rfl, gains.used, ?_, fun other inside => gains.fresh other inside.1,
          fun _ => fits.trans longer⟩
        rw [left, gains.live]
        ext other
        constructor
        · rintro ⟨rfl | old, apart⟩
          · exact .inl rfl
          · exact .inr ⟨old, apart⟩
        · rintro (rfl | ⟨old, apart⟩)
          · exact ⟨.inl rfl, fun same => gains.fresh block live same.symm⟩
          · exact ⟨.inr old, apart⟩

/-- `realloc` of a live block keeps the layout valid. -/
theorem Layout.Valid.realloc {layout next : Layout} (valid : layout.Valid least)
    (positive : 0 < least) (small : least ≤ 24) (live : block ∈ liveOf layout.blocks)
    {bytes : Nat} {ret : Option Nat}
    (result : layout.realloc block.off bytes = some (ret, next)) :
    next.Valid least ∧ Moves layout.blocks next.blocks block bytes ret := by
  have limit := maxHeap_eq
  obtain ⟨front, back, whole, located⟩ := valid.splitAt positive live.1
  have bounds := valid.laid.bounds live.1
  have aligned : align (u64 (bytes + metaSize)) % 8 = 0 := by
    unfold align
    omega
  have covers : bytes + 24 ≤ 2 ^ 32 → bytes + 16 ≤ align (u64 (bytes + metaSize)) := by
    intro small
    simp only [align, u64, metaSize_eq, alignment]
    omega
  have moved : ∀ {ret next}, layout.reallocMove block.off (u32 bytes) = some (ret, next) →
      next.Valid least ∧ Moves layout.blocks next.blocks block bytes ret := by
    intro ret next result
    obtain ⟨valid', moves⟩ := valid.reallocMove positive small live result
    refine ⟨valid', moves.gone, fun off isRet => ?_⟩
    obtain ⟨gained, place, used, same, fresh, size⟩ := moves.kept off isRet
    refine ⟨gained, place, used, same, fresh, fun small => ?_⟩
    rw [u32_of_lt (by omega)] at size
    exact size small
  unfold Layout.realloc at result
  simp only [located] at result
  split at result
  case isTrue fits =>
    cases result
    refine ⟨valid, (fun isNone => by cases isNone), ?_⟩
    rintro _ ⟨⟩
    exact ⟨block, rfl, live.2, liveOf_liveBut valid positive live, fun other inside => inside.2,
      fun small => (covers small).trans fits⟩
  case isFalse grows =>
    cases back with
    | nil => exact moved result
    | cons succ rest =>
        simp only at result
        split at result
        case isFalse => exact moved result
        case isTrue fits =>
          cases result
          obtain ⟨free, fits⟩ := fits
          obtain ⟨blocks, bins, top⟩ := layout
          simp only at whole
          subst whole
          have regroup : front ++ block :: succ :: rest = (front ++ [block]) ++ succ :: rest := by
            simp
          obtain ⟨lists, before, behind, after⟩ := valid.take positive regroup free
          have inner : front ++ [block] ++ rest = front ++ block :: rest := by simp
          rw [inner, vacantOf_split, if_neg (by simp [live.2])] at lists
          have settled : Settled front := (settled_split.mp before).1.1
          have least' : least ≤ align (u64 (bytes + metaSize)) := by omega
          have others : liveBut block.off (front ++ block :: succ :: rest) =
              liveOf (front ++ rest) := by
            rw [liveBut_split (valid.laid.off_ne positive rfl), liveOf_split, if_neg (by simp [free])]
          refine ⟨placeBetween_valid positive small least' aligned valid.laid.join lists settled
            behind after, (fun isNone => by cases isNone), ?_⟩
          rintro _ ⟨⟩
          refine ⟨⟨block.off, (block.join succ).placedSize _, true⟩, rfl, rfl, ?_,
            fun other inside => inside.2, fun small => (covers small).trans (placedSize_ge fits)⟩
          rw [others]
          exact placeBetween_live

end OsPractices.Malloc
