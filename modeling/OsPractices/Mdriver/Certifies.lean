import OsPractices.Mdriver.Books

/-!
# What a passed trace certifies

Any package whatever: if `eval_mm_valid` goes through a trace and reports
nothing, each request of it was answered as an allocator must. One thing escapes
`add_range`: a new block around an old one.
-/

set_option autoImplicit false

namespace OsPractices.Mdriver

open Library
open Malloc (State Mapped null u64 offsetT maxHeap memHeapHi memInit memResetBrk)

/-- `mem_sbrk` is all that a package can do to the heap. -/
structure Grows (state later : State) : Prop where
  heap : later.heap = state.heap
  maxAddr : later.memMaxAddr = state.memMaxAddr
  brk : state.memBrk ≤ later.memBrk
  top : state.memBrk ≤ state.memMaxAddr → later.memBrk ≤ later.memMaxAddr

theorem Grows.of_memory {state later : State} (same : later = { state with mem := later.mem }) :
    Grows state later := by
  rw [same]
  exact ⟨rfl, rfl, Nat.le_refl _, id⟩

structure Package.Confined (package : Package) : Prop where
  mmInit {state later : State} {ret : Int} :
    package.mmInit state = .ok (ret, later) → Grows state later
  mmMalloc {state later : State} {size ptr : Nat} :
    package.mmMalloc state size = .ok (ptr, later) → Grows state later
  mmFree {state later : State} {ptr : Nat} :
    package.mmFree state ptr = .ok later → Grows state later
  mmRealloc {state later : State} {oldptr size ptr : Nat} :
    package.mmRealloc state oldptr size = .ok (ptr, later) → Grows state later

/-- All that `add_range` asks of a new block and one that it has recorded: they
keep apart, or the new one reaches beyond the other at both ends. -/
def Beside (extent other : Extent) : Prop :=
  extent.Apart other ∨ extent.start < other.start ∧ other.stop < extent.stop

theorem Beside.start_ne {extent other : Extent} (beside : Beside extent other)
    (room : 0 < extent.length) (otherRoom : 0 < other.length) : extent.start ≠ other.start := by
  cases beside with
  | inl apart => exact apart.start_ne room otherRoom
  | inr around => exact Nat.ne_of_lt around.1

/-- What a block that is returned for an id has to satisfy. -/
structure Fits (state : State) (book : List Holding) (index : Int) (extent : Extent) : Prop where
  room : 0 < extent.length
  aligned : extent.start % Malloc.alignment = 0
  within : extent.Within state.heap state.memBrk
  beside : ∀ holding ∈ book, holding.index ≠ index → Beside extent holding.extent

/-- The range list and the arrays agree on the blocks of the book, latest first. -/
structure Vetted (setting : Setting) (trace : Trace) (slots : Slots) (book : List Holding)
    (driver : Driver) : Prop where
  mapped : Mapped driver.state
  low : driver.state.heap ≤ driver.state.memBrk
  top : driver.state.memBrk ≤ driver.state.memMaxAddr
  ranges : driver.ranges = listed setting trace book
  placed : ∀ holding ∈ book, 0 < holding.extent.length ∧
    holding.extent.start % Malloc.alignment = 0 ∧
    holding.extent.Within driver.state.heap driver.state.memBrk
  beside : (book.map Holding.extent).Pairwise Beside
  keeps : Keeps trace slots book driver

/-- Errors have been reported, and nothing else has changed. -/
structure Reports (driver after : Driver) : Prop where
  same : after = { driver with errors := after.errors, output := after.output }
  errors : driver.errors ≤ after.errors

variable {setting : Setting} {trace : Trace} {slots : Slots} {book : List Holding}
  {driver after : Driver} {opnum : Nat} {index : Int}

theorem Reports.refl (driver : Driver) : Reports driver driver := ⟨rfl, Nat.le_refl _⟩

theorem Reports.trans {middle : Driver} (first : Reports driver middle)
    (second : Reports middle after) : Reports driver after := by
  refine ⟨?_, first.errors.trans second.errors⟩
  rw [second.same, first.same]

theorem Reports.exists (reports : Reports driver after) : ∃ errors output,
    driver.errors ≤ errors ∧ after = { driver with errors := errors, output := output } :=
  ⟨_, _, reports.errors, reports.same⟩

/-- Nothing that `check_index` looks at has changed. -/
theorem Reports.intact_iff (reports : Reports driver after) :
    Intact setting after index ↔ Intact setting driver index := by
  rw [reports.same]
  rfl

theorem checkIndex_reports (run : checkIndex setting trace driver opnum index = .ok after) :
    Reports driver after ∧ (after.errors = driver.errors → 0 ≤ index →
      setting.debugMode ≠ .none → Intact setting driver index) := by
  unfold checkIndex at run
  split at run
  case isTrue negative =>
    cases run
    exact ⟨.refl _, fun _ low => absurd negative (Int.not_lt.mpr low)⟩
  case isFalse =>
    split at run
    case isTrue quiet =>
      cases run
      exact ⟨.refl _, fun _ _ checks => absurd quiet checks⟩
    case isFalse =>
      obtain ⟨block, isBlock, run⟩ := bind_eq_ok_iff.mp run
      obtain ⟨size, isSize, run⟩ := bind_eq_ok_iff.mp run
      obtain ⟨base, isBase, run⟩ := bind_eq_ok_iff.mp run
      split at run
      case isFalse => cases run
      case isTrue inside =>
        split at run
        case h_1 nothing =>
          cases run
          refine ⟨.refl _, fun _ _ _ => ⟨block, size, base, isBlock, isSize, isBase, inside,
            fun offset below => ?_⟩⟩
          have same := List.filter_eq_nil_iff.mp nothing offset (List.mem_range.mpr below)
          simpa using same
        case h_2 first rest found =>
          cases run
          exact ⟨⟨rfl, Nat.le_succ _⟩, fun same => absurd same (Nat.succ_ne_self _)⟩

theorem checkRanges_reports {ranges : List Range}
    (run : ranges.foldlM (fun driver range => checkIndex setting trace driver opnum range.index)
      driver = .ok after) :
    Reports driver after ∧ (after.errors = driver.errors → setting.debugMode ≠ .none →
      ∀ range ∈ ranges, 0 ≤ range.index → Intact setting driver range.index) := by
  induction ranges generalizing driver with
  | nil =>
      cases run
      exact ⟨.refl _, fun _ _ range member => absurd member List.not_mem_nil⟩
  | cons range ranges ih =>
      rw [List.foldlM_cons] at run
      obtain ⟨middle, checked, run⟩ := bind_eq_ok_iff.mp run
      obtain ⟨reports, intact⟩ := checkIndex_reports checked
      obtain ⟨reports', intact'⟩ := ih run
      refine ⟨reports.trans reports', fun silent checks other member low => ?_⟩
      have errors := reports.errors
      have errors' := reports'.errors
      cases List.mem_cons.mp member with
      | inl isFirst => exact isFirst ▸ intact (by omega) (isFirst ▸ low) checks
      | inr inside => exact reports.intact_iff.mp (intact' (by omega) checks other inside low)

theorem checkAll_reports (run : checkAll setting trace driver opnum = .ok after) :
    Reports driver after ∧ (after.errors = driver.errors → setting.debugMode = .expensive →
      ∀ range ∈ driver.ranges, 0 ≤ range.index → Intact setting driver range.index) := by
  unfold checkAll at run
  split at run
  case isTrue expensive =>
    obtain ⟨_, _, run⟩ := bind_eq_ok_iff.mp run
    obtain ⟨reports, intact⟩ := checkRanges_reports run
    exact ⟨reports, fun silent _ => intact silent (by rw [expensive]; decide)⟩
  case isFalse cheap =>
    cases run
    exact ⟨.refl _, fun _ expensive => absurd expensive cheap⟩

/-! ## The range list -/

/-- A range that keeps clear of the ends of a new block. -/
theorem beside_of_not_meets {extent other : Extent} (otherRoom : 0 < other.length)
    (clear : ¬ (rangeOf index other).Meets extent.start (extent.stop - 1)) :
    Beside extent other := by
  unfold Range.Meets rangeOf Extent.stop at clear
  unfold Beside Extent.Apart Extent.stop
  dsimp only at clear
  omega

/-- A block that `add_range` lets through. -/
theorem addRange_fits {p size : Nat} (recorded : Recorded setting trace)
    (mapped : Mapped driver.state) (low : driver.state.heap ≤ driver.state.memBrk)
    (top : driver.state.memBrk ≤ driver.state.memMaxAddr)
    (ranges : driver.ranges = listed setting trace book)
    (rooms : ∀ holding ∈ book, 0 < holding.extent.length) (small : size < 2 ^ 31)
    (run : addRange setting trace driver p (offsetT size) opnum index = .ok (true, after)) :
    Fits driver.state book index ⟨p, size⟩ ∧
      after = { driver with ranges := rangeOf index ⟨p, size⟩ :: driver.ranges } := by
  have below := mapped.below
  have positive := mapped.positive
  have limit := Malloc.maxHeap_eq
  rw [mapped.maxAddr] at top
  have isSize : offsetT size = size := Malloc.offsetT_of_small (by omega) (by omega)
  have heapHi : memHeapHi driver.state = driver.state.memBrk - 1 := by
    unfold memHeapHi u64
    omega
  have last : p ≤ memHeapHi driver.state → 0 < size → u64 (p + (size : Int) - 1) = p + size - 1 := by
    unfold u64
    omega
  unfold addRange at run
  rw [isSize] at run
  dsimp only at run
  split at run
  case isTrue => cases run
  case isFalse nonempty =>
    have room : 0 < size := by omega
    split at run
    case isTrue => cases run
    case isFalse aligned =>
      split at run
      case isTrue => cases run
      case isFalse inside =>
        have isLast := last (by omega) room
        rw [isLast] at inside run
        rw [if_neg (by simp [recorded.1, recorded.2])] at run
        split at run
        case h_1 => cases run
        case h_2 free =>
          cases run
          refine ⟨⟨room, by simpa using aligned, ?_, fun holding member _ => ?_⟩, rfl⟩
          · unfold memHeapLo at inside
            unfold Extent.Within Extent.stop
            dsimp only
            omega
          · have inList : holding.range ∈ driver.ranges := by
              rw [ranges, listed, if_pos recorded]
              exact List.mem_map_of_mem member
            have clear := List.find?_eq_none.mp free holding.range inList
            exact beside_of_not_meets (rooms holding member) fun meets =>
              clear (decide_eq_true meets)

namespace Vetted

theorem contains (vetted : Vetted setting trace slots book driver) {extent : Extent}
    (within : extent.Within driver.state.heap driver.state.memBrk) :
    driver.state.Contains extent.start extent.length := by
  have top := vetted.top
  rw [vetted.mapped.maxAddr] at top
  exact ⟨within.1, Nat.le_trans within.2 top⟩

/-- What a call does to the heap. -/
theorem grown (vetted : Vetted setting trace slots book driver) {later : State}
    (grows : Grows driver.state later) :
    Vetted setting trace slots book { driver with state := later } where
  mapped := vetted.mapped.of_same grows.heap grows.maxAddr
  low := grows.heap ▸ Nat.le_trans vetted.low grows.brk
  top := grows.top vetted.top
  ranges := vetted.ranges
  placed holding member := by
    obtain ⟨room, aligned, low, high⟩ := vetted.placed holding member
    exact ⟨room, aligned, grows.heap ▸ low, Nat.le_trans high grows.brk⟩
  beside := vetted.beside
  keeps := vetted.keeps.of_same _ rfl rfl rfl

theorem of_reports (vetted : Vetted setting trace slots book driver)
    (reports : Reports driver after) : Vetted setting trace slots book after := by
  rw [reports.same]
  exact ⟨vetted.mapped, vetted.low, vetted.top, vetted.ranges, vetted.placed, vetted.beside,
    vetted.keeps.of_same _ rfl rfl rfl⟩

theorem forget (vetted : Vetted setting trace slots book driver)
    (notLive : ¬ (slots index).IsLive) :
    Vetted setting trace (Function.update slots index .stale) book driver :=
  { vetted with keeps := vetted.keeps.forget notLive }

/-- `remove_range` for an id with a block. -/
theorem remove {front back : List Holding} {holding : Holding}
    (vetted : Vetted setting trace slots (front ++ holding :: back) driver) :
    Vetted setting trace (Function.update slots holding.index .stale) (front ++ back)
      (removeRange driver holding.extent.start) := by
  have fewer : List.Sublist (front ++ back) (front ++ holding :: back) :=
    (List.sublist_cons_self _ _).append_left _
  have ordered := vetted.beside
  rw [List.map_append, List.map_cons] at ordered
  have away := (List.pairwise_append.mp ordered).2.2
  have room := (vetted.placed holding (by simp)).1
  refine ⟨vetted.mapped, vetted.low, vetted.top, removeRange_listed (fun other inside => ?_)
    vetted.ranges, fun other member => vetted.placed other (fewer.subset member),
    vetted.beside.sublist (fewer.map _), vetted.keeps.remove.of_same _ rfl rfl rfl⟩
  have otherRoom := (vetted.placed other (List.mem_append_left _ inside)).1
  exact (away _ (List.mem_map_of_mem inside) _ List.mem_cons_self).start_ne otherRoom room

/-- `remove_range` for an id without one. -/
theorem removeNull (vetted : Vetted setting trace slots book driver) :
    Vetted setting trace slots book (removeRange driver null) := by
  refine ⟨vetted.mapped, vetted.low, vetted.top, removeNull_listed (fun holding member => ?_)
    vetted.ranges, vetted.placed, vetted.beside, vetted.keeps.of_same _ rfl rfl rfl⟩
  exact Nat.lt_of_lt_of_le vetted.mapped.positive (vetted.placed holding member).2.2.1

/-- A new block that fits is entered in the list and the arrays. -/
theorem fillLive (recorded : Recorded setting trace)
    (vetted : Vetted setting trace (Function.update slots index .stale) book driver)
    {extent : Extent} (fits : Fits driver.state book index extent)
    (named : 0 ≤ index ∧ index < trace.numIds)
    (grows : Grows driver.state after.state)
    (ranges : after.ranges = rangeOf index extent :: driver.ranges)
    (keeps : Keeps trace (Function.update slots index .stale) book after)
    (isBlock : element after.blocks index = .ok extent.start)
    (isSize : element after.blockSizes index = .ok extent.length) :
    Vetted setting trace (Function.update slots index (.live extent.length))
      (⟨index, extent⟩ :: book) after := by
  obtain ⟨mapped, low, top, _, placed, beside, _⟩ := vetted.grown grows
  refine ⟨mapped, low, top, ?_, fun holding member => ?_, ?_, keeps.fillLive named extent isBlock isSize⟩
  · rw [ranges, vetted.ranges, listed, listed, if_pos recorded, if_pos recorded]
    rfl
  · cases List.mem_cons.mp member with
    | inl isNew =>
        subst isNew
        obtain ⟨above, below⟩ := fits.within
        exact ⟨fits.room, fits.aligned, grows.heap ▸ above, Nat.le_trans below grows.brk⟩
    | inr inside => exact placed holding inside
  · refine List.pairwise_cons.mpr ⟨fun other member => ?_, beside⟩
    obtain ⟨holding, inside, rfl⟩ := List.mem_map.mp member
    exact fits.beside holding inside (vetted.keeps.index_ne inside)

/-- The arrays say that the id has no block. -/
theorem fillEmpty (vetted : Vetted setting trace (Function.update slots index .stale) book driver)
    (grows : Grows driver.state after.state) (ranges : after.ranges = driver.ranges)
    (keeps : Keeps trace (Function.update slots index .stale) book after)
    (isBlock : element after.blocks index = .ok null)
    (isSize : element after.blockSizes index = .ok 0) :
    Vetted setting trace (Function.update slots index .empty) book after := by
  obtain ⟨mapped, low, top, _, placed, beside, _⟩ := vetted.grown grows
  exact ⟨mapped, low, top, ranges.trans vetted.ranges, placed, beside,
    keeps.fillEmpty isBlock isSize⟩

end Vetted

/-- The block of an id that is resized or freed leaves the range list. -/
theorem Vetted.take (vetted : Vetted setting trace slots book driver)
    (named : 0 ≤ index ∧ index < trace.numIds) (usable : slots index ≠ .stale) {oldp : Nat}
    (isOld : element driver.blocks index = .ok oldp) :
    ∃ rest, Vetted setting trace (Function.update slots index .stale) rest
        (removeRange driver oldp) ∧
      ∀ holding ∈ book, holding.index ≠ index → holding ∈ rest := by
  cases slot : slots index with
  | stale => exact absurd slot usable
  | empty =>
      cases isOld.symm.trans (vetted.keeps.empty index named.1 named.2 slot).1
      refine ⟨book, vetted.removeNull.forget ?_, fun _ member _ => member⟩
      rw [slot]
      exact id
  | live size =>
      obtain ⟨holding, member, rfl, _⟩ := vetted.keeps.live index size slot
      cases isOld.symm.trans (vetted.keeps.owned holding member).2.2.1
      obtain ⟨front, back, rfl⟩ := List.append_of_mem member
      refine ⟨front ++ back, vetted.remove, fun other inside different => ?_⟩
      cases List.mem_append.mp inside with
      | inl inFront => exact List.mem_append_left _ inFront
      | inr inBack =>
          cases List.mem_cons.mp inBack with
          | inl isHolding => exact absurd (congrArg Holding.index isHolding) different
          | inr inBack => exact List.mem_append_right _ inBack

/-! ## Requests -/

/-- A computation that returns has what it promises. -/
theorem holds_of_run {Value : Type} {run : Except Stop Value} {value : Value}
    {post : Value → Prop} (returns : Returns run post) (result : run = .ok value) : post value := by
  obtain ⟨other, result', holds⟩ := returns
  cases result.symm.trans result'
  exact holds

/-- The arrays after `blocks` and `block_sizes` have been set for a stale id. -/
theorem assign_keeps {p size : Nat} {blocks sizes : List Nat}
    (keeps : Keeps trace (Function.update slots index .stale) book driver)
    (named : 0 ≤ index ∧ index < trace.numIds)
    (setBlock : assign driver.blocks index p = .ok blocks)
    (setSize : assign driver.blockSizes index size = .ok sizes) :
    Keeps trace (Function.update slots index .stale) book
        { driver with blocks := blocks, blockSizes := sizes } ∧
      element blocks index = .ok p ∧ element sizes index = .ok size := by
  obtain ⟨blocksLength, isBlock, otherBlocks⟩ := holds_of_run
    (assign_inside named.1 (Keeps.inBounds named.1 named.2 keeps.blocksLength) p) setBlock
  obtain ⟨sizesLength, isSize, otherSizes⟩ := holds_of_run
    (assign_inside named.1 (Keeps.inBounds named.1 named.2 keeps.sizesLength) size) setSize
  exact ⟨keeps.elsewhere _ blocksLength sizesLength rfl fun other different =>
    ⟨otherBlocks other different, otherSizes other different⟩, isBlock, isSize⟩

/-- The end of a request that has returned a block. -/
theorem randomizeBlock_vetted {before : Driver} {extent : Extent} (recorded : Recorded setting trace)
    (vetted : Vetted setting trace (Function.update slots index .stale) book before)
    (fits : Fits before.state book index extent) (named : 0 ≤ index ∧ index < trace.numIds)
    (run : randomizeBlock setting driver index = .ok after) (state : driver.state = before.state)
    (ranges : driver.ranges = rangeOf index extent :: before.ranges)
    (keeps : Keeps trace (Function.update slots index .stale) book driver)
    (isBlock : element driver.blocks index = .ok extent.start)
    (isSize : element driver.blockSizes index = .ok extent.length) :
    Vetted setting trace (Function.update slots index (.live extent.length))
        (⟨index, extent⟩ :: book) after ∧ after.errors = driver.errors := by
  have random := holds_of_run (randomizeBlock_returns extent named.1
    (Keeps.inBounds named.1 named.2 keeps.basesLength) isBlock isSize
    (.inr (state ▸ vetted.contains fits.within))) run
  have keeps' := keeps.of_same after random.blocks random.blockSizes random.basesLength
  exact ⟨vetted.fillLive recorded fits named (state ▸ .of_memory random.state)
    (random.ranges.trans ranges) keeps' (random.blocks ▸ isBlock) (random.blockSizes ▸ isSize),
    random.errors⟩

theorem evalAlloc_vetted {size : Nat} (confined : setting.package.Confined)
    (recorded : Recorded setting trace) (vetted : Vetted setting trace slots book driver)
    (named : 0 ≤ index ∧ index < trace.numIds) (notLive : ¬ (slots index).IsLive)
    (small : size < 2 ^ 31)
    (run : evalAlloc setting trace driver opnum index size = .ok (true, after)) :
    after.errors = driver.errors ∧ ∃ p later,
      setting.package.mmMalloc driver.state size = .ok (p, later) ∧
      Fits later book index ⟨p, size⟩ ∧
      Vetted setting trace (Function.update slots index (.live size)) (⟨index, ⟨p, size⟩⟩ :: book)
        after := by
  unfold evalAlloc at run
  obtain ⟨⟨p, later⟩, called, run⟩ := bind_eq_ok_iff.mp run
  rw [call_eq_ok_iff] at called
  dsimp only at run
  split at run
  case isTrue => cases run
  case isFalse =>
    obtain ⟨⟨added, listed⟩, adding, run⟩ := bind_eq_ok_iff.mp run
    dsimp only at run
    split at run
    case isTrue => cases run
    case isFalse goes =>
      have isAdded : added = true := by simpa using goes
      subst isAdded
      have vetted' := (vetted.forget notLive).grown (confined.mmMalloc called)
      obtain ⟨fits, rfl⟩ := addRange_fits recorded vetted'.mapped vetted'.low vetted'.top
        vetted'.ranges (fun holding member => (vetted'.placed holding member).1) small adding
      obtain ⟨blocks, setBlock, run⟩ := bind_eq_ok_iff.mp run
      obtain ⟨sizes, setSize, run⟩ := bind_eq_ok_iff.mp run
      obtain ⟨last, random, run⟩ := bind_eq_ok_iff.mp run
      cases run
      obtain ⟨keeps, isBlock, isSize⟩ := assign_keeps vetted'.keeps named setBlock setSize
      obtain ⟨filled, errors⟩ := randomizeBlock_vetted recorded vetted' fits named random rfl rfl
        (keeps.of_same _ rfl rfl rfl) isBlock isSize
      exact ⟨errors, p, later, called, fits, filled⟩

/-! ### Requests to resize -/

/-- What `afterRealloc` does when it is done: the bytes that the old block and the
new one have in common are those that the driver had written. -/
def Copied (setting : Setting) (driver : Driver) (index : Int) (newp size : Nat) : Prop :=
  ∃ oldSize base, element driver.blockSizes index = .ok oldSize ∧
    element driver.blockRandBase index = .ok base ∧
    ∀ offset < min size oldSize, driver.state.mem (newp + offset) = setting.pattern base offset

/-- The driver as it is before `afterRealloc` writes random data. -/
structure Resized (setting : Setting) (trace : Trace) (slots : Slots) (book : List Holding)
    (driver : Driver) (index : Int) (newp size : Nat) (middle : Driver) : Prop where
  state : middle.state = driver.state
  ranges : middle.ranges = driver.ranges
  keeps : Keeps trace (Function.update slots index .stale) book middle
  isBlock : element middle.blocks index = .ok newp
  isSize : element middle.blockSizes index = .ok size
  errors : driver.errors ≤ middle.errors
  copied : middle.errors = driver.errors → setting.debugMode ≠ .none →
    Copied setting driver index newp size

theorem afterRealloc_resized {newp size : Nat} {result : Bool × Driver}
    (keeps : Keeps trace (Function.update slots index .stale) book driver)
    (named : 0 ≤ index ∧ index < trace.numIds)
    (run : afterRealloc setting trace driver opnum index newp size = .ok result) :
    ∃ middle, Resized setting trace slots book driver index newp size middle ∧
      randomizeBlock setting middle index = .ok result.2 := by
  unfold afterRealloc at run
  obtain ⟨blocks, setBlock, run⟩ := bind_eq_ok_iff.mp run
  obtain ⟨oldSize, isOldSize, run⟩ := bind_eq_ok_iff.mp run
  obtain ⟨sizes, setSize, run⟩ := bind_eq_ok_iff.mp run
  obtain ⟨checked, check, run⟩ := bind_eq_ok_iff.mp run
  obtain ⟨lasts, setLast, run⟩ := bind_eq_ok_iff.mp run
  obtain ⟨last, random, run⟩ := bind_eq_ok_iff.mp run
  cases run
  obtain ⟨reports, intact⟩ := checkIndex_reports check
  obtain ⟨keeps', isBlock, isSize⟩ := assign_keeps keeps named setBlock setSize
  have isBlocks : checked.blocks = blocks := by rw [reports.same]
  have isSizes : checked.blockSizes = sizes := by rw [reports.same]
  have isBases : checked.blockRandBase = driver.blockRandBase := by rw [reports.same]
  have checkedKeeps := keeps'.of_same checked isBlocks isSizes (congrArg _ isBases)
  obtain ⟨lastsLength, isLast, otherLasts⟩ := holds_of_run
    (assign_inside named.1 (Keeps.inBounds named.1 named.2 checkedKeeps.sizesLength) size) setLast
  refine ⟨{ checked with blockSizes := lasts }, ⟨?_, ?_, ?_, isBlocks ▸ isBlock, isLast,
    reports.errors, fun silent checks => ?_⟩, random⟩
  · change checked.state = _
    rw [reports.same]
  · change checked.ranges = _
    rw [reports.same]
  · exact checkedKeeps.elsewhere _ rfl lastsLength rfl
      fun other different => ⟨rfl, otherLasts other different⟩
  · obtain ⟨block, count, base, isBlock', isCount, isBase, _, data⟩ := intact silent named.1 checks
    cases isBlock.symm.trans isBlock'
    cases isSize.symm.trans isCount
    exact ⟨oldSize, base, isOldSize, isBase, data⟩

/-- How the package has answered a request to resize. -/
def Resizes (package : Package) (book : List Holding) (before : Driver) (index : Int)
    (size : Nat) : Prop :=
  ∃ oldp oldSize newp later, element before.blocks index = .ok oldp ∧
    element before.blockSizes index = .ok oldSize ∧
    package.mmRealloc before.state oldp size = .ok (newp, later) ∧
    (if size = 0 then newp = null else Fits later book index ⟨newp, size⟩) ∧
    ∀ offset < min size oldSize, later.mem (newp + offset) = before.state.mem (oldp + offset)

/-- The block that `mm_realloc` has returned has the bytes of the old one. -/
theorem copied_of_intact {oldp newp size : Nat} {later : State}
    (intact : Intact setting driver index) (isOld : element driver.blocks index = .ok oldp)
    (copied : Copied setting { driver with state := later } index newp size) :
    ∃ oldSize, element driver.blockSizes index = .ok oldSize ∧
      ∀ offset < min size oldSize, later.mem (newp + offset) = driver.state.mem (oldp + offset) := by
  obtain ⟨block, size', base, isBlock, isSize, isBase, _, data⟩ := intact
  obtain ⟨oldSize, base', isOldSize, isBase', copies⟩ := copied
  cases isOld.symm.trans isBlock
  cases isSize.symm.trans isOldSize
  cases isBase.symm.trans isBase'
  refine ⟨_, isSize, fun offset below => ?_⟩
  exact (copies offset below).trans
    (data offset (Nat.lt_of_lt_of_le below (Nat.min_le_right _ _))).symm

/-- The new block of a request to resize. -/
theorem resize_live {newp size : Nat} (recorded : Recorded setting trace)
    (vetted : Vetted setting trace (Function.update slots index .stale) book driver)
    (named : 0 ≤ index ∧ index < trace.numIds) (small : size < 2 ^ 31)
    {entered : Driver}
    (added : addRange setting trace driver newp (offsetT size) opnum index = .ok (true, entered))
    (run : afterRealloc setting trace entered opnum index newp size = .ok (true, after)) :
    driver.errors ≤ after.errors ∧ Fits driver.state book index ⟨newp, size⟩ ∧
      Vetted setting trace (Function.update slots index (.live size))
        (⟨index, ⟨newp, size⟩⟩ :: book) after ∧
      (after.errors = driver.errors → Copied setting driver index newp size) := by
  obtain ⟨fits, same⟩ := addRange_fits recorded vetted.mapped vetted.low vetted.top
    vetted.ranges (fun holding member => (vetted.placed holding member).1) small added
  have keeps : Keeps trace (Function.update slots index .stale) book entered := by
    rw [same]
    exact vetted.keeps.of_same _ rfl rfl rfl
  obtain ⟨middle, resized, random⟩ := afterRealloc_resized keeps named run
  have state : middle.state = driver.state := by rw [resized.state, same]
  have ranges : middle.ranges = rangeOf index ⟨newp, size⟩ :: driver.ranges := by
    rw [resized.ranges, same]
  obtain ⟨filled, errors⟩ := randomizeBlock_vetted recorded vetted fits named random state ranges
    resized.keeps resized.isBlock resized.isSize
  have grows : driver.errors ≤ middle.errors := by
    have := resized.errors
    rw [same] at this
    exact this
  refine ⟨errors ▸ grows, fits, filled, fun silent => ?_⟩
  have copied := resized.copied (by rw [same, ← errors]; exact silent) recorded.2
  rw [same] at copied
  exact copied

/-- A request to resize to no bytes. -/
theorem resize_empty (recorded : Recorded setting trace)
    (vetted : Vetted setting trace (Function.update slots index .stale) book driver)
    (named : 0 ≤ index ∧ index < trace.numIds)
    (run : afterRealloc setting trace driver opnum index null 0 = .ok (true, after)) :
    driver.errors ≤ after.errors ∧
      Vetted setting trace (Function.update slots index .empty) book after ∧
      (after.errors = driver.errors → Copied setting driver index null 0) := by
  obtain ⟨middle, resized, random⟩ := afterRealloc_resized vetted.keeps named run
  have random := holds_of_run (randomizeBlock_returns (⟨null, 0⟩ : Extent) named.1
    (Keeps.inBounds named.1 named.2 resized.keeps.basesLength) resized.isBlock resized.isSize
    (.inl rfl)) random
  have errors' : after.errors = middle.errors := random.errors
  have keeps' := resized.keeps.of_same after random.blocks random.blockSizes random.basesLength
  refine ⟨errors' ▸ resized.errors, ?_, fun silent => ?_⟩
  · exact vetted.fillEmpty (resized.state ▸ .of_memory random.state)
      (random.ranges.trans resized.ranges) keeps' (random.blocks ▸ resized.isBlock)
      (random.blockSizes ▸ resized.isSize)
  · exact resized.copied (errors'.symm.trans silent) recorded.2

theorem evalRealloc_vetted {size : Nat} (confined : setting.package.Confined)
    (recorded : Recorded setting trace) (vetted : Vetted setting trace slots book driver)
    (named : 0 ≤ index ∧ index < trace.numIds) (usable : slots index ≠ .stale)
    (small : size < 2 ^ 31)
    (run : evalRealloc setting trace driver opnum index size = .ok (true, after)) :
    driver.errors ≤ after.errors ∧
      (∃ book', Vetted setting trace
        (Function.update slots index (if size = 0 then .empty else .live size)) book' after) ∧
      (after.errors = driver.errors → Resizes setting.package book driver index size) := by
  unfold evalRealloc at run
  obtain ⟨checked, check, run⟩ := bind_eq_ok_iff.mp run
  obtain ⟨reports, intact⟩ := checkIndex_reports check
  obtain ⟨errors, output, grows, rfl⟩ := reports.exists
  obtain ⟨oldp, isOld, run⟩ := bind_eq_ok_iff.mp run
  obtain ⟨⟨newp, later⟩, called, run⟩ := bind_eq_ok_iff.mp run
  rw [call_eq_ok_iff] at called
  have grown := (vetted.of_reports reports).grown (confined.mmRealloc called)
  obtain ⟨rest, vetted', kept⟩ := grown.take named usable isOld
  dsimp only at run
  split at run
  case isTrue => cases run
  case isFalse =>
    split at run
    case isTrue => cases run
    case isFalse notLeft =>
      split at run
      case isTrue positive =>
        obtain ⟨⟨added, entered⟩, adding, run⟩ := bind_eq_ok_iff.mp run
        dsimp only at run
        split at run
        case isTrue => cases run
        case isFalse goes =>
          have isAdded : added = true := by simpa using goes
          subst isAdded
          have nonzero : size ≠ 0 := Nat.pos_iff_ne_zero.mp positive
          obtain ⟨grows', fits, filled, copied⟩ :=
            resize_live recorded vetted' named small adding run
          refine ⟨grows.trans grows', ⟨_, by rw [if_neg nonzero]; exact filled⟩, fun silent => ?_⟩
          have errors : errors = driver.errors := by
            have := grows'
            change errors ≤ after.errors at this
            omega
          obtain ⟨oldSize, isOldSize, data⟩ := copied_of_intact
            (intact errors named.1 recorded.2) isOld (copied (by rw [silent]; exact errors.symm))
          refine ⟨oldp, oldSize, newp, later, isOld, isOldSize, called, ?_, data⟩
          rw [if_neg nonzero]
          exact ⟨fits.room, fits.aligned, fits.within, fun holding member different =>
            fits.beside holding (kept holding member different) different⟩
      case isFalse isZero =>
        have zero : size = 0 := by omega
        subst zero
        have isNull : newp = null := by
          by_contra notNull
          exact notLeft ⟨notNull, rfl⟩
        subst isNull
        obtain ⟨grows', emptied, copied⟩ := resize_empty recorded vetted' named run
        refine ⟨grows.trans grows', ⟨_, emptied⟩, fun silent => ?_⟩
        have errors : errors = driver.errors := by
          have := grows'
          change errors ≤ after.errors at this
          omega
        obtain ⟨oldSize, isOldSize, data⟩ := copied_of_intact
          (intact errors named.1 recorded.2) isOld (copied (by rw [silent]; exact errors.symm))
        exact ⟨oldp, oldSize, null, later, isOld, isOldSize, called, by rw [if_pos rfl], data⟩

/-! ### Requests to free -/

/-- How the package has answered a request to free. -/
def Frees (package : Package) (before : Driver) (index : Int) : Prop :=
  ∃ p later, (if index = -1 then p = null else element before.blocks index = .ok p) ∧
    package.mmFree before.state p = .ok later

theorem evalFree_vetted (confined : setting.package.Confined) (recorded : Recorded setting trace)
    (vetted : Vetted setting trace slots book driver)
    (allowed : index = -1 ∨ (0 ≤ index ∧ index < trace.numIds) ∧ slots index ≠ .stale)
    (run : evalFree setting trace driver opnum index = .ok (true, after)) :
    driver.errors ≤ after.errors ∧
      (∃ book', Vetted setting trace
        (Function.update slots index (if slots index = .empty then .empty else .stale)) book'
        after) ∧
      Frees setting.package driver index ∧
      (after.errors = driver.errors → 0 ≤ index → Intact setting driver index) := by
  unfold evalFree at run
  obtain ⟨checked, check, run⟩ := bind_eq_ok_iff.mp run
  obtain ⟨reports, intact⟩ := checkIndex_reports check
  obtain ⟨errors, output, grows, rfl⟩ := reports.exists
  have vetted' := vetted.of_reports reports
  split at run
  case isTrue isNull =>
    obtain ⟨later, called, run⟩ := bind_eq_ok_iff.mp run
    rw [call_eq_ok_iff] at called
    cases run
    refine ⟨grows, ⟨book, ?_⟩, ⟨null, later, by rw [if_pos isNull], called⟩, fun _ low => ?_⟩
    · rw [isNull, vetted.keeps.freed_null, Function.update_eq_self]
      exact vetted'.grown (confined.mmFree called)
    · exact absurd low (by rw [isNull]; decide)
  case isFalse notNull =>
    obtain ⟨named, usable⟩ := allowed.resolve_left notNull
    obtain ⟨p, isOld, run⟩ := bind_eq_ok_iff.mp run
    obtain ⟨later, called, run⟩ := bind_eq_ok_iff.mp run
    rw [call_eq_ok_iff] at called
    cases run
    obtain ⟨rest, taken, _⟩ := vetted'.take named usable isOld
    have grown := taken.grown (confined.mmFree called)
    refine ⟨grows, ⟨rest, ?_⟩, ⟨p, later, by rw [if_neg notNull]; exact isOld, called⟩,
      fun silent low => intact silent low recorded.2⟩
    split
    case isTrue isEmpty =>
      obtain ⟨isBlock, isSize⟩ := vetted'.keeps.empty index named.1 named.2 isEmpty
      exact grown.fillEmpty (.of_memory rfl) rfl grown.keeps isBlock isSize
    case isFalse => exact grown

/-! ## Runs -/

/-- How the package has answered a request. -/
def Answers (setting : Setting) (book : List Holding) (before : Driver) (op : TraceOp) : Prop :=
  match op.type with
  | .alloc => ∃ p later, setting.package.mmMalloc before.state op.size = .ok (p, later) ∧
      Fits later book op.index ⟨p, op.size⟩
  | .realloc => Resizes setting.package book before op.index op.size
  | .free => Frees setting.package before op.index ∧
      (0 ≤ op.index → Intact setting before op.index)

/-- What is known of the driver before a request of a trace that it goes through
without a report. -/
structure Certified (setting : Setting) (book : List Holding) (before : Driver) (op : TraceOp) :
    Prop where
  answers : Answers setting book before op
  intact : setting.debugMode = .expensive → ∀ holding ∈ book, Intact setting before holding.index

/-- A request that the driver goes on from. -/
theorem evalOp_vetted {op : TraceOp} (confined : setting.package.Confined)
    (recorded : Recorded setting trace) (vetted : Vetted setting trace slots book driver)
    (admits : slots.Admits trace.numIds op)
    (run : evalOp setting trace driver opnum op = .ok (true, after)) :
    driver.errors ≤ after.errors ∧
      (∃ book', Vetted setting trace (slots.after op) book' after) ∧
      (after.errors = driver.errors → Certified setting book driver op) := by
  unfold evalOp at run
  obtain ⟨checked, check, run⟩ := bind_eq_ok_iff.mp run
  obtain ⟨reports, intact⟩ := checkAll_reports check
  obtain ⟨errors, output, grows, rfl⟩ := reports.exists
  have vetted' := vetted.of_reports reports
  have all : errors = driver.errors → setting.debugMode = .expensive → ∀ holding ∈ book,
      Intact setting driver holding.index := by
    intro silent expensive holding member
    have inList : holding.range ∈ driver.ranges := by
      rw [vetted.ranges, listed, if_pos recorded]
      exact List.mem_map_of_mem member
    exact intact silent expensive holding.range inList (vetted.keeps.owned holding member).1.1
  unfold Slots.Admits at admits
  unfold Slots.after
  cases kind : op.type with
  | alloc =>
      simp only [kind] at run admits ⊢
      obtain ⟨named, notLive, _, small⟩ := admits
      obtain ⟨same, p, later, called, fits, filled⟩ :=
        evalAlloc_vetted confined recorded vetted' named notLive small run
      refine ⟨same ▸ grows, ⟨_, filled⟩, fun silent => ⟨?_, all (same.symm.trans silent)⟩⟩
      unfold Answers
      rw [kind]
      exact ⟨p, later, called, fits⟩
  | realloc =>
      simp only [kind] at run admits ⊢
      obtain ⟨named, usable, small⟩ := admits
      obtain ⟨grows', last, resizes⟩ :=
        evalRealloc_vetted confined recorded vetted' named usable small run
      have total : errors ≤ after.errors := grows'
      have same : after.errors = driver.errors → after.errors = errors := by omega
      refine ⟨grows.trans total, last, fun silent => ⟨?_, all (by omega)⟩⟩
      unfold Answers
      rw [kind]
      exact resizes (same silent)
  | free =>
      simp only [kind] at run admits ⊢
      obtain ⟨grows', last, frees, intact'⟩ := evalFree_vetted confined recorded vetted' admits run
      have total : errors ≤ after.errors := grows'
      have same : after.errors = driver.errors → after.errors = errors := by omega
      refine ⟨grows.trans total, last, fun silent => ⟨?_, all (by omega)⟩⟩
      unfold Answers
      rw [kind]
      exact ⟨frees, intact' (same silent)⟩

theorem evalLoop_errors {ops : List TraceOp} (confined : setting.package.Confined)
    (recorded : Recorded setting trace) (vetted : Vetted setting trace slots book driver)
    (conforms : slots.Conforms trace.numIds ops)
    (run : evalLoop setting trace driver opnum ops = .ok (true, after)) :
    driver.errors ≤ after.errors := by
  induction ops generalizing slots book driver opnum with
  | nil =>
      cases run
      exact Nat.le_refl _
  | cons op ops ih =>
      obtain ⟨admits, rest⟩ := conforms
      rw [evalLoop] at run
      obtain ⟨⟨goes, middle⟩, first, run⟩ := bind_eq_ok_iff.mp run
      cases goes with
      | false => cases run
      | true =>
          obtain ⟨grows, ⟨book', vetted'⟩, _⟩ := evalOp_vetted confined recorded vetted admits first
          exact grows.trans (ih vetted' rest run)

theorem evalLoop_certifies {front back : List TraceOp} {op : TraceOp}
    (confined : setting.package.Confined) (recorded : Recorded setting trace)
    (vetted : Vetted setting trace slots book driver)
    (conforms : slots.Conforms trace.numIds (front ++ op :: back))
    (run : evalLoop setting trace driver opnum (front ++ op :: back) = .ok (true, after))
    (silent : after.errors = driver.errors) :
    ∃ middle book', evalLoop setting trace driver opnum front = .ok (true, middle) ∧
      Vetted setting trace (front.foldl Slots.after slots) book' middle ∧
      Certified setting book' middle op := by
  induction front generalizing slots book driver opnum with
  | nil =>
      obtain ⟨admits, rest⟩ := conforms
      rw [List.nil_append, evalLoop] at run
      obtain ⟨⟨goes, middle⟩, first, run⟩ := bind_eq_ok_iff.mp run
      cases goes with
      | false => cases run
      | true =>
          obtain ⟨grows, ⟨book', vetted'⟩, certified⟩ :=
            evalOp_vetted confined recorded vetted admits first
          have grows' := evalLoop_errors confined recorded vetted' rest run
          exact ⟨driver, book, rfl, vetted, certified (by omega)⟩
  | cons first front ih =>
      obtain ⟨admits, rest⟩ := conforms
      rw [List.cons_append, evalLoop] at run
      obtain ⟨⟨goes, middle⟩, called, run⟩ := bind_eq_ok_iff.mp run
      cases goes with
      | false => cases run
      | true =>
          obtain ⟨grows, ⟨book', vetted'⟩, _⟩ :=
            evalOp_vetted confined recorded vetted admits called
          have grows' := evalLoop_errors confined recorded vetted' rest run
          obtain ⟨last, book'', run', answered⟩ := ih vetted' rest run (by omega)
          refine ⟨last, book'', ?_, answered⟩
          rw [evalLoop, called, ok_bind]
          exact run'

/-- The requests of the trace do not matter beyond those of the loop. -/
theorem evalLoop_withOps (driver : Driver) (opnum : Nat) (rest ops : List TraceOp) :
    evalLoop setting { trace with ops := rest } driver opnum ops =
      evalLoop setting trace driver opnum ops := by
  induction ops generalizing driver opnum with
  | nil => rfl
  | cons op ops ih =>
      rw [evalLoop, evalLoop]
      refine bind_congr fun result => ?_
      obtain ⟨goes, later⟩ := result
      cases goes with
      | false => rfl
      | true => exact ih later (opnum + 1)

/-- Where `eval_mm_valid` goes through a trace and reports nothing, it has come to
each request with a range list that agrees with the arrays, and the package has
answered the request: with an aligned block inside the heap that keeps apart
from the live ones or reaches around them, with the data of the old block, or
with nothing, where it is to free one whose data is as the driver left it. -/
theorem evalMmValid_certifies (confined : setting.package.Confined)
    (recorded : Recorded setting trace) (mapped : Mapped driver.state) (conforms : trace.Conforms)
    (passed : evalMmValid setting trace (trace.load driver) = .ok (true, after))
    (silent : after.errors = driver.errors) {front back : List TraceOp} {op : TraceOp}
    (ops : trace.ops = front ++ op :: back) :
    ∃ middle book,
      evalMmValid setting { trace with ops := front } (trace.load driver) = .ok (true, middle) ∧
        Vetted setting trace (front.foldl Slots.after .initial) book middle ∧
        Certified setting book middle op := by
  unfold evalMmValid at passed ⊢
  obtain ⟨⟨ret, start⟩, opened, passed⟩ := bind_eq_ok_iff.mp passed
  dsimp only at passed
  split at passed
  case isTrue => cases passed
  case isFalse positive =>
    rw [call_eq_ok_iff] at opened
    have grows : Grows (memResetBrk driver.state) start := confined.mmInit opened
    have limit := Malloc.maxHeap_eq
    have start' : Vetted setting trace Slots.initial []
        { reinitTrace trace (clearRanges (trace.load driver)) with state := start } := by
      refine ⟨mapped.of_same grows.heap grows.maxAddr, grows.heap ▸ grows.brk, grows.top ?_, ?_,
        by simp, .nil, .initial rfl rfl List.length_replicate⟩
      · change driver.state.heap ≤ driver.state.memMaxAddr
        rw [mapped.maxAddr]
        exact Nat.le_add_right _ _
      · unfold listed
        split <;> rfl
    rw [ops] at passed
    unfold Trace.Conforms at conforms
    rw [ops] at conforms
    obtain ⟨middle, book, run, facts⟩ :=
      evalLoop_certifies confined recorded start' conforms passed silent
    refine ⟨middle, book, ?_, facts⟩
    have opened' : setting.package.mmInit (reinitTrace { trace with ops := front } (clearRanges
        { trace.load driver with state := memResetBrk (trace.load driver).state })).state =
          .ok (ret, start) := opened
    dsimp only
    rw [opened', call_ok, ok_bind]
    dsimp only
    rw [if_neg positive]
    exact (evalLoop_withOps _ _ _ _).trans run

/-- A package that puts small blocks inside the large ones. -/
def nesting : Package where
  mmInit state := .ok (0, { state with memBrk := max state.memBrk state.memMaxAddr })
  mmMalloc state size := .ok (if size ≤ 16 then state.heap + 16 else state.heap, state)
  mmFree state _ := .ok state
  mmRealloc state oldptr _ := .ok (oldptr, state)
  mmCheckheap _ := .ok ()

theorem nesting_confined : nesting.Confined where
  mmInit called := by
    cases called
    exact ⟨rfl, rfl, Nat.le_max_left _ _, fun top => Nat.max_le.mpr ⟨top, Nat.le_refl _⟩⟩
  mmMalloc called := by
    cases called
    exact .of_memory rfl
  mmFree called := by
    cases called
    exact .of_memory rfl
  mmRealloc called := by
    cases called
    exact .of_memory rfl

def nestedSetting : Setting := ⟨nesting, .expensive, id⟩

def nestedTrace : Trace := ⟨"stdin", 1, 2, 0, [⟨.alloc, 0, 16⟩, ⟨.alloc, 1, 48⟩]⟩

def nestedDriver : Driver := ⟨memInit 4096 fun _ => 0, [], [], [], [], randomDataLen, 0, []⟩

theorem nestedDriver_mapped : Mapped nestedDriver.state :=
  ⟨by decide, by decide, by decide, rfl⟩

/-- The trace passes, and one of its two live blocks lies inside the other. -/
theorem nesting_passes : ∃ last,
    evalMmValid nestedSetting nestedTrace (nestedTrace.load nestedDriver) = .ok (true, last) ∧
      last.errors = 0 ∧ last.ranges = [⟨4096, 4143, 1⟩, ⟨4112, 4127, 0⟩] :=
  ⟨_, rfl, rfl, rfl⟩

theorem nesting_certified : ∃ middle book,
    evalMmValid nestedSetting { nestedTrace with ops := [⟨.alloc, 0, 16⟩] }
        (nestedTrace.load nestedDriver) = .ok (true, middle) ∧
      Vetted nestedSetting nestedTrace (Slots.initial.after ⟨.alloc, 0, 16⟩) book middle ∧
      Certified nestedSetting book middle ⟨.alloc, 1, 48⟩ := by
  obtain ⟨last, passed, silent, _⟩ := nesting_passes
  exact evalMmValid_certifies nesting_confined (by decide) nestedDriver_mapped (by decide) passed
    silent rfl

end OsPractices.Mdriver
