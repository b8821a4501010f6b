import OsPractices.Mdriver.Books

/-!
# What the driver accepts

A package that keeps the contract of an allocator passes `eval_mm_valid` on
every trace whose client frees and resizes only what it owns, as long as its
requests stay within the package's limit.
-/

set_option autoImplicit false

namespace OsPractices.Mdriver

open Library
open Malloc (State Mapped null u64 offsetT maxHeap memHeapHi memResetBrk)

variable {setting : Setting} {trace : Trace} {slots : Slots} {spent : Nat} {book : List Holding}
  {driver : Driver} {opnum : Nat} {index : Int}

/-- The package owes the client the blocks of the book, and the range list
records them. -/
structure Owes (sound : Sound setting.package) (trace : Trace) (spent : Nat)
    (book : List Holding) (driver : Driver) : Prop where
  holds : sound.contract.Holds driver.state spent (book.map Holding.extent)
  ranges : driver.ranges = listed setting trace book

/-- The arrays of the trace know the blocks of the book, and these have the
bytes that the driver has written. -/
structure Knows (setting : Setting) (trace : Trace) (slots : Slots) (book : List Holding)
    (driver : Driver) : Prop extends Keeps trace slots book driver where
  pattern : setting.debugMode ≠ .none → ∀ holding ∈ book,
    ∃ base, element driver.blockRandBase holding.index = .ok base ∧
      ∀ offset < holding.extent.length,
        driver.state.mem (holding.extent.start + offset) = setting.pattern base offset

/-! ## The heap side -/

namespace Owes

variable {sound : Sound setting.package}

theorem contains (owes : Owes sound trace spent book driver) {holding : Holding}
    (member : holding ∈ book) :
    driver.state.Contains holding.extent.start holding.extent.length := by
  obtain ⟨mapped, top⟩ := sound.mapped owes.holds
  obtain ⟨_, _, _, low, high⟩ := sound.contract.placed owes.holds
    (List.mem_map_of_mem member)
  rw [mapped.maxAddr] at top
  exact ⟨low, Nat.le_trans high top⟩

theorem addRange (driver : Driver) (opnum : Nat) (index : Int)
    (ranges : driver.ranges = listed setting trace book)
    {extent : Extent} (small : extent.length < 2 ^ 31)
    (holds : sound.contract.Holds driver.state spent (extent :: book.map Holding.extent)) :
    ∃ after, Mdriver.addRange setting trace driver extent.start (offsetT extent.length) opnum
        index = .ok (true, after) ∧
      Owes sound trace spent (⟨index, extent⟩ :: book) after ∧
      after = { driver with ranges := after.ranges } := by
  obtain ⟨mapped, top⟩ := sound.mapped holds
  obtain ⟨_, positive, aligned, within⟩ := sound.contract.placed holds List.mem_cons_self
  have away := (List.pairwise_cons.mp (sound.contract.apart holds)).1
  rw [sound.alignment] at aligned
  refine ⟨_, addRange_ok mapped top positive small aligned within fun recorded range member => ?_,
    ?_, ?_⟩
  · rw [ranges, listed, if_pos recorded] at member
    obtain ⟨other, inside, rfl⟩ := List.mem_map.mp member
    have inBook : other.extent ∈ book.map Holding.extent := List.mem_map_of_mem inside
    have room := (sound.contract.placed holds (List.mem_cons_of_mem _ inBook)).2.1
    exact rangeOf_meets positive room (away _ inBook).symm
  · refine ⟨?_, ?_⟩
    · split <;> exact holds
    · rw [listed] at ranges ⊢
      split
      case isTrue recorded =>
        rw [if_pos recorded] at ranges
        rw [ranges]
        rfl
      case isFalse skips => rw [ranges, if_neg skips]
  · split <;> rfl

theorem removeRange (driver : Driver) {front back : List Holding} {holding : Holding}
    (holds : ∃ state, sound.contract.Holds state spent
      ((front ++ holding :: back).map Holding.extent))
    (ranges : driver.ranges = listed setting trace (front ++ holding :: back)) :
    (Mdriver.removeRange driver holding.extent.start).ranges =
      listed setting trace (front ++ back) := by
  obtain ⟨state, holds⟩ := holds
  rw [List.map_append, List.map_cons] at holds
  exact removeRange_listed (fun other inside => sound.contract.start_ne holds other.extent
    (List.mem_append_left _ (List.mem_map_of_mem inside))) ranges

theorem removeRange_null (owes : Owes sound trace spent book driver) (state : State) :
    (Mdriver.removeRange { driver with state := state } null).ranges =
      listed setting trace book :=
  @removeNull_listed setting trace { driver with state := state } book (fun _ inside =>
    (sound.contract.placed owes.holds (List.mem_map_of_mem inside)).1) owes.ranges

theorem randomized (owes : Owes sound trace spent book driver) {holding : Holding}
    (member : holding ∈ book) {after : Driver}
    (random : Randomized setting driver index holding.extent after) :
    Owes sound trace spent book after := by
  refine ⟨?_, random.ranges.trans owes.ranges⟩
  rw [random.state]
  exact sound.contract.write owes.holds (List.mem_map_of_mem member)
    random.outside

theorem of_same (owes : Owes sound trace spent book driver) (after : Driver)
    (state : after.state = driver.state) (ranges : after.ranges = driver.ranges) :
    Owes sound trace spent book after :=
  ⟨state ▸ owes.holds, ranges.trans owes.ranges⟩

end Owes

/-! ## The array side -/

namespace Knows

/-- An id whose block has not been freed passes `check_index`. -/
theorem intact (knows : Knows setting trace slots book driver)
    (contains : ∀ holding ∈ book,
      driver.state.Contains holding.extent.start holding.extent.length)
    (named : 0 ≤ index ∧ index < trace.numIds) (usable : slots index ≠ .stale)
    (checks : setting.debugMode ≠ .none) : Intact setting driver index := by
  obtain ⟨low, high⟩ := named
  cases slot : slots index with
  | empty =>
      obtain ⟨isBlock, isSize⟩ := knows.empty index low high slot
      obtain ⟨base, isBase⟩ := element_of_lt low (Keeps.inBounds low high knows.basesLength)
      exact ⟨_, _, base, isBlock, isSize, isBase, .inl rfl, by simp⟩
  | live size =>
      obtain ⟨holding, member, rfl, rfl⟩ := knows.live index size slot
      obtain ⟨_, _, isBlock, isSize⟩ := knows.owned holding member
      obtain ⟨base, isBase, data⟩ := knows.pattern checks holding member
      exact ⟨_, _, base, isBlock, isSize, isBase, .inr (contains holding member), data⟩
  | stale => exact absurd slot usable

theorem of_same (knows : Knows setting trace slots book driver) (after : Driver)
    (blocks : after.blocks = driver.blocks) (blockSizes : after.blockSizes = driver.blockSizes)
    (bases : after.blockRandBase = driver.blockRandBase)
    (same : ∀ holding ∈ book, ∀ address, holding.extent.Covers address →
      after.state.mem address = driver.state.mem address) :
    Knows setting trace slots book after := by
  refine ⟨knows.toKeeps.of_same after blocks blockSizes (congrArg _ bases),
    fun checks holding member => ?_⟩
  rw [bases]
  obtain ⟨base, isBase, data⟩ := knows.pattern checks holding member
  refine ⟨base, isBase, fun offset below => ?_⟩
  have covers : holding.extent.Covers (holding.extent.start + offset) :=
    ⟨Nat.le_add_right _ _, Nat.add_lt_add_left below _⟩
  exact (same holding member _ covers).trans (data offset below)

theorem forget (knows : Knows setting trace slots book driver)
    (notLive : ¬ (slots index).IsLive) :
    Knows setting trace (Function.update slots index .stale) book driver :=
  ⟨knows.toKeeps.forget notLive, knows.pattern⟩

theorem remove {front back : List Holding} {holding : Holding}
    (knows : Knows setting trace slots (front ++ holding :: back) driver) :
    Knows setting trace (Function.update slots holding.index .stale) (front ++ back) driver := by
  refine ⟨knows.toKeeps.remove, fun checks other member => knows.pattern checks other ?_⟩
  cases List.mem_append.mp member with
  | inl inFront => exact List.mem_append_left _ inFront
  | inr inBack => exact List.mem_append_right _ (List.mem_cons_of_mem _ inBack)

theorem elsewhere (knows : Knows setting trace (Function.update slots index .stale) book driver)
    (after : Driver) (blocksLength : after.blocks.length = driver.blocks.length)
    (sizesLength : after.blockSizes.length = driver.blockSizes.length)
    (basesLength : after.blockRandBase.length = driver.blockRandBase.length)
    (others : ∀ other, other ≠ index → element after.blocks other = element driver.blocks other ∧
      element after.blockSizes other = element driver.blockSizes other ∧
      element after.blockRandBase other = element driver.blockRandBase other)
    (same : ∀ holding ∈ book, ∀ address, holding.extent.Covers address →
      after.state.mem address = driver.state.mem address) :
    Knows setting trace (Function.update slots index .stale) book after := by
  refine ⟨knows.toKeeps.elsewhere after blocksLength sizesLength basesLength
    fun other different => ⟨(others other different).1, (others other different).2.1⟩,
    fun checks holding member => ?_⟩
  obtain ⟨base, isBase, data⟩ := knows.pattern checks holding member
  rw [(others holding.index (knows.toKeeps.index_ne member)).2.2]
  refine ⟨base, isBase, fun offset below => ?_⟩
  have covers : holding.extent.Covers (holding.extent.start + offset) :=
    ⟨Nat.le_add_right _ _, Nat.add_lt_add_left below _⟩
  exact (same holding member _ covers).trans (data offset below)

theorem fillEmpty (knows : Knows setting trace (Function.update slots index .stale) book driver)
    (isBlock : element driver.blocks index = .ok null)
    (isSize : element driver.blockSizes index = .ok 0) :
    Knows setting trace (Function.update slots index .empty) book driver :=
  ⟨knows.toKeeps.fillEmpty isBlock isSize, knows.pattern⟩

theorem fillLive (knows : Knows setting trace (Function.update slots index .stale) book driver)
    (named : 0 ≤ index ∧ index < trace.numIds) (extent : Extent)
    (isBlock : element driver.blocks index = .ok extent.start)
    (isSize : element driver.blockSizes index = .ok extent.length)
    (pattern : setting.debugMode ≠ .none → ∃ base, element driver.blockRandBase index = .ok base ∧
      ∀ offset < extent.length,
        driver.state.mem (extent.start + offset) = setting.pattern base offset) :
    Knows setting trace (Function.update slots index (.live extent.length))
      (⟨index, extent⟩ :: book) driver := by
  refine ⟨knows.toKeeps.fillLive named extent isBlock isSize, fun checks holding member => ?_⟩
  cases List.mem_cons.mp member with
  | inl isNew =>
      subst isNew
      exact pattern checks
  | inr inside => exact knows.pattern checks holding inside

end Knows

/-! ## One request -/

/-- What the trace's client may do and what the driver knows agree. -/
def Follows (sound : Sound setting.package) (trace : Trace) (slots : Slots) (spent : Nat)
    (driver : Driver) : Prop :=
  ∃ book, Owes sound trace spent book driver ∧ Knows setting trace slots book driver

/-- The driver goes on, and has nothing to report. -/
structure Accepted (sound : Sound setting.package) (trace : Trace) (slots : Slots) (spent : Nat)
    (driver : Driver) (result : Bool × Driver) : Prop where
  goes : result.1 = true
  errors : result.2.errors = driver.errors
  output : result.2.output = driver.output
  follows : Follows sound trace slots spent result.2

section Requests

variable {sound : Sound setting.package}

theorem finish_live (extent : Extent)
    (owes : Owes sound trace spent (⟨index, extent⟩ :: book) driver)
    (knows : Knows setting trace (Function.update slots index .stale) book driver)
    (named : 0 ≤ index ∧ index < trace.numIds)
    (isBlock : element driver.blocks index = .ok extent.start)
    (isSize : element driver.blockSizes index = .ok extent.length) :
    Returns (randomizeBlock setting driver index) fun after =>
      Accepted sound trace (Function.update slots index (.live extent.length)) spent driver
        (true, after) := by
  have inside := owes.contains List.mem_cons_self
  have high := Keeps.inBounds named.1 named.2 knows.basesLength
  refine (randomizeBlock_returns extent named.1 high isBlock isSize (.inr inside)).mono
    fun after random => ⟨rfl, random.errors, random.output, _, owes.randomized List.mem_cons_self
      random, ?_⟩
  have apart := (List.pairwise_cons.mp (sound.contract.apart owes.holds)).1
  have moved := knows.elsewhere after (congrArg List.length random.blocks)
    (congrArg List.length random.blockSizes) random.basesLength
    (fun other different => ⟨by rw [random.blocks], by rw [random.blockSizes],
      random.others other different⟩)
    fun holding member address covers => random.outside address
      ((apart _ (List.mem_map_of_mem member)).symm.not_covers covers)
  exact moved.fillLive named extent (random.blocks ▸ isBlock) (random.blockSizes ▸ isSize) random.pattern

theorem finish_empty (owes : Owes sound trace spent book driver)
    (knows : Knows setting trace (Function.update slots index .stale) book driver)
    (named : 0 ≤ index ∧ index < trace.numIds)
    (isBlock : element driver.blocks index = .ok null)
    (isSize : element driver.blockSizes index = .ok 0) :
    Returns (randomizeBlock setting driver index) fun after =>
      Accepted sound trace (Function.update slots index .empty) spent driver (true, after) := by
  have high := Keeps.inBounds named.1 named.2 knows.basesLength
  refine (randomizeBlock_returns (⟨null, 0⟩ : Extent) named.1 high isBlock isSize
    (.inl rfl)).mono fun after random => ?_
  have memory : after.state.mem = driver.state.mem := by
    funext address
    refine random.outside address ?_
    rintro ⟨low, below⟩
    exact Nat.not_lt.mpr low below
  have state : after.state = driver.state := by rw [random.state, memory]
  refine ⟨rfl, random.errors, random.output, book, owes.of_same _ state random.ranges, ?_⟩
  have moved := knows.elsewhere after (congrArg List.length random.blocks)
    (congrArg List.length random.blockSizes) random.basesLength
    (fun other different => ⟨by rw [random.blocks], by rw [random.blockSizes],
      random.others other different⟩)
    fun holding member address covers => by rw [memory]
  exact moved.fillEmpty (random.blocks ▸ isBlock) (random.blockSizes ▸ isSize)

theorem evalAlloc_accepts (owes : Owes sound trace spent book driver)
    (knows : Knows setting trace slots book driver) (named : 0 ≤ index ∧ index < trace.numIds)
    (notLive : ¬ (slots index).IsLive) {size : Nat} (positive : 0 < size) (small : size < 2 ^ 31)
    (affordable : spent + sound.contract.cost size ≤ sound.contract.limit) :
    Returns (evalAlloc setting trace driver opnum index size)
      (Accepted sound trace (Function.update slots index (.live size))
        (spent + sound.contract.cost size) driver) := by
  obtain ⟨p, later, run, holds, spares⟩ :=
    sound.contract.malloc owes.holds positive (sound.largest ▸ small) affordable
  have notNull : p ≠ null := by
    have := (sound.contract.placed holds List.mem_cons_self).1
    exact Nat.pos_iff_ne_zero.mp this
  have allocated : setting.package.mmMalloc driver.state size = .ok (p, later) := run
  obtain ⟨after, added, owes', same⟩ := Owes.addRange { driver with state := later } opnum
    index owes.ranges small holds
  have knows' : Knows setting trace (Function.update slots index .stale) book after := by
    refine (knows.forget notLive).of_same _ (by rw [same]) (by rw [same]) (by rw [same]) ?_
    intro holding member address covers
    rw [same]
    exact spares.intact _ (List.mem_map_of_mem member) address covers
  obtain ⟨blocks, setBlock, blocksLength, isBlock, otherBlocks⟩ :=
    assign_inside named.1 (Keeps.inBounds named.1 named.2 knows'.blocksLength) p
  obtain ⟨sizes, setSize, sizesLength, isSize, otherSizes⟩ :=
    assign_inside named.1 (Keeps.inBounds named.1 named.2 knows'.sizesLength) size
  have placed := knows'.elsewhere { after with blocks := blocks, blockSizes := sizes }
    blocksLength sizesLength rfl
    (fun other different => ⟨otherBlocks other different, otherSizes other different, rfl⟩)
    fun _ _ _ _ => rfl
  obtain ⟨last, random, accepted⟩ := finish_live ⟨p, size⟩
    (owes'.of_same { after with blocks := blocks, blockSizes := sizes } rfl rfl) placed named
    isBlock isSize
  have run' : evalAlloc setting trace driver opnum index size = .ok (true, last) := by
    unfold evalAlloc
    rw [allocated, call_ok, ok_bind]
    dsimp only
    rw [if_neg notNull, added, ok_bind]
    dsimp only
    rw [if_neg (by decide), setBlock, ok_bind, setSize, ok_bind, random, ok_bind, pure_eq_ok]
  refine .of_eq run' ⟨rfl, ?_, ?_, accepted.follows⟩
  · rw [accepted.errors, same]
  · rw [accepted.output, same]

/-! ### Requests to resize -/

theorem afterRealloc_live (opnum : Nat) {newp size oldSize : Nat}
    (owes : Owes sound trace spent (⟨index, ⟨newp, size⟩⟩ :: book) driver)
    (knows : Knows setting trace (Function.update slots index .stale) book driver)
    (named : 0 ≤ index ∧ index < trace.numIds)
    (isOldSize : element driver.blockSizes index = .ok oldSize)
    (data : setting.debugMode ≠ .none → ∃ base,
      element driver.blockRandBase index = .ok base ∧
        ∀ offset < min size oldSize, driver.state.mem (newp + offset) = setting.pattern base offset) :
    Returns (afterRealloc setting trace driver opnum index newp size)
      (Accepted sound trace (Function.update slots index (.live size)) spent driver) := by
  obtain ⟨blocks, setBlock, blocksLength, isBlock, otherBlocks⟩ :=
    assign_inside named.1 (Keeps.inBounds named.1 named.2 knows.blocksLength) newp
  obtain ⟨sizes, setSize, sizesLength, isSize, otherSizes⟩ :=
    assign_inside named.1 (Keeps.inBounds named.1 named.2 knows.sizesLength) (min size oldSize)
  obtain ⟨lasts, setLast, lastsLength, isLast, otherLasts⟩ := assign_inside named.1
    (Keeps.inBounds named.1 named.2 (sizesLength.trans knows.sizesLength)) size
  have whole : driver.state.Contains newp size := owes.contains List.mem_cons_self
  have intact : setting.debugMode ≠ .none →
      Intact setting { driver with blocks := blocks, blockSizes := sizes } index := by
    intro checks
    obtain ⟨base, isBase, copied⟩ := data checks
    have part : driver.state.Contains newp (min size oldSize) :=
      ⟨whole.1, Nat.le_trans (Nat.add_le_add_left (Nat.min_le_left _ _) _) whole.2⟩
    exact ⟨_, _, base, isBlock, isSize, isBase, .inr part, copied⟩
  have checked : checkIndex setting trace { driver with blocks := blocks, blockSizes := sizes } opnum
      index = .ok { driver with blocks := blocks, blockSizes := sizes } :=
    checkIndex_ok fun _ => intact
  have placed := knows.elsewhere { driver with blocks := blocks, blockSizes := lasts }
    blocksLength (lastsLength.trans sizesLength) rfl
    (fun other different => ⟨otherBlocks other different,
      (otherLasts other different).trans (otherSizes other different), rfl⟩) fun _ _ _ _ => rfl
  obtain ⟨last, random, accepted⟩ := finish_live ⟨newp, size⟩
    (owes.of_same { driver with blocks := blocks, blockSizes := lasts } rfl rfl) placed named
    isBlock isLast
  have run : afterRealloc setting trace driver opnum index newp size = .ok (true, last) := by
    unfold afterRealloc
    rw [setBlock, ok_bind, isOldSize, ok_bind, setSize, ok_bind, checked, ok_bind]
    dsimp only
    rw [setLast, ok_bind, random, ok_bind, pure_eq_ok]
  exact .of_eq run ⟨rfl, accepted.errors, accepted.output, accepted.follows⟩

/-- A `realloc` to no bytes leaves the id without a block. -/
theorem afterRealloc_empty (opnum : Nat) {oldSize : Nat} (owes : Owes sound trace spent book driver)
    (knows : Knows setting trace (Function.update slots index .stale) book driver)
    (named : 0 ≤ index ∧ index < trace.numIds)
    (isOldSize : element driver.blockSizes index = .ok oldSize) :
    Returns (afterRealloc setting trace driver opnum index null 0)
      (Accepted sound trace (Function.update slots index .empty) spent driver) := by
  obtain ⟨blocks, setBlock, blocksLength, isBlock, otherBlocks⟩ :=
    assign_inside named.1 (Keeps.inBounds named.1 named.2 knows.blocksLength) null
  obtain ⟨sizes, setSize, sizesLength, isSize, otherSizes⟩ :=
    assign_inside named.1 (Keeps.inBounds named.1 named.2 knows.sizesLength) (min 0 oldSize)
  obtain ⟨lasts, setLast, lastsLength, isLast, otherLasts⟩ := assign_inside named.1
    (Keeps.inBounds named.1 named.2 (sizesLength.trans knows.sizesLength)) 0
  have checked : checkIndex setting trace { driver with blocks := blocks, blockSizes := sizes } opnum
      index = .ok { driver with blocks := blocks, blockSizes := sizes } := by
    refine checkIndex_ok fun _ checks => ?_
    obtain ⟨base, isBase⟩ := element_of_lt named.1
      (Keeps.inBounds named.1 named.2 knows.basesLength)
    refine ⟨_, _, base, isBlock, isSize, isBase, .inl (Nat.zero_min _), fun offset below => ?_⟩
    rw [Nat.zero_min] at below
    exact absurd below (Nat.not_lt_zero _)
  have placed := knows.elsewhere { driver with blocks := blocks, blockSizes := lasts }
    blocksLength (lastsLength.trans sizesLength) rfl
    (fun other different => ⟨otherBlocks other different,
      (otherLasts other different).trans (otherSizes other different), rfl⟩) fun _ _ _ _ => rfl
  obtain ⟨last, random, accepted⟩ := finish_empty
    (owes.of_same { driver with blocks := blocks, blockSizes := lasts } rfl rfl) placed named
    isBlock isLast
  have run : afterRealloc setting trace driver opnum index null 0 = .ok (true, last) := by
    unfold afterRealloc
    rw [setBlock, ok_bind, isOldSize, ok_bind, setSize, ok_bind, checked, ok_bind]
    dsimp only
    rw [setLast, ok_bind, random, ok_bind, pure_eq_ok]
  exact .of_eq run ⟨rfl, accepted.errors, accepted.output, accepted.follows⟩

/-- A `realloc` that returns a block; `rest` is the book without the old one. -/
theorem evalRealloc_live {rest : List Holding} {later : State} {oldp newp size oldSize : Nat}
    (intact : setting.debugMode ≠ .none → Intact setting driver index)
    (knows : Knows setting trace (Function.update slots index .stale) rest driver)
    (named : 0 ≤ index ∧ index < trace.numIds) (isOld : element driver.blocks index = .ok oldp)
    (isOldSize : element driver.blockSizes index = .ok oldSize) (positive : 0 < size)
    (small : size < 2 ^ 31) (run : setting.package.mmRealloc driver.state oldp size = .ok (newp, later))
    (holds : sound.contract.Holds later spent (⟨newp, size⟩ :: rest.map Holding.extent))
    (ranges : (removeRange { driver with state := later } oldp).ranges = listed setting trace rest)
    (kept : ∀ extent ∈ rest.map Holding.extent, ∀ address, extent.Covers address →
      later.mem address = driver.state.mem address)
    (data : setting.debugMode ≠ .none → ∃ base, element driver.blockRandBase index = .ok base ∧
      ∀ offset < min size oldSize, later.mem (newp + offset) = setting.pattern base offset) :
    Returns (evalRealloc setting trace driver opnum index size)
      (Accepted sound trace (Function.update slots index (.live size)) spent driver) := by
  have checked : checkIndex setting trace driver opnum index = .ok driver :=
    checkIndex_ok fun _ => intact
  have notNull : newp ≠ null :=
    Nat.pos_iff_ne_zero.mp (sound.contract.placed holds List.mem_cons_self).1
  have nonzero : size ≠ 0 := Nat.pos_iff_ne_zero.mp positive
  obtain ⟨after, added, owes, same⟩ :=
    Owes.addRange (removeRange { driver with state := later } oldp) opnum index ranges small holds
  have knows' : Knows setting trace (Function.update slots index .stale) rest after := by
    refine knows.of_same _ (by rw [same]; rfl) (by rw [same]; rfl) (by rw [same]; rfl) ?_
    intro holding member address covers
    rw [same]
    exact kept _ (List.mem_map_of_mem member) address covers
  have isOldSize' : element after.blockSizes index = .ok oldSize := by
    rw [same]
    exact isOldSize
  obtain ⟨last, resized, accepted⟩ := afterRealloc_live opnum owes knows' named isOldSize'
    (fun checks => by rw [same]; exact data checks)
  have run' : evalRealloc setting trace driver opnum index size = .ok last := by
    unfold evalRealloc
    rw [checked, ok_bind, isOld, ok_bind, run, call_ok, ok_bind]
    dsimp only
    rw [if_neg (fun both => notNull both.1), if_neg (fun both => nonzero both.2), if_pos positive,
      added, ok_bind]
    dsimp only
    rw [if_neg (by decide), resized]
  refine .of_eq run' ⟨accepted.goes, ?_, ?_, accepted.follows⟩
  · rw [accepted.errors, same]
    rfl
  · rw [accepted.output, same]
    rfl

theorem evalRealloc_empty {rest : List Holding} {later : State} {oldp oldSize : Nat}
    (intact : setting.debugMode ≠ .none → Intact setting driver index)
    (knows : Knows setting trace (Function.update slots index .stale) rest driver)
    (named : 0 ≤ index ∧ index < trace.numIds) (isOld : element driver.blocks index = .ok oldp)
    (isOldSize : element driver.blockSizes index = .ok oldSize)
    (run : setting.package.mmRealloc driver.state oldp 0 = .ok (null, later))
    (holds : sound.contract.Holds later spent (rest.map Holding.extent))
    (ranges : (removeRange { driver with state := later } oldp).ranges = listed setting trace rest)
    (kept : ∀ extent ∈ rest.map Holding.extent, ∀ address, extent.Covers address →
      later.mem address = driver.state.mem address) :
    Returns (evalRealloc setting trace driver opnum index 0)
      (Accepted sound trace (Function.update slots index .empty) spent driver) := by
  have checked : checkIndex setting trace driver opnum index = .ok driver :=
    checkIndex_ok fun _ => intact
  have owes : Owes sound trace spent rest (removeRange { driver with state := later } oldp) :=
    ⟨holds, ranges⟩
  have knows' : Knows setting trace (Function.update slots index .stale) rest
      (removeRange { driver with state := later } oldp) :=
    knows.of_same _ rfl rfl rfl fun holding member => kept _ (List.mem_map_of_mem member)
  obtain ⟨last, resized, accepted⟩ :=
    afterRealloc_empty opnum owes knows' named isOldSize
  have run' : evalRealloc setting trace driver opnum index 0 = .ok last := by
    unfold evalRealloc
    rw [checked, ok_bind, isOld, ok_bind, run, call_ok, ok_bind]
    dsimp only
    rw [if_neg (fun both => both.2 rfl), if_neg (fun both => both.1 rfl),
      if_neg (Nat.lt_irrefl 0), resized]
  exact .of_eq run' ⟨accepted.goes, accepted.errors, accepted.output, accepted.follows⟩

theorem evalRealloc_accepts (owes : Owes sound trace spent book driver)
    (knows : Knows setting trace slots book driver) (named : 0 ≤ index ∧ index < trace.numIds)
    (usable : slots index ≠ .stale) {size : Nat} (small : size < 2 ^ 31)
    (affordable : spent + (if size = 0 then 0 else sound.contract.cost size) ≤
      sound.contract.limit) :
    Returns (evalRealloc setting trace driver opnum index size)
      (Accepted sound trace
        (Function.update slots index (if size = 0 then .empty else .live size))
        (spent + if size = 0 then 0 else sound.contract.cost size) driver) := by
  have intact := knows.intact (fun _ member => owes.contains member) named usable
  cases slot : slots index with
  | stale => exact absurd slot usable
  | empty =>
      obtain ⟨isOld, isOldSize⟩ := knows.empty index named.1 named.2 slot
      have notLive : ¬ (slots index).IsLive := by
        rw [slot]
        exact id
      have stale := knows.forget notLive
      cases Nat.decEq size 0 with
      | isTrue zero =>
          subst zero
          have run : setting.package.mmRealloc driver.state null 0 = .ok (null, driver.state) := by
            have freed := sound.contract.freeNull driver.state
            have zero := sound.contract.reallocZero driver.state 0
            rw [freed] at zero
            exact zero
          rw [if_pos rfl, if_pos rfl]
          exact evalRealloc_empty intact stale named isOld isOldSize run owes.holds
            (owes.removeRange_null _) fun _ _ _ _ => rfl
      | isFalse nonzero =>
          have positive := Nat.pos_iff_ne_zero.mpr nonzero
          rw [if_neg nonzero] at affordable ⊢
          rw [if_neg nonzero]
          obtain ⟨newp, later, allocated, holds, spares⟩ :=
            sound.contract.malloc owes.holds positive (sound.largest ▸ small) affordable
          have run : setting.package.mmRealloc driver.state null size = .ok (newp, later) :=
            (sound.contract.reallocNull driver.state positive).trans allocated
          refine evalRealloc_live intact stale named isOld isOldSize positive small run holds
            (owes.removeRange_null _) spares.intact fun checks => ?_
          obtain ⟨_, _, base, _, _, isBase, _⟩ := intact checks
          refine ⟨base, isBase, fun offset below => ?_⟩
          rw [Nat.min_zero] at below
          exact absurd below (Nat.not_lt_zero _)
  | live oldSize =>
      obtain ⟨holding, member, rfl, rfl⟩ := knows.live index oldSize slot
      obtain ⟨front, back, rfl⟩ := List.append_of_mem member
      obtain ⟨_, _, isOld, isOldSize⟩ := knows.owned holding member
      have stale := knows.remove
      have holds := owes.holds
      have removed := fun later => Owes.removeRange { driver with state := later } ⟨_, holds⟩
        owes.ranges
      rw [List.map_append, List.map_cons] at holds
      cases Nat.decEq size 0 with
      | isTrue zero =>
          subst zero
          obtain ⟨later, freed, holds', spares⟩ := sound.contract.free holds
          have run : setting.package.mmRealloc driver.state holding.extent.start 0 =
              .ok (null, later) := by
            have zero := sound.contract.reallocZero driver.state holding.extent.start
            rw [freed] at zero
            exact zero
          rw [← List.map_append] at holds' spares
          rw [if_pos rfl, if_pos rfl]
          exact evalRealloc_empty intact stale named isOld isOldSize run holds' (removed later)
            spares.intact
      | isFalse nonzero =>
          have positive := Nat.pos_iff_ne_zero.mpr nonzero
          rw [if_neg nonzero] at affordable ⊢
          rw [if_neg nonzero]
          obtain ⟨newp, later, run, holds', spares, copied⟩ :=
            sound.contract.realloc holds positive (sound.largest ▸ small) affordable
          rw [← List.map_append] at holds' spares
          refine evalRealloc_live intact stale named isOld isOldSize positive small run holds'
            (removed later) spares.intact fun checks => ?_
          obtain ⟨base, isBase, data⟩ := knows.pattern checks holding member
          refine ⟨base, isBase, fun offset below => ?_⟩
          rw [Nat.min_comm] at below
          exact (copied offset below).trans (data offset (below.trans_le (Nat.min_le_left _ _)))

/-! ### Requests to free -/

theorem evalFree_accepts (owes : Owes sound trace spent book driver)
    (knows : Knows setting trace slots book driver)
    (allowed : index = -1 ∨ (0 ≤ index ∧ index < trace.numIds) ∧ slots index ≠ .stale) :
    Returns (evalFree setting trace driver opnum index)
      (Accepted sound trace
        (Function.update slots index (if slots index = .empty then .empty else .stale)) spent
        driver) := by
  cases Int.decEq index (-1) with
  | isTrue isNull =>
      subst isNull
      have freed : setting.package.mmFree driver.state null = .ok driver.state :=
        sound.contract.freeNull driver.state
      have run : evalFree setting trace driver opnum (-1) = .ok (true, driver) := by
        unfold evalFree
        rw [checkIndex_ok fun low => absurd low (by decide), ok_bind, if_pos rfl, freed, call_ok,
          ok_bind, pure_eq_ok]
      rw [knows.toKeeps.freed_null, Function.update_eq_self]
      exact .of_eq run ⟨rfl, rfl, rfl, book, owes, knows⟩
  | isFalse notNull =>
      obtain ⟨named, usable⟩ := allowed.resolve_left notNull
      have checked : checkIndex setting trace driver opnum index = .ok driver :=
        checkIndex_ok fun _ => knows.intact (fun _ member => owes.contains member) named usable
      cases slot : slots index with
      | stale => exact absurd slot usable
      | empty =>
          obtain ⟨isBlock, _⟩ := knows.empty index named.1 named.2 slot
          have freed : setting.package.mmFree driver.state null = .ok driver.state :=
            sound.contract.freeNull driver.state
          have run : evalFree setting trace driver opnum index =
              .ok (true, removeRange driver null) := by
            unfold evalFree
            rw [checked, ok_bind, if_neg notNull, isBlock, ok_bind]
            dsimp only [removeRange]
            rw [freed, call_ok, ok_bind, pure_eq_ok]
          rw [if_pos rfl, ← slot, Function.update_eq_self]
          exact .of_eq run ⟨rfl, rfl, rfl, book,
            ⟨owes.holds, owes.removeRange_null driver.state⟩,
            knows.of_same _ rfl rfl rfl fun _ _ _ _ => rfl⟩
      | live size =>
          obtain ⟨holding, member, rfl, rfl⟩ := knows.live index size slot
          obtain ⟨front, back, rfl⟩ := List.append_of_mem member
          obtain ⟨_, _, isBlock, _⟩ := knows.owned holding member
          have holds := owes.holds
          have removed := fun later => Owes.removeRange { driver with state := later } ⟨_, holds⟩
            owes.ranges
          rw [List.map_append, List.map_cons] at holds
          obtain ⟨later, freed, holds', spares⟩ := sound.contract.free holds
          have freed' : setting.package.mmFree driver.state holding.extent.start = .ok later := freed
          rw [← List.map_append] at holds' spares
          have run : evalFree setting trace driver opnum holding.index =
              .ok (true, removeRange { driver with state := later } holding.extent.start) := by
            unfold evalFree
            rw [checked, ok_bind, if_neg notNull, isBlock, ok_bind]
            dsimp only [removeRange]
            rw [freed', call_ok, ok_bind, pure_eq_ok]
          rw [if_neg (by simp)]
          exact .of_eq run ⟨rfl, rfl, rfl, front ++ back, ⟨holds', removed later⟩,
            knows.remove.of_same _ rfl rfl rfl fun other inside =>
              spares.intact _ (List.mem_map_of_mem inside)⟩

/-! ### The loop -/

theorem checkAll_ok (owes : Owes sound trace spent book driver)
    (knows : Knows setting trace slots book driver) :
    checkAll setting trace driver opnum = .ok driver := by
  unfold checkAll
  split
  case isTrue expensive =>
    have checks : setting.debugMode ≠ .none := by simp [expensive]
    have each : ∀ range ∈ driver.ranges,
        checkIndex setting trace driver opnum range.index = .ok driver := by
      intro range member
      rw [owes.ranges, listed] at member
      split at member
      case isTrue =>
        obtain ⟨holding, inside, rfl⟩ := List.mem_map.mp member
        obtain ⟨named, slot, _⟩ := knows.owned holding inside
        exact checkIndex_ok fun _ => knows.intact (fun _ member => owes.contains member) named
          (by simp [Holding.range, rangeOf, slot])
      case isFalse => exact absurd member List.not_mem_nil
    rw [sound.checkheap owes.holds, call_ok, ok_bind]
    generalize driver.ranges = ranges at each
    induction ranges with
    | nil => rfl
    | cons range ranges ih =>
        rw [List.foldlM_cons, each range List.mem_cons_self, ok_bind]
        exact ih fun other member => each other (List.mem_cons_of_mem _ member)
  case isFalse => rfl

theorem evalOp_accepts (opnum : Nat) {op : TraceOp} (follows : Follows sound trace slots spent driver)
    (admits : slots.Admits trace.numIds op)
    (affordable : spent + sound.price op ≤ sound.contract.limit) :
    Returns (evalOp setting trace driver opnum op)
      (Accepted sound trace (slots.after op) (spent + sound.price op) driver) := by
  obtain ⟨book, owes, knows⟩ := follows
  have checked : checkAll setting trace driver opnum = .ok driver := checkAll_ok owes knows
  unfold evalOp
  rw [checked, ok_bind]
  unfold Slots.Admits at admits
  unfold Slots.after
  unfold Sound.price at affordable ⊢
  cases kind : op.type with
  | alloc =>
      simp only [kind] at admits affordable ⊢
      obtain ⟨named, notLive, positive, small⟩ := admits
      rw [if_neg (Nat.pos_iff_ne_zero.mp positive)] at affordable ⊢
      exact evalAlloc_accepts owes knows named notLive positive small affordable
  | realloc =>
      simp only [kind] at admits affordable ⊢
      obtain ⟨named, usable, small⟩ := admits
      exact evalRealloc_accepts owes knows named usable small affordable
  | free =>
      simp only [kind] at admits ⊢
      exact evalFree_accepts owes knows admits

theorem evalLoop_accepts (opnum : Nat) {ops : List TraceOp} (follows : Follows sound trace slots spent driver)
    (conforms : slots.Conforms trace.numIds ops)
    (affordable : spent + (ops.map sound.price).sum ≤ sound.contract.limit) :
    Returns (evalLoop setting trace driver opnum ops) fun result =>
      result.1 = true ∧ result.2.errors = driver.errors ∧ result.2.output = driver.output := by
  induction ops generalizing slots spent driver opnum with
  | nil => exact .ok ⟨rfl, rfl, rfl⟩
  | cons op ops ih =>
      obtain ⟨admits, rest⟩ := conforms
      rw [List.map_cons, List.sum_cons, ← Nat.add_assoc] at affordable
      obtain ⟨⟨goes, after⟩, run, accepted⟩ := evalOp_accepts opnum follows admits
        (Nat.le_trans (Nat.le_add_right _ _) affordable)
      have goesOn : goes = true := accepted.goes
      subst goesOn
      obtain ⟨last, run', finished, errors, output⟩ := ih (opnum + 1) accepted.follows rest
        affordable
      refine .of_eq ?_ ⟨finished, errors.trans accepted.errors, output.trans accepted.output⟩
      rw [evalLoop, run, ok_bind]
      exact run'

end Requests

theorem evalMmValid_starts (sound : Sound setting.package) (mapped : Mapped driver.state) :
    ∃ start, Follows sound trace Slots.initial 0 start ∧ start.errors = driver.errors ∧
      start.output = driver.output ∧
      evalMmValid setting trace (trace.load driver) =
        evalLoop setting trace start 0 trace.ops := by
  obtain ⟨start, opened, holds⟩ := sound.opens mapped
  refine ⟨{ reinitTrace trace (clearRanges (trace.load driver)) with state := start },
    ⟨[], ⟨holds, ?_⟩, .initial rfl rfl List.length_replicate, by simp⟩, rfl, rfl, ?_⟩
  · unfold listed
    split <;> rfl
  · have opened' : setting.package.mmInit (reinitTrace trace (clearRanges
        { trace.load driver with state := memResetBrk (trace.load driver).state })).state =
          .ok (0, start) := opened
    unfold evalMmValid
    dsimp only
    rw [opened', call_ok, ok_bind]
    dsimp only
    rw [if_neg (by decide)]
    rfl

/-- A sound package passes on every trace of a client that keeps the rules. -/
theorem evalMmValid_accepts (sound : Sound setting.package) (mapped : Mapped driver.state)
    (conforms : trace.Conforms)
    (affordable : (trace.ops.map sound.price).sum ≤ sound.contract.limit) :
    Returns (evalMmValid setting trace (trace.load driver)) fun result =>
      result.1 = true ∧ result.2.errors = driver.errors ∧ result.2.output = driver.output := by
  obtain ⟨start, follows, errors, output, run⟩ := evalMmValid_starts sound mapped
  rw [run, ← errors, ← output]
  exact evalLoop_accepts 0 follows conforms (by rw [Nat.zero_add]; exact affordable)

end OsPractices.Mdriver
