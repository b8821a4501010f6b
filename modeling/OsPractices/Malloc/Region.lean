import OsPractices.Malloc.Session

/-!
# The region stays where it is

No call moves the mapped region or gives a part of the heap back, whatever the
words in it are.
-/

set_option autoImplicit false

namespace OsPractices.Malloc

open Library
open Library.Memory (CopyDirection)

/-- The heap has the same bounds, and has not shrunk. -/
structure SameRegion (state next : State) : Prop where
  heap : next.heap = state.heap
  maxAddr : next.memMaxAddr = state.memMaxAddr
  brk : state.memBrk ≤ next.memBrk

theorem SameRegion.refl (state : State) : SameRegion state state := ⟨rfl, rfl, Nat.le_refl _⟩

variable {state middle next : State} {ptr value size status rank bytes : Nat}

theorem SameRegion.trans (first : SameRegion state middle) (second : SameRegion middle next) :
    SameRegion state next :=
  ⟨second.heap.trans first.heap, second.maxAddr.trans first.maxAddr, first.brk.trans second.brk⟩

theorem set_region (result : state.set ptr value = .ok next) : SameRegion state next := by
  unfold State.set at result
  split at result
  case isTrue =>
    obtain rfl := Except.ok.inj result
    exact ⟨rfl, rfl, Nat.le_refl _⟩
  case isFalse => cases result

theorem memSbrk_region {incr : Int} (result : memSbrk state incr = (ptr, next)) :
    SameRegion state next := by
  unfold memSbrk at result
  split at result
  case isTrue =>
    obtain rfl := congrArg Prod.snd result
    exact .refl _
  case isFalse =>
    obtain rfl := congrArg Prod.snd result
    exact ⟨rfl, rfl, Nat.le_add_right _ _⟩

/-! ## Lists -/

theorem linkNext_region (result : linkNext state ptr value = .ok next) : SameRegion state next := by
  unfold linkNext at result
  obtain ⟨_, _, result⟩ := bind_eq_ok_iff.mp result
  split at result
  case isTrue => exact set_region result
  case isFalse =>
    obtain rfl := Except.ok.inj result
    exact .refl _

theorem linkPrev_region (result : linkPrev state ptr value = .ok next) : SameRegion state next := by
  unfold linkPrev at result
  obtain ⟨_, _, result⟩ := bind_eq_ok_iff.mp result
  split at result
  case isTrue =>
    obtain ⟨_, _, result⟩ := bind_eq_ok_iff.mp result
    exact set_region result
  case isFalse =>
    obtain rfl := Except.ok.inj result
    exact .refl _

theorem listInit_region (result : listInit state ptr = .ok next) : SameRegion state next := by
  unfold listInit at result
  obtain ⟨_, stored, result⟩ := bind_eq_ok_iff.mp result
  obtain ⟨_, _, result⟩ := bind_eq_ok_iff.mp result
  exact (set_region stored).trans (set_region result)

theorem listRemove_region (result : listRemove state ptr rank = .ok next) :
    SameRegion state next := by
  unfold listRemove at result
  obtain ⟨_, _, result⟩ := bind_eq_ok_iff.mp result
  obtain ⟨_, _, result⟩ := bind_eq_ok_iff.mp result
  obtain ⟨_, ahead, result⟩ := bind_eq_ok_iff.mp result
  obtain ⟨_, behind, result⟩ := bind_eq_ok_iff.mp result
  obtain ⟨_, _, result⟩ := bind_eq_ok_iff.mp result
  have linked := (linkNext_region ahead).trans (linkPrev_region behind)
  split at result
  case isTrue => exact linked.trans (set_region result)
  case isFalse =>
    obtain rfl := Except.ok.inj result
    exact linked

theorem listPush_region (result : listPush state ptr rank = .ok next) : SameRegion state next := by
  unfold listPush at result
  obtain ⟨_, _, result⟩ := bind_eq_ok_iff.mp result
  obtain ⟨_, behind, result⟩ := bind_eq_ok_iff.mp result
  obtain ⟨_, stored, result⟩ := bind_eq_ok_iff.mp result
  obtain ⟨_, _, result⟩ := bind_eq_ok_iff.mp result
  obtain ⟨_, linked, result⟩ := bind_eq_ok_iff.mp result
  exact (linkPrev_region behind).trans ((set_region stored).trans
    ((set_region linked).trans (set_region result)))

/-! ## Blocks -/

theorem setTags_region (result : setTags state ptr size status = .ok next) :
    SameRegion state next := by
  unfold setTags at result
  obtain ⟨_, header, result⟩ := bind_eq_ok_iff.mp result
  obtain ⟨_, _, result⟩ := bind_eq_ok_iff.mp result
  exact (set_region header).trans (set_region result)

theorem extend_region (result : extend state size = .ok (ptr, next)) : SameRegion state next := by
  obtain ⟨⟨given, grown⟩, sbrk⟩ : ∃ granted, memSbrk state (offsetT size) = granted := exists_eq'
  have moved := memSbrk_region sbrk
  rw [extend_of_answer sbrk] at result
  split at result
  case isTrue =>
    obtain rfl := congrArg Prod.snd (Except.ok.inj result)
    exact moved
  case isFalse =>
    obtain ⟨_, stored, result⟩ := bind_eq_ok_iff.mp result
    obtain rfl := congrArg Prod.snd (Except.ok.inj result)
    exact moved.trans (set_region stored)

theorem split_region (result : Malloc.split state ptr size = .ok next) : SameRegion state next := by
  unfold Malloc.split at result
  obtain ⟨_, _, result⟩ := bind_eq_ok_iff.mp result
  obtain ⟨_, tagged, result⟩ := bind_eq_ok_iff.mp result
  obtain ⟨_, pushed, result⟩ := bind_eq_ok_iff.mp result
  obtain ⟨_, _, result⟩ := bind_eq_ok_iff.mp result
  obtain rfl := Except.ok.inj result
  exact (setTags_region tagged).trans (listPush_region pushed)

theorem coalesce_region {succ : Nat} {sel : Bool}
    (result : Malloc.coalesce state ptr succ sel = .ok next) : SameRegion state next := by
  unfold Malloc.coalesce at result
  obtain ⟨_, _, result⟩ := bind_eq_ok_iff.mp result
  obtain ⟨_, _, result⟩ := bind_eq_ok_iff.mp result
  obtain ⟨_, removed, result⟩ := bind_eq_ok_iff.mp result
  obtain ⟨_, tagged, result⟩ := bind_eq_ok_iff.mp result
  obtain ⟨_, pushed, result⟩ := bind_eq_ok_iff.mp result
  obtain ⟨_, _, result⟩ := bind_eq_ok_iff.mp result
  obtain rfl := Except.ok.inj result
  refine SameRegion.trans ?_ ((setTags_region tagged).trans (listPush_region pushed))
  split at removed
  case isTrue =>
    obtain ⟨_, second, first⟩ := bind_eq_ok_iff.mp removed
    exact (listRemove_region second).trans (listRemove_region first)
  case isFalse =>
    obtain rfl := Except.ok.inj removed
    exact .refl _

theorem place_region {sel : Bool} (result : Malloc.place state ptr size sel = .ok next) :
    SameRegion state next := by
  unfold Malloc.place at result
  obtain ⟨_, _, result⟩ := bind_eq_ok_iff.mp result
  obtain ⟨without, removed, result⟩ := bind_eq_ok_iff.mp result
  have first : SameRegion state without := by
    split at removed
    case isTrue =>
      obtain rfl := Except.ok.inj removed
      exact .refl _
    case isFalse => exact listRemove_region removed
  split at result
  case isTrue =>
    obtain ⟨_, cut, result⟩ := bind_eq_ok_iff.mp result
    exact first.trans ((split_region cut).trans (setTags_region result))
  case isFalse => exact first.trans (setTags_region result)

/-! ## Calls -/

theorem mallocExtend_region (result : Malloc.mallocExtend state bytes = .ok (ptr, next)) :
    SameRegion state next := by
  unfold Malloc.mallocExtend at result
  obtain ⟨⟨given, grown⟩, extended, result⟩ := bind_eq_ok_iff.mp result
  dsimp only at result
  split at result
  case isTrue =>
    obtain rfl := congrArg Prod.snd (Except.ok.inj result)
    exact extend_region extended
  case isFalse =>
    obtain ⟨_, tagged, result⟩ := bind_eq_ok_iff.mp result
    obtain ⟨_, linked, result⟩ := bind_eq_ok_iff.mp result
    obtain ⟨_, _, result⟩ := bind_eq_ok_iff.mp result
    obtain rfl := congrArg Prod.snd (Except.ok.inj result)
    exact (extend_region extended).trans ((setTags_region tagged).trans (listInit_region linked))

theorem malloc_region (result : Malloc.malloc state bytes = .ok (ptr, next)) :
    SameRegion state next := by
  unfold Malloc.malloc at result
  split at result
  case isTrue =>
    obtain rfl := congrArg Prod.snd (Except.ok.inj result)
    exact .refl _
  case isFalse =>
    obtain ⟨⟨found, rank⟩, _, result⟩ := bind_eq_ok_iff.mp result
    dsimp only at result
    split at result
    case isTrue => exact mallocExtend_region result
    case isFalse =>
      obtain ⟨_, removed, result⟩ := bind_eq_ok_iff.mp result
      obtain ⟨_, placed, result⟩ := bind_eq_ok_iff.mp result
      obtain ⟨_, _, result⟩ := bind_eq_ok_iff.mp result
      obtain rfl := congrArg Prod.snd (Except.ok.inj result)
      exact (listRemove_region removed).trans (place_region placed)

theorem free_region (result : Malloc.free state ptr = .ok next) : SameRegion state next := by
  have same {given : State} (returned : (pure given : Except Fault State) = .ok next) :
      SameRegion given next := by
    obtain rfl := Except.ok.inj returned
    exact .refl _
  unfold Malloc.free at result
  split at result
  case isTrue => exact same result
  case isFalse =>
    obtain ⟨_, _, result⟩ := bind_eq_ok_iff.mp result
    split at result
    case isTrue => exact same result
    case isFalse =>
      obtain ⟨_, _, result⟩ := bind_eq_ok_iff.mp result
      obtain ⟨_, pushed, result⟩ := bind_eq_ok_iff.mp result
      obtain ⟨_, tagged, result⟩ := bind_eq_ok_iff.mp result
      obtain ⟨_, _, result⟩ := bind_eq_ok_iff.mp result
      obtain ⟨_, _, result⟩ := bind_eq_ok_iff.mp result
      obtain ⟨_, _, result⟩ := bind_eq_ok_iff.mp result
      obtain ⟨_, _, result⟩ := bind_eq_ok_iff.mp result
      obtain ⟨last, merged, result⟩ := bind_eq_ok_iff.mp result
      obtain ⟨_, _, result⟩ := bind_eq_ok_iff.mp result
      have pushed := (listPush_region pushed).trans (setTags_region tagged)
      have forward : SameRegion state last := by
        split at merged
        case isTrue => exact pushed.trans (coalesce_region merged)
        case isFalse =>
          obtain rfl := Except.ok.inj merged
          exact pushed
      split at result
      case isTrue => exact forward.trans (coalesce_region result)
      case isFalse => exact forward.trans (same result)

theorem memcpy_region {direction : CopyDirection} {source length : Nat}
    (result : Malloc.memcpy direction state ptr source length = .ok next) :
    SameRegion state next := by
  unfold Malloc.memcpy at result
  split at result
  case isTrue =>
    obtain rfl := Except.ok.inj result
    exact ⟨rfl, rfl, Nat.le_refl _⟩
  case isFalse => cases result

theorem memset_region {byte : UInt8} {length : Nat}
    (result : memset state ptr byte length = .ok next) : SameRegion state next := by
  unfold memset at result
  split at result
  case isTrue =>
    obtain rfl := Except.ok.inj result
    exact ⟨rfl, rfl, Nat.le_refl _⟩
  case isFalse => cases result

theorem reallocMove_region {direction : CopyDirection} {oldptr : Nat}
    (result : Malloc.reallocMove direction state oldptr bytes = .ok (ptr, next)) :
    SameRegion state next := by
  obtain ⟨⟨given, allocated⟩, new, result⟩ := bind_eq_ok_iff.mp result
  obtain ⟨_, copied, result⟩ := bind_eq_ok_iff.mp result
  obtain ⟨_, freed, result⟩ := bind_eq_ok_iff.mp result
  obtain rfl := congrArg Prod.snd (Except.ok.inj result)
  exact (malloc_region new).trans ((memcpy_region copied).trans (free_region freed))

theorem realloc_region {direction : CopyDirection} {oldptr : Nat}
    (result : Malloc.realloc direction state oldptr bytes = .ok (ptr, next)) :
    SameRegion state next := by
  unfold Malloc.realloc at result
  split at result
  case isTrue =>
    obtain ⟨_, freed, result⟩ := bind_eq_ok_iff.mp result
    obtain rfl := congrArg Prod.snd (Except.ok.inj result)
    exact free_region freed
  case isFalse =>
    split at result
    case isTrue => exact malloc_region result
    case isFalse =>
      obtain ⟨_, _, result⟩ := bind_eq_ok_iff.mp result
      dsimp only at result
      split at result
      case isTrue =>
        obtain rfl := congrArg Prod.snd (Except.ok.inj result)
        exact .refl _
      case isFalse =>
        obtain ⟨_, _, result⟩ := bind_eq_ok_iff.mp result
        obtain ⟨_, _, result⟩ := bind_eq_ok_iff.mp result
        split at result
        case isFalse => exact reallocMove_region result
        case isTrue =>
          obtain ⟨_, _, result⟩ := bind_eq_ok_iff.mp result
          split at result
          case isFalse => exact reallocMove_region result
          case isTrue =>
            obtain ⟨_, removed, result⟩ := bind_eq_ok_iff.mp result
            obtain ⟨_, merged, result⟩ := bind_eq_ok_iff.mp result
            obtain ⟨_, placed, result⟩ := bind_eq_ok_iff.mp result
            obtain rfl := congrArg Prod.snd (Except.ok.inj result)
            exact (listRemove_region removed).trans
              ((coalesce_region merged).trans (place_region placed))

theorem calloc_region {nmemb count : Nat}
    (result : Malloc.calloc state nmemb count = .ok (ptr, next)) : SameRegion state next := by
  obtain ⟨⟨given, allocated⟩, new, result⟩ := bind_eq_ok_iff.mp result
  obtain ⟨_, cleared, result⟩ := bind_eq_ok_iff.mp result
  obtain rfl := congrArg Prod.snd (Except.ok.inj result)
  exact (malloc_region new).trans (memset_region cleared)

/-! ## Runs -/

theorem exec_region {call : Call} {ret : Option Nat} (result : exec state call = .ok (ret, next)) :
    SameRegion state next := by
  cases call with
  | malloc size =>
      obtain ⟨⟨_, _⟩, allocated, result⟩ := bind_eq_ok_iff.mp result
      obtain rfl := congrArg Prod.snd (Except.ok.inj result)
      exact malloc_region allocated
  | calloc nmemb size =>
      obtain ⟨⟨_, _⟩, allocated, result⟩ := bind_eq_ok_iff.mp result
      obtain rfl := congrArg Prod.snd (Except.ok.inj result)
      exact calloc_region allocated
  | free ptr =>
      obtain ⟨_, freed, result⟩ := bind_eq_ok_iff.mp result
      obtain rfl := congrArg Prod.snd (Except.ok.inj result)
      exact free_region freed
  | realloc direction ptr size =>
      obtain ⟨⟨_, _⟩, resized, result⟩ := bind_eq_ok_iff.mp result
      obtain rfl := congrArg Prod.snd (Except.ok.inj result)
      exact realloc_region resized
  | write position byte =>
      obtain rfl := congrArg Prod.snd (Except.ok.inj result)
      exact ⟨rfl, rfl, Nat.le_refl _⟩

/-- After any run the region is where it was mapped, and the heap lies in it. -/
theorem Reaches.region {asks : Call → Prop} {region : State} {calls : List Call}
    {outputs : List (Option Nat)} {session : Session} (mapped : Mapped region)
    (reaches : Reaches asks region calls outputs session) :
    Mapped session.state ∧ session.state.heap ≤ session.state.memBrk := by
  obtain ⟨start, init, run⟩ := reaches
  have mapped' : Mapped (memResetBrk region) := mapped.of_same rfl rfl
  rw [mmInit_opens mapped' rfl] at init
  obtain ⟨_, rfl⟩ := Prod.mk.inj (Except.ok.inj init)
  have same : SameRegion (memResetBrk region).opened session.state := by
    refine @Run.invariant _ _ _ _ _ _ _ _ _ run (fun session _ =>
      SameRegion (memResetBrk region).opened session.state) (.refl _) ?_
    intro before after _ _ call kept _ stepped
    unfold Session.step at stepped
    split at stepped
    case h_1 => cases stepped
    case h_2 ret state result =>
      obtain rfl := congrArg Prod.fst (Option.some.inj stepped)
      exact kept.trans (exec_region result)
  refine ⟨mapped'.of_same same.heap same.maxAddr, ?_⟩
  have brk := same.brk
  rw [same.heap]
  change region.heap + 32 ≤ _ at brk
  exact (Nat.le_add_right _ _).trans brk

end OsPractices.Malloc
