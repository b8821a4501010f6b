import OsPractices.Coroutine.Code

/-!
# Control follows `meta->running`

What holds of each thread and its coroutines in every run: the record names the
executing routine, each context is the routine's own, and each routine returns
to an older coroutine of the thread or to the main routine.
-/

set_option autoImplicit false

namespace OsPractices.Coroutine

/-- A coroutine of a thread. -/
def Owned (cinfo : List Coro) (tid cid : Nat) : Prop :=
  ∃ coro, cinfo[cid]? = some coro ∧ coro.tid = tid

/-- The context in a record continues behind a `swapcontext`. -/
def Coro.Saved (coro : Coro) : Prop := coro.uc.point ≠ .entry

/-- The context in a record is the routine's own, and the parent, to which it
returns, is an older coroutine of the thread. -/
structure Coro.Linked (coro : Coro) (cinfo : List Coro) (cid : Nat) : Prop where
  owner : coro.uc.owner = some cid
  link : coro.link = coro.parent
  parent : ∀ parent, coro.parent = some parent →
    parent < cid ∧ ∃ other, cinfo[parent]? = some other ∧ other.tid = coro.tid

structure Tracks (cinfo : List Coro) (tid : Nat) (thread : Thread) : Prop where
  unregistered : thread.info = none →
    thread.executing = none ∧ ∀ cid, thread.doing ≠ .starting cid
  running : ∀ info, thread.info = some info → info.running = thread.executing
  main : ∀ info, thread.info = some info → thread.executing ≠ none → info.mainUc.owner = none
  executing : ∀ cid, thread.executing = some cid → Owned cinfo tid cid
  starting : ∀ cid, thread.doing = .starting cid → Owned cinfo tid cid ∧
    ∀ older, thread.executing = some older → older < cid
  saved : ∀ (cid : Nat) (coro : Coro), cinfo[cid]? = some coro → coro.tid = tid →
    coro.status = .running → thread.executing ≠ some cid → thread.doing ≠ .starting cid → coro.Saved
  linked : ∀ (cid : Nat) (coro : Coro), cinfo[cid]? = some coro → coro.tid = tid →
    coro.Linked cinfo cid

theorem Point.doing_settled (point : Point) :
    (∀ cid, point.doing ≠ .starting cid) ∧ ∀ index, point.doing ≠ .scanning index := by
  cases point with
  | entry => simp [Point.doing]
  | afterStart => simp [Point.doing]
  | afterYield poll => cases poll <;> simp [Point.doing]

/-! ## Changes of the array -/

theorem append_cases {cinfo : List Coro} {coro record : Coro} {cid : Nat}
    (found : (cinfo ++ [coro])[cid]? = some record) :
    cinfo[cid]? = some record ∨ cid = cinfo.length ∧ record = coro := by
  cases Nat.lt_or_ge cid cinfo.length with
  | inl old => exact .inl (by rwa [List.getElem?_append_left old] at found)
  | inr new =>
      rw [List.getElem?_append_right new, List.getElem?_singleton] at found
      obtain ⟨last, same⟩ := Option.ite_none_right_eq_some.mp found
      exact .inr ⟨by omega, (Option.some.inj same).symm⟩

theorem modify_cases {cinfo : List Coro} (at' : Nat) {cid : Nat} {change : Coro → Coro}
    {coro : Coro}
    (found : (cinfo.modify at' change)[cid]? = some coro) :
    ∃ old, cinfo[cid]? = some old ∧ coro = if at' = cid then change old else old := by
  rw [List.getElem?_modify] at found
  obtain ⟨old, there, same⟩ := Option.map_eq_some_iff.mp found
  exact ⟨old, there, same.symm⟩

theorem map_modify {Value : Type} {cinfo : List Coro} {change : Coro → Coro} (at' : Nat)
    {read : Coro → Value} (still : ∀ coro, read (change coro) = read coro) :
    (cinfo.modify at' change).map read = cinfo.map read := by
  apply List.ext_getElem?
  intro cid
  simp only [List.getElem?_map, List.getElem?_modify]
  cases cinfo[cid]? with
  | none => rfl
  | some coro =>
      cases Decidable.em (at' = cid) with
      | inl same => simp [same, still]
      | inr different => simp [different]

theorem map_origin {Value : Type} {cinfo next : List Coro} {read : Coro → Value} {cid : Nat}
    {coro : Coro} (same : next.map read = cinfo.map read) (found : next[cid]? = some coro) :
    ∃ old, cinfo[cid]? = some old ∧ read old = read coro := by
  have listed := congrArg (fun values => values[cid]?) same
  simp only [List.getElem?_map, found, Option.map_some] at listed
  exact Option.map_eq_some_iff.mp listed.symm

/-- What a step of one thread leaves of the array: the records of the other
threads, and who its own belong to. -/
structure Spares (tid : Nat) (cinfo next : List Coro) : Prop where
  others : ∀ (cid : Nat) (coro : Coro), coro.tid ≠ tid →
    (next[cid]? = some coro ↔ cinfo[cid]? = some coro)
  each : ∀ (cid : Nat) (coro : Coro), cinfo[cid]? = some coro →
    ∃ coro' : Coro, next[cid]? = some coro' ∧ coro'.tid = coro.tid

namespace Spares

variable {tid : Nat} {cinfo next : List Coro}

theorem refl (tid : Nat) (cinfo : List Coro) : Spares tid cinfo cinfo :=
  ⟨fun _ _ _ => Iff.rfl, fun _ coro found => ⟨coro, found, rfl⟩⟩

theorem trans {last : List Coro} (first : Spares tid cinfo next) (second : Spares tid next last) :
    Spares tid cinfo last := by
  refine ⟨fun cid coro other => (second.others cid coro other).trans (first.others cid coro other),
    fun cid coro found => ?_⟩
  obtain ⟨middle, inMiddle, same⟩ := first.each cid coro found
  obtain ⟨last, inLast, same'⟩ := second.each cid middle inMiddle
  exact ⟨last, inLast, same'.trans same⟩

theorem append (cinfo : List Coro) {coro : Coro} (own : coro.tid = tid) :
    Spares tid cinfo (cinfo ++ [coro]) := by
  refine ⟨fun cid other foreign => ⟨fun found => ?_, fun found => ?_⟩, fun cid other found => ?_⟩
  · cases append_cases found with
    | inl old => exact old
    | inr new => exact absurd (new.2 ▸ own) foreign
  · rw [List.getElem?_append_left (List.getElem?_eq_some_iff.mp found).1, found]
  · exact ⟨other, by rw [List.getElem?_append_left (List.getElem?_eq_some_iff.mp found).1, found],
      rfl⟩

theorem modify {cid : Nat} {change : Coro → Coro} (owned : Owned cinfo tid cid)
    (still : ∀ coro, (change coro).tid = coro.tid) :
    Spares tid cinfo (cinfo.modify cid change) := by
  obtain ⟨coro, found, own⟩ := owned
  refine ⟨fun other record foreign => ?_, fun other record there => ?_⟩
  · rw [List.getElem?_modify]
    cases eq_or_ne cid other with
    | inl same =>
        subst same
        simp only [found, if_true, Option.map_eq_map, Option.map_some, Option.some.injEq]
        constructor
        · intro same
          exact absurd (same ▸ (still coro).trans own) foreign
        · intro same
          exact absurd (same ▸ own) foreign
    | inr different => simp [different]
  · rw [List.getElem?_modify, there]
    refine ⟨_, rfl, ?_⟩
    split
    case isTrue => exact still record
    case isFalse => rfl

theorem owned {other cid : Nat} (spares : Spares tid cinfo next) (owned : Owned cinfo other cid) :
    Owned next other cid := by
  obtain ⟨coro, found, own⟩ := owned
  obtain ⟨coro', found', same⟩ := spares.each cid coro found
  exact ⟨coro', found', same.trans own⟩

theorem linked {cid : Nat} {coro coro' : Coro} (spares : Spares tid cinfo next)
    (linked : coro.Linked cinfo cid) (owner : coro'.uc.owner = coro.uc.owner)
    (link : coro'.link = coro.link) (parent : coro'.parent = coro.parent)
    (same : coro'.tid = coro.tid) : coro'.Linked next cid := by
  refine ⟨owner.trans linked.owner, link.trans (linked.link.trans parent.symm),
    fun older isParent => ?_⟩
  obtain ⟨below, there⟩ := linked.parent older (parent ▸ isParent)
  exact ⟨below, same ▸ spares.owned there⟩

/-- A thread is not disturbed while another one works. -/
theorem tracks {other : Nat} {thread : Thread} (spares : Spares tid cinfo next)
    (foreign : other ≠ tid) (tracks : Tracks cinfo other thread) : Tracks next other thread where
  unregistered := tracks.unregistered
  running := tracks.running
  main := tracks.main
  executing cid same := spares.owned (tracks.executing cid same)
  starting cid same :=
    ⟨spares.owned (tracks.starting cid same).1, (tracks.starting cid same).2⟩
  saved cid coro found own :=
    tracks.saved cid coro ((spares.others cid coro (own ▸ foreign)).mp found) own
  linked cid coro found own :=
    spares.linked (tracks.linked cid coro ((spares.others cid coro (own ▸ foreign)).mp found) own)
      rfl rfl rfl rfl

end Spares

namespace Tracks

variable {cinfo : List Coro} {tid : Nat} {thread : Thread}

/-- The thread after control went to a routine whose record `running` names. -/
theorem of_target {info : ThreadInfo} {target : Option Nat} (named : info.running = target)
    (owned : ∀ cid, target = some cid → Owned cinfo tid cid)
    (main : target ≠ none → info.mainUc.owner = none)
    (saved : ∀ (cid : Nat) (coro : Coro), cinfo[cid]? = some coro → coro.tid = tid →
      coro.status = .running → target ≠ some cid → coro.Saved)
    (linked : ∀ (cid : Nat) (coro : Coro), cinfo[cid]? = some coro → coro.tid = tid →
      coro.Linked cinfo cid) (point : Point) :
    Tracks cinfo tid ⟨some info, target, point.doing⟩ := by
  constructor
  case executing => exact owned
  case unregistered => exact nofun
  case running =>
    intro _ same
    cases same
    exact named
  case main =>
    intro _ same
    cases same
    exact main
  case starting => exact fun cid same => absurd same (point.doing_settled.1 cid)
  case saved => exact fun cid coro found own status other _ => saved cid coro found own status other
  case linked => exact linked

/-- Something else is done by the code that executes. -/
theorem withDoing (tracks : Tracks cinfo tid thread) {doing : Doing}
    (settled : ∀ cid, thread.doing ≠ .starting cid) (idle : ∀ cid, doing ≠ .starting cid) :
    Tracks cinfo tid { thread with doing := doing } where
  executing := tracks.executing
  unregistered := fun missing => ⟨(tracks.unregistered missing).1, idle⟩
  running := tracks.running
  main := tracks.main
  starting cid same := absurd same (idle cid)
  saved cid coro found own status other _ :=
    tracks.saved cid coro found own status other (settled cid)
  linked := tracks.linked

/-- The section of `co_start` under the locks. -/
theorem start (tracks : Tracks cinfo tid thread) (user : thread.doing = .user) :
    Tracks (cinfo ++ [⟨tid, none, none, ⟨some cinfo.length, .entry⟩, .running, -1⟩]) tid
      { thread with
        info := some (thread.info.getD ⟨none, ⟨none, .entry⟩⟩)
        doing := .starting cinfo.length } := by
  have spares : Spares tid cinfo
      (cinfo ++ [⟨tid, none, none, ⟨some cinfo.length, .entry⟩, .running, -1⟩]) :=
    Spares.append cinfo rfl
  constructor
  case executing => exact fun cid same => spares.owned (tracks.executing cid same)
  case unregistered => exact nofun
  case running =>
    intro info same
    cases same
    cases known : thread.info with
    | none => exact (tracks.unregistered known).1.symm
    | some info => exact tracks.running info known
  case main =>
    intro info same busy
    cases same
    cases known : thread.info with
    | none => rfl
    | some info => exact tracks.main info known busy
  case starting =>
    intro cid same
    cases same
    refine ⟨⟨_, List.getElem?_concat_length, rfl⟩, fun older executing => ?_⟩
    obtain ⟨coro, found, _⟩ := tracks.executing older executing
    exact (List.getElem?_eq_some_iff.mp found).1
  case saved =>
    intro cid coro found own status other fresh
    cases append_cases found with
    | inl old => exact tracks.saved cid coro old own status other (by simp [user])
    | inr new => exact absurd (congrArg Doing.starting new.1.symm) fresh
  case linked =>
    intro cid coro found own
    cases append_cases found with
    | inl old => exact spares.linked (tracks.linked cid coro old own) rfl rfl rfl rfl
    | inr new =>
        obtain ⟨rfl, rfl⟩ := new
        exact ⟨rfl, rfl, nofun⟩

end Tracks

end OsPractices.Coroutine
