import OsPractices.Coroutine.Tracks
import OsPractices.Library.History

/-!
# Coherent threads

What holds of each thread and its coroutines as long as no routine returns after
its parent: the thread is tracked, the executing routine has not returned, and
`co_waitall` has seen routines that have.
-/

set_option autoImplicit false

namespace OsPractices.Coroutine

open Library

/-- A running coroutine of a thread. -/
def Alive (cinfo : List Coro) (tid cid : Nat) : Prop :=
  ∃ coro, cinfo[cid]? = some coro ∧ coro.tid = tid ∧ coro.status = .running

def Ended (cinfo : List Coro) (cid : Nat) : Prop :=
  ∃ coro, cinfo[cid]? = some coro ∧ coro.status = .finished

theorem Alive.owned {cinfo : List Coro} {tid cid : Nat} (alive : Alive cinfo tid cid) :
    Owned cinfo tid cid := by
  obtain ⟨coro, found, own, _⟩ := alive
  exact ⟨coro, found, own⟩

structure Coherent (cinfo : List Coro) (readers : List Nat) (tid : Nat) (thread : Thread) :
    Prop extends Tracks cinfo tid thread where
  executingAlive : ∀ cid, thread.executing = some cid → Alive cinfo tid cid
  startingAlive : ∀ cid, thread.doing = .starting cid → Alive cinfo tid cid
  scanning : ∀ index, thread.doing = .scanning index →
    tid ∈ readers ∧ ∀ cid < index, Ended cinfo cid

/-- What a step of one thread leaves of the array, and that its own records keep how they
ended. -/
structure Keeps (tid : Nat) (cinfo next : List Coro) : Prop extends Spares tid cinfo next where
  finished : ∀ (cid : Nat) (coro : Coro), cinfo[cid]? = some coro → coro.status = .finished →
    ∃ coro' : Coro, next[cid]? = some coro' ∧ coro'.status = .finished ∧ coro'.ret = coro.ret

namespace Keeps

variable {tid : Nat} {cinfo next : List Coro}

theorem refl (tid : Nat) (cinfo : List Coro) : Keeps tid cinfo cinfo :=
  ⟨Spares.refl tid cinfo, fun _ coro found ended => ⟨coro, found, ended, rfl⟩⟩

theorem trans {last : List Coro} (first : Keeps tid cinfo next) (second : Keeps tid next last) :
    Keeps tid cinfo last := by
  refine ⟨first.toSpares.trans second.toSpares, fun cid coro found ended => ?_⟩
  obtain ⟨middle, inMiddle, ended, ret⟩ := first.finished cid coro found ended
  obtain ⟨last, inLast, ended, ret'⟩ := second.finished cid middle inMiddle ended
  exact ⟨last, inLast, ended, ret'.trans ret⟩

theorem append (cinfo : List Coro) {coro : Coro} (own : coro.tid = tid) :
    Keeps tid cinfo (cinfo ++ [coro]) := by
  refine ⟨Spares.append cinfo own, fun cid other found ended => ?_⟩
  have old := (List.getElem?_eq_some_iff.mp found).1
  exact ⟨other, by rw [List.getElem?_append_left old, found], ended, rfl⟩

theorem modify {cid : Nat} {coro : Coro} (found : cinfo[cid]? = some coro) (own : coro.tid = tid)
    {change : Coro → Coro} (still : ∀ coro, (change coro).tid = coro.tid)
    (ended : coro.status = .finished →
      (change coro).status = .finished ∧ (change coro).ret = coro.ret) :
    Keeps tid cinfo (cinfo.modify cid change) := by
  refine ⟨Spares.modify ⟨coro, found, own⟩ still, fun other record there finished => ?_⟩
  rw [List.getElem?_modify, there]
  refine ⟨_, rfl, ?_⟩
  split
  case isTrue same =>
    subst same
    cases found.symm.trans there
    exact ended finished
  case isFalse => exact ⟨finished, rfl⟩

theorem alive {other cid : Nat} (keeps : Keeps tid cinfo next) (foreign : other ≠ tid)
    (alive : Alive cinfo other cid) : Alive next other cid := by
  obtain ⟨coro, found, own, status⟩ := alive
  exact ⟨coro, (keeps.others cid coro (own ▸ foreign)).mpr found, own, status⟩

theorem ended {cid : Nat} (keeps : Keeps tid cinfo next) (ended : Ended cinfo cid) :
    Ended next cid := by
  obtain ⟨coro, found, status⟩ := ended
  obtain ⟨coro', found', ended, _⟩ := keeps.finished cid coro found status
  exact ⟨coro', found', ended⟩

/-- A coherent thread stays so while another one works. -/
theorem coherent {readers readers' : List Nat} {other : Nat} {thread : Thread}
    (keeps : Keeps tid cinfo next) (foreign : other ≠ tid)
    (reading : other ∈ readers → other ∈ readers')
    (coherent : Coherent cinfo readers other thread) : Coherent next readers' other thread := by
  constructor
  case toTracks => exact keeps.toSpares.tracks foreign coherent.toTracks
  case executingAlive =>
    exact fun cid same => keeps.alive foreign (coherent.executingAlive cid same)
  case startingAlive =>
    exact fun cid same => keeps.alive foreign (coherent.startingAlive cid same)
  case scanning =>
    intro index same
    obtain ⟨inside, ended⟩ := coherent.scanning index same
    exact ⟨reading inside, fun cid below => keeps.ended (ended cid below)⟩

end Keeps

theorem Alive.keeps_status {tid cid : Nat} {cinfo next : List Coro}
    (alive : Alive cinfo tid cid) (keeps : ∀ coro : Coro, cinfo[cid]? = some coro →
      ∃ coro' : Coro, next[cid]? = some coro' ∧ coro'.tid = coro.tid ∧ coro'.status = coro.status) :
    Alive next tid cid := by
  obtain ⟨coro, found, own, status⟩ := alive
  obtain ⟨coro', found', same, kept⟩ := keeps coro found
  exact ⟨coro', found', same.trans own, kept.trans status⟩

/-- A change of one record that leaves its status and its thread alone. -/
theorem Alive.modify {tid cid at' : Nat} {cinfo : List Coro} {change : Coro → Coro}
    (still : ∀ coro, (change coro).tid = coro.tid ∧ (change coro).status = coro.status)
    (alive : Alive cinfo tid cid) : Alive (cinfo.modify at' change) tid cid := by
  apply alive.keeps_status
  intro coro found
  rw [List.getElem?_modify, found]
  refine ⟨_, rfl, ?_⟩
  split
  case isTrue => exact still coro
  case isFalse => exact ⟨rfl, rfl⟩

namespace Coherent

variable {cinfo : List Coro} {readers : List Nat} {tid : Nat} {thread : Thread}

/-- Something else is done by the code that executes. -/
theorem withDoing (coherent : Coherent cinfo readers tid thread) {doing : Doing}
    {readers' : List Nat} (settled : ∀ cid, thread.doing ≠ .starting cid)
    (idle : ∀ cid, doing ≠ .starting cid)
    (scanning : ∀ index, doing = .scanning index →
      tid ∈ readers' ∧ ∀ cid < index, Ended cinfo cid) :
    Coherent cinfo readers' tid { thread with doing := doing } :=
  ⟨coherent.toTracks.withDoing settled idle, coherent.executingAlive,
    fun cid same => absurd same (idle cid), scanning⟩

/-- The section of `co_start` under the locks. -/
theorem start (coherent : Coherent cinfo readers tid thread) (user : thread.doing = .user) :
    Coherent (cinfo ++ [⟨tid, none, none, ⟨some cinfo.length, .entry⟩, .running, -1⟩]) readers tid
      { thread with
        info := some (thread.info.getD ⟨none, ⟨none, .entry⟩⟩)
        doing := .starting cinfo.length } := by
  constructor
  case toTracks => exact coherent.toTracks.start user
  case executingAlive =>
    intro cid same
    apply (coherent.executingAlive cid same).keeps_status
    intro coro found
    have below := (List.getElem?_eq_some_iff.mp found).1
    exact ⟨coro, by rw [List.getElem?_append_left below, found], rfl, rfl⟩
  case startingAlive =>
    intro cid same
    cases same
    exact ⟨_, List.getElem?_concat_length, rfl, rfl⟩
  case scanning => exact nofun

end Coherent

end OsPractices.Coroutine
