import Mathlib.Logic.Relation
import OsPractices.Coroutine.Running

/-!
# Who may ask for a status

A run also tells which routine called `co_start` for each coroutine. The parents
in the records are these callers, so that the loop of `co_status` ends and meets
the ancestors of a coroutine and nothing else.
-/

set_option autoImplicit false

namespace OsPractices.Coroutine

open Library

/-- `step`, with the routine that called `co_start` for each coroutine. -/
def World.stepCallers (state : World × List (Option Nat)) (action : Nat × Call) :
    Option ((World × List (Option Nat)) × List Event) :=
  (state.1.step action).map fun (next, more) =>
    ((next, match action.2 with
      | .start => state.2 ++ [(state.1.threads action.1).executing]
      | _ => state.2), more)

/-- A coroutine itself, or a routine further up the chain of callers. -/
def Ancestor (callers : List (Option Nat)) : Nat → Nat → Prop :=
  Relation.ReflTransGen fun caller cid => callers[cid]? = some (some caller)

/-- The main routine, or an ancestor of the coroutine. -/
def Authorized (callers : List (Option Nat)) (executing : Option Nat) (cid : Nat) : Prop :=
  executing = none ∨ ∃ caller, executing = some caller ∧ Ancestor callers caller cid

/-- Whose a coroutine is, and its parent. -/
def Coro.lineage (coro : Coro) : Nat × Option Nat := (coro.tid, coro.parent)

/-- The caller of `co_start` for a coroutine: its parent, or the executing
routine while that has still to be written. -/
def callerOf (world : World) (cid : Nat) (coro : Coro) : Option Nat :=
  if (world.threads coro.tid).doing = .starting cid then (world.threads coro.tid).executing
  else coro.parent

structure Lineage (world : World) (callers : List (Option Nat)) : Prop where
  length : callers.length = world.cinfo.length
  caller : ∀ (cid : Nat) (coro : Coro), world.cinfo[cid]? = some coro →
    callers[cid]? = some (callerOf world cid coro)

theorem callerOf_settled {world : World} {cid : Nat} {coro : Coro}
    (settled : ∀ cid, (world.threads coro.tid).doing ≠ .starting cid) :
    callerOf world cid coro = coro.parent := if_neg (settled cid)

namespace World

variable {world next : World} {tid : Nat} {callers : List (Option Nat)}

/-- A step at which the parents stay and no coroutine is being started. -/
theorem lineage_of_settled (lineage : Lineage world callers)
    (same : next.cinfo.map Coro.lineage = world.cinfo.map Coro.lineage)
    (threads : ∀ other, other ≠ tid → next.threads other = world.threads other)
    (settled : ∀ cid, (world.threads tid).doing ≠ .starting cid)
    (settled' : ∀ cid, (next.threads tid).doing ≠ .starting cid) : Lineage next callers := by
  constructor
  case length => simpa [lineage.length] using (congrArg List.length same).symm
  case caller =>
    intro cid coro found
    obtain ⟨old, there, kept⟩ := map_origin same found
    simp only [Coro.lineage, Prod.mk.injEq] at kept
    rw [lineage.caller cid old there]
    congr 1
    cases eq_or_ne coro.tid tid with
    | inl own =>
        calc callerOf world cid old
            = old.parent := callerOf_settled (by rwa [kept.1, own])
          _ = coro.parent := kept.2
          _ = callerOf next cid coro := (callerOf_settled (by rwa [own])).symm
    | inr apart => simp only [callerOf, kept.1, kept.2, threads coro.tid apart]

theorem lineage_of_start (lineage : Lineage world callers)
    (user : (world.threads tid).doing = .user) :
    Lineage (world.start tid).1 (callers ++ [(world.threads tid).executing]) := by
  constructor
  case length => simp [start, setThread, lineage.length]
  case caller =>
    intro cid coro found
    cases append_cases found with
    | inl old =>
        have below := (List.getElem?_eq_some_iff.mp old).1
        rw [List.getElem?_append_left (by rwa [lineage.length]), lineage.caller cid coro old]
        congr 1
        cases eq_or_ne coro.tid tid with
        | inl own => simp [callerOf, own, user, start, setThread, Nat.ne_of_gt below]
        | inr apart => simp [callerOf, start, setThread, apart]
    | inr new =>
        obtain ⟨rfl, rfl⟩ := new
        rw [← lineage.length, List.getElem?_concat_length]
        simp [callerOf, start, setThread, lineage.length]

theorem lineage_of_launch (lineage : Lineage world callers)
    (tracks : Tracks world.cinfo tid (world.threads tid)) {cid : Nat} {info : ThreadInfo}
    (starting : (world.threads tid).doing = .starting cid)
    (known : (world.threads tid).info = some info)
    (switched : Switched (world.launching tid cid info) next tid info.running (some cid)
      ⟨some cid, .entry⟩ .afterStart) : Lineage next callers := by
  have same : next.cinfo.map Coro.lineage =
      (world.cinfo.modify cid (Coro.linkTo info.running cid)).map Coro.lineage := by
    rw [switched.cinfo]
    exact map_saveIn (fun _ _ => rfl) _ _ _
  have doing : (next.threads tid).doing = .user := switched.doing
  have threads : ∀ other, other ≠ tid → next.threads other = world.threads other :=
    fun other apart => (switched.threads other apart).trans (Function.update_of_ne apart _ _)
  constructor
  case length => simpa [lineage.length] using (congrArg List.length same).symm
  case caller =>
    intro other coro found
    obtain ⟨middle, inMiddle, kept⟩ := map_origin same found
    obtain ⟨old, there, rfl⟩ := modify_cases cid inMiddle
    have caller := lineage.caller other old there
    obtain ⟨record, fresh, own⟩ := (tracks.starting cid starting).1
    cases Decidable.em (cid = other) with
    | inl started =>
        subst started
        cases fresh.symm.trans there
        simp only [if_true, Coro.lineage, Coro.linkTo, Prod.mk.injEq] at kept
        rw [caller, callerOf, own, starting, if_pos rfl, callerOf, ← kept.1, own, doing,
          if_neg (by simp), ← kept.2, tracks.running info known]
    | inr distinct =>
        simp only [distinct, if_false, Coro.lineage, Prod.mk.injEq] at kept
        rw [caller]
        congr 1
        cases eq_or_ne coro.tid tid with
        | inl mine =>
            simp only [callerOf, kept.1, kept.2, mine, starting, doing, Doing.starting.injEq,
              distinct, reduceCtorEq, if_false]
        | inr apart => simp only [callerOf, kept.1, kept.2, threads coro.tid apart]

theorem lineage_of_step (lineage : Lineage world callers) (tracked : world.Tracked) {call : Call}
    {later : List (Option Nat)} {more : List Event}
    (stepped : stepCallers (world, callers) (tid, call) = some ((next, later), more)) :
    next.Tracked ∧ Lineage next later := by
  obtain ⟨⟨reached, events⟩, moved, same⟩ := Option.map_eq_some_iff.mp stepped
  simp only [Prod.mk.injEq] at same
  obtain ⟨⟨rfl, rfl⟩, rfl⟩ := same
  have tracks := tracked.tracks tid
  have moves := tracked.step moved
  refine ⟨tracked.moves moves, ?_⟩
  cases step_acted tracks moved with
  | started user => exact lineage_of_start lineage user
  | launched starting known switched =>
      exact lineage_of_launch lineage tracks starting known switched
  | waited passive settled idle =>
      have still : Lineage ({ world with readers := _ }.setDoing tid _) callers :=
        lineage_of_settled lineage rfl moves.threads settled
          (by simpa [setDoing, setThread] using idle)
      obtain ⟨poll, rfl⟩ | rfl | rfl := passive <;> exact still
  | yielded yields settled yielded =>
      have still : Lineage reached callers := by
        cases yielded with
        | alone =>
            exact lineage_of_settled lineage rfl moves.threads settled
              (by simpa [setDoing, setThread] using (Point.doing_settled _).1)
        | @switched _ _ _ context _ _ switched =>
            apply lineage_of_settled lineage ?_ moves.threads settled
              (switched.doing ▸ context.point.doing_settled.1)
            rw [switched.cinfo]
            exact map_saveIn (fun _ _ => rfl) world.cinfo _ _
      obtain rfl | rfl := yields <;> exact still
  | @finished cid ret _ _ context settled =>
      have same : (world.cinfo.modify cid (Coro.finished ret)).map Coro.lineage =
          world.cinfo.map Coro.lineage := map_modify cid fun _ => rfl
      apply lineage_of_settled lineage same moves.threads settled
      simpa using context.point.doing_settled.1

theorem lineage_of_run {actions : List (Nat × Call)} {events : List Event}
    {state : World × List (Option Nat)}
    (run : Run stepCallers (fun _ _ => True) (create, []) actions events state) :
    state.1.Tracked ∧ Lineage state.1 state.2 := by
  induction run with
  | nil => exact ⟨create_tracked, rfl, by simp [create]⟩
  | @snoc _ _ _ state next action _ _ stepped ih =>
      obtain ⟨tid, call⟩ := action
      exact lineage_of_step ih.2 ih.1 stepped

/-! ## The loop of `co_status` -/

/-- From a coroutine of a thread the loop ends and tells whether `running` is
above it, in a relation that agrees with the parents of the thread's records. -/
theorem walk_above (tracks : Tracks world.cinfo tid (world.threads tid))
    {above : Nat → Nat → Prop}
    (parents : ∀ (cid : Nat) (coro : Coro), world.cinfo[cid]? = some coro → coro.tid = tid →
      ∀ parent, above parent cid ↔ coro.parent = some parent) (running : Nat) {cid : Nat}
    (owned : Owned world.cinfo tid cid) {fuel : Nat} (enough : cid + 2 ≤ fuel) :
    ∃ met, walk world.cinfo running fuel (some cid) = .ok met ∧
      (met = true ↔ Relation.ReflTransGen above running cid) := by
  induction cid using Nat.strongRecOn generalizing fuel with
  | ind cid ih =>
      obtain ⟨fuel, rfl⟩ := Nat.exists_eq_add_of_le' enough
      obtain ⟨coro, found, own⟩ := owned
      cases Decidable.em (cid = running) with
      | inl same =>
          subst same
          exact ⟨true, by simp [walk], by simp [Relation.ReflTransGen.refl]⟩
      | inr different =>
          -- what is above the coroutine is above its parent
          have tail : Relation.ReflTransGen above running cid ↔
              ∃ parent, coro.parent = some parent ∧ Relation.ReflTransGen above running parent := by
            constructor
            · intro chain
              cases chain.cases_tail with
              | inl same => exact absurd same different
              | inr last =>
                  obtain ⟨parent, before, isAbove⟩ := last
                  exact ⟨parent, (parents cid coro found own parent).mp isAbove, before⟩
            · intro ⟨parent, isParent, before⟩
              exact before.tail ((parents cid coro found own parent).mpr isParent)
          rw [tail]
          cases parent : coro.parent with
          | none =>
              refine ⟨false, ?_, by simp⟩
              rw [Nat.add_succ, walk, if_neg different, found]
              simp [parent, walk]
          | some older =>
              obtain ⟨below, record, there, shared⟩ :=
                (tracks.linked cid coro found own).parent older parent
              obtain ⟨met, walked, chain⟩ := ih older below ⟨record, there, shared.trans own⟩
                (show older + 2 ≤ fuel + cid + 1 by omega)
              refine ⟨met, ?_, by simpa using chain⟩
              rw [← Nat.add_assoc, Nat.add_succ, walk, if_neg different, found]
              simpa [parent] using walked

/-- The parents of a thread that is starting no coroutine are the callers. -/
theorem lineage_parents (lineage : Lineage world callers)
    (settled : ∀ cid, (world.threads tid).doing ≠ .starting cid) (cid : Nat) (coro : Coro)
    (found : world.cinfo[cid]? = some coro) (own : coro.tid = tid) (parent : Nat) :
    callers[cid]? = some (some parent) ↔ coro.parent = some parent := by
  rw [lineage.caller cid coro found, callerOf_settled (by rwa [own]), Option.some.injEq]

theorem arrayGet_of_found {cinfo : List Coro} {cid : Nat} {coro : Coro}
    (found : cinfo[cid]? = some coro) : arrayGet cinfo cid = .ok coro := by
  rw [arrayGet, if_neg (Int.not_lt.mpr (Int.natCast_nonneg cid)), Int.toNat_natCast, found]

/-- `co_status` for a coroutine, up to its loop. -/
theorem status_of_found {cid : Nat} {coro : Coro} (found : world.cinfo[cid]? = some coro)
    (fuel : Nat) : world.status fuel tid cid =
      match world.getmeta tid with
      | none => .ok unauthorized
      | some info =>
          if coro.tid = tid then
            match info.running with
            | none => .ok coro.status.code
            | some running => do
                let met ← walk world.cinfo running fuel (some cid)
                .ok (if met then coro.status.code else unauthorized)
          else .ok unauthorized := by
  have below := (List.getElem?_eq_some_iff.mp found).1
  unfold status
  rw [if_neg (by omega), arrayGet_of_found found, Int.toNat_natCast]
  exact ok_bind coro _

end World

/-- `co_status` of any coroutine ends, and gives its status to the main routine
of its thread, to itself and to its ancestors, and to nobody else. -/
theorem status_authorized {actions : List (Nat × Call)} {events : List Event} {world : World}
    {callers : List (Option Nat)}
    (run : Run World.stepCallers (fun _ _ => True) (World.create, []) actions events
      (world, callers))
    {tid cid : Nat} {coro : Coro} (user : (world.threads tid).doing = .user)
    (found : world.cinfo[cid]? = some coro) {fuel : Nat} (enough : world.cinfo.length < fuel) :
    (coro.tid = tid ∧ Authorized callers (world.threads tid).executing cid →
      world.status fuel tid cid = .ok coro.status.code) ∧
    (¬ (coro.tid = tid ∧ Authorized callers (world.threads tid).executing cid) →
      world.status fuel tid cid = .ok unauthorized) := by
  obtain ⟨tracked, lineage⟩ := World.lineage_of_run run
  have tracks := tracked.tracks tid
  have below := (List.getElem?_eq_some_iff.mp found).1
  rw [World.status_of_found found]
  cases Decidable.em (coro.tid = tid) with
  | inr foreign =>
      refine ⟨fun both => absurd both.1 foreign, fun _ => ?_⟩
      cases world.getmeta tid with
      | none => rfl
      | some info => simp [foreign]
  | inl own =>
      cases known : (world.threads tid).info with
      | none => exact absurd known (tracked.registered tid cid ⟨coro, found, own⟩)
      | some info =>
          have running := tracks.running info known
          simp only [World.getmeta, known, own, if_true, true_and]
          cases executing : (world.threads tid).executing with
          | none =>
              rw [running, executing]
              exact ⟨fun _ => rfl, fun unauthorized => absurd (.inl rfl) unauthorized⟩
          | some caller =>
              obtain ⟨met, walked, ancestor⟩ := World.walk_above tracks
                (World.lineage_parents lineage (by simp [user])) caller ⟨coro, found, own⟩
                (show cid + 2 ≤ fuel by omega)
              have authorized : Authorized callers (some caller) cid ↔ met = true := by
                simp [Authorized, Ancestor, ancestor]
              rw [running, executing, authorized]
              simp only [walked, ok_bind]
              cases met with
              | true => exact ⟨fun _ => rfl, fun unmet => absurd rfl unmet⟩
              | false => exact ⟨by simp, fun _ => rfl⟩

/-- Coroutine 0 starts 1, which yields to the main routine; this resumes 0. Then
0 asks for 1, and so does another thread. -/
theorem status_authorized_child : ∃ events world callers,
    Run World.stepCallers (fun _ _ => True) (World.create, [])
      [(0, .start), (0, .launch), (0, .start), (0, .launch), (0, .coYield), (0, .coYield)]
      events (world, callers) ∧
    world.status 3 0 (1 : Nat) = .ok 1 ∧ world.status 3 7 (1 : Nat) = .ok unauthorized := by
  obtain ⟨events, world, run, user, other, executing, coro, found, own, status, length⟩ :
      ∃ events world, Run World.stepCallers (fun _ _ => True) (World.create, [])
        [(0, .start), (0, .launch), (0, .start), (0, .launch), (0, .coYield), (0, .coYield)]
        events (world, [none, some 0]) ∧
      (world.threads 0).doing = .user ∧ (world.threads 7).doing = .user ∧
      (world.threads 0).executing = some 0 ∧ ∃ coro, world.cinfo[1]? = some coro ∧
      coro.tid = 0 ∧ coro.status = .running ∧ world.cinfo.length = 2 :=
    ⟨_, _, Run.of_exec rfl, rfl, rfl, rfl, _, rfl, rfl, rfl, rfl⟩
  have enough : world.cinfo.length < 3 := by simp [length]
  refine ⟨events, world, _, run, ?_, ?_⟩
  · have asked :=
      (status_authorized run user found enough).1 ⟨own, .inr ⟨0, executing, .single rfl⟩⟩
    rwa [status] at asked
  · exact (status_authorized run other found enough).2 (by simp [own])

end OsPractices.Coroutine
