import Mathlib.Data.List.Nodup
import OsPractices.Chat.Group

/-!
# Joining members

Which of the accepted messages a member is sent. A member is sent the messages
that the history holds when it joins, and those whose calls have still to come
to it; a call that is past the member in its loop and has not reached its last
section is in neither place.
-/

set_option autoImplicit false

namespace OsPractices.Chat

open Library

/-- How often a member was sent the message of an accepted call. -/
def sentTo (member number : Nat) (sends : List Send) : Nat :=
  sends.countP fun
    | .member other index _ => other = member ∧ index = number
    | .client _ => false

@[simp] theorem sentTo_append (member number : Nat) (first second : List Send) :
    sentTo member number (first ++ second) =
      sentTo member number first + sentTo member number second :=
  List.countP_append

@[simp] theorem sentTo_nil (member number : Nat) : sentTo member number [] = 0 := rfl

@[simp] theorem sentTo_member (member number other index : Nat) (msg : Copy) :
    sentTo member number [.member other index msg] =
      if other = member ∧ index = number then 1 else 0 := by
  simp [sentTo, List.countP_cons]

@[simp] theorem sentTo_client (member number : Nat) (msg : Copy) :
    sentTo member number [.client msg] = 0 := rfl

namespace Group

/-- The call of a message runs, and its loop has still to come to the member. -/
def Pending (group : Group) (member number : Nat) : Prop :=
  ∃ call, group.calls number = some call ∧ Stage.Ahead member call.stage

instance (group : Group) (member number : Nat) : Decidable (group.Pending member number) :=
  decidable_of_iff ((group.calls number).any fun call => Stage.Ahead member call.stage) (by
    cases running : group.calls number <;> simp [Pending, running])

/-- What a new member can still get: each of the last `MAX_RECENT_MSG_NUM`
accepted messages is in the history, or its call has still to come to it. -/
def Covers (group : Group) (member : Nat) : Prop :=
  ∀ number < group.accepted, group.accepted ≤ number + maxRecentMsgNum →
    number ∈ group.recentMsg.map Prod.fst ∨ group.Pending member number

/-- The history holds no message twice, and none whose call still runs. -/
structure Numbered (group : Group) : Prop where
  calls : ∀ number call, group.calls number = some call → number < group.accepted
  recent : ∀ number ∈ group.recentMsg.map Prod.fst,
    number < group.accepted ∧ group.calls number = none
  once : (group.recentMsg.map Prod.fst).Nodup

namespace Numbered

variable {group : Group}

theorem fresh (numbered : group.Numbered) : group.calls group.accepted = none := by
  cases running : group.calls group.accepted with
  | none => rfl
  | some call => exact absurd (numbered.calls _ _ running) (Nat.lt_irrefl _)

theorem taking (numbered : group.Numbered) (msg : Copy) : (group.taking msg).Numbered := by
  refine ⟨fun number call running => ?_, fun number inside => ?_, numbered.once⟩
  · simp only [Group.taking, Function.update_apply] at running ⊢
    split at running
    case isTrue same => subst same; exact Nat.lt_succ_self _
    case isFalse different => exact Nat.lt_succ_of_lt (numbered.calls _ _ running)
  · obtain ⟨below, idle⟩ := numbered.recent number inside
    refine ⟨Nat.lt_succ_of_lt below, ?_⟩
    simpa [Group.taking, Function.update_of_ne (Nat.ne_of_lt below)] using idle

theorem setStage (numbered : group.Numbered) {number : Nat} {call : Call}
    (running : group.calls number = some call) (stage : Stage) :
    (group.setStage number call stage).Numbered := by
  refine ⟨fun other found runs => ?_, fun other inside => ?_, numbered.once⟩
  · simp only [Group.setStage, Function.update_apply] at runs ⊢
    split at runs
    case isTrue same => subst same; exact numbered.calls _ _ running
    case isFalse different => exact numbered.calls _ _ runs
  · obtain ⟨below, idle⟩ := numbered.recent other inside
    refine ⟨below, ?_⟩
    have different : other ≠ number := by
      rintro rfl
      simp [running] at idle
    simpa [Group.setStage, different] using idle

theorem append (numbered : group.Numbered) {number : Nat} {call : Call}
    (running : group.calls number = some call) : (group.append number call).Numbered := by
  have absent : number ∉ group.recentMsg.map Prod.fst := by
    intro inside
    have idle := (numbered.recent number inside).2
    simp [running] at idle
  have below := numbered.calls _ _ running
  have once : ((group.recentMsg ++ [(number, call.sendMsg)]).map Prod.fst).Nodup := by
    rw [List.map_append, List.nodup_append_comm]
    exact List.nodup_cons.mpr ⟨absent, numbered.once⟩
  refine ⟨fun other found runs => ?_, fun other inside => ?_, ?_⟩
  · simp only [Group.append, Function.update_apply] at runs ⊢
    split at runs
    case isTrue same => cases runs
    case isFalse different => exact numbered.calls _ _ runs
  · have kept : other ∈ (group.recentMsg ++ [(number, call.sendMsg)]).map Prod.fst :=
      List.map_subset _ (List.drop_subset _ _) inside
    simp only [List.map_append, List.map_cons, List.map_nil, List.mem_append,
      List.mem_singleton] at kept
    simp only [Group.append, Function.update_apply]
    cases kept with
    | inl old =>
        obtain ⟨low, idle⟩ := numbered.recent other old
        exact ⟨low, by split <;> simp [idle]⟩
    | inr new => subst new; exact ⟨below, by simp⟩
  · rw [Group.append, List.map_drop]
    exact once.sublist (List.drop_sublist _ _)

theorem advanced (numbered : group.Numbered) {number : Nat} {next : Group} {sends : List Send}
    (advanced : group.Advanced number next sends) : next.Numbered := by
  cases advanced with
  | sent running => exact numbered.setStage running _
  | looped running => exact numbered.setStage running _
  | forwarded running => exact numbered.setStage running _
  | appended running => exact numbered.append running

theorem step (numbered : group.Numbered) {action : GroupAction} {next : Group}
    {sends : List Send} (stepped : group.step action = some (next, sends)) : next.Numbered := by
  cases action with
  | broadcast msg =>
      obtain ⟨began, _⟩ := Group.step_broadcast stepped
      cases began with
      | taken => exact numbered.taking msg
      | blocked => exact numbered
  | advance number => exact numbered.advanced (Group.advance_cases stepped)
  | join member =>
      cases stepped
      exact ⟨numbered.calls, numbered.recent, numbered.once⟩
  | leave member =>
      cases stepped
      exact ⟨numbered.calls, numbered.recent, numbered.once⟩

end Numbered

/-! ## What a member is sent -/

/-- How often a member will still be sent a message: a message that is not yet
accepted, or whose call has still to come to the member, counts. -/
def due (group : Group) (member number : Nat) : Nat :=
  if group.accepted ≤ number ∨ group.Pending member number then 1 else 0

/-- A loop that stands before a member stands before all members behind it. -/
theorem Stage.Ahead.trans {last : Option Nat} {member behind : Nat}
    (ahead : Stage.Ahead member (.members last)) (order : member < behind) :
    Stage.Ahead behind (.members last) := by
  cases last with
  | none => trivial
  | some last => exact Nat.lt_trans ahead order

@[simp] theorem Stage.ahead_some (member last : Nat) :
    Stage.Ahead member (.members (some last)) ↔ last < member := Iff.rfl

variable {group : Group} {member : Nat}

theorem due_congr {next : Group} {number : Nat} (accepted : next.accepted = group.accepted)
    (pending : next.Pending member number ↔ group.Pending member number) :
    next.due member number = group.due member number := by
  simp only [due, accepted, pending]

theorem due_taking (msg : Copy) (number : Nat) :
    (group.taking msg).due member number = group.due member number := by
  have pending : (group.taking msg).Pending member number ↔
      number = group.accepted ∨ group.Pending member number := by
    unfold Pending
    simp only [taking, Function.update_apply]
    split
    case isTrue same => simp [same, Stage.Ahead]
    case isFalse different => simp [different]
  unfold due
  simp only [pending]
  congr 1
  simp only [taking, eq_iff_iff]
  constructor
  · rintro (above | rfl | ahead)
    · exact .inl (by omega)
    · exact .inl (Nat.le_refl _)
    · exact .inr ahead
  · rintro (above | ahead)
    · cases Nat.lt_or_eq_of_le above with
      | inl above => exact .inl above
      | inr same => exact .inr (.inl same.symm)
    · exact .inr (.inr ahead)

theorem due_of_running (numbered : group.Numbered) {number : Nat} {call : Call}
    (running : group.calls number = some call) :
    group.due member number = if Stage.Ahead member call.stage then 1 else 0 := by
  have below := Nat.not_le.mpr (numbered.calls _ _ running)
  simp [due, Pending, running, below]

theorem setStage_calls (group : Group) (number : Nat) (call : Call) (stage : Stage) :
    (group.setStage number call stage).calls number = some { call with stage := stage } :=
  Function.update_self ..

theorem due_setStage_of_ne {number other : Nat} (call : Call) (stage : Stage)
    (different : other ≠ number) :
    (group.setStage number call stage).due member other = group.due member other :=
  due_congr rfl (by simp [Pending, setStage, different])

theorem due_setStage (numbered : group.Numbered) {number : Nat} {call : Call}
    (running : group.calls number = some call) (stage : Stage) :
    (group.setStage number call stage).due member number =
      if Stage.Ahead member stage then 1 else 0 :=
  due_of_running (numbered.setStage running stage) (setStage_calls group number call stage)

/-- A stage that is not ahead of a member goes over into one that is not. -/
theorem due_setStage_past (numbered : group.Numbered) {number other : Nat} {call : Call}
    (running : group.calls number = some call) {stage : Stage}
    (past : ¬ Stage.Ahead member call.stage) (still : ¬ Stage.Ahead member stage) :
    (group.setStage number call stage).due member other = group.due member other := by
  cases eq_or_ne other number with
  | inl same =>
      subst same
      rw [due_setStage numbered running, due_of_running numbered running, if_neg past, if_neg still]
  | inr different => exact due_setStage_of_ne call stage different

theorem due_append (numbered : group.Numbered) {number other : Nat} {call : Call}
    (running : group.calls number = some call) (atHistory : call.stage = .history) :
    (group.append number call).due member other = group.due member other := by
  cases eq_or_ne other number with
  | inl same =>
      subst same
      have below := Nat.not_le.mpr (numbered.calls _ _ running)
      rw [due_of_running numbered running]
      simp [due, Pending, append, below, atHistory, Stage.Ahead]
  | inr different => exact due_congr rfl (by simp [Pending, append, different])

/-- The sends of a call and what it leaves due add up. -/
theorem due_advanced (numbered : group.Numbered) (inside : member ∈ group.members)
    {number other : Nat} {next : Group} {sends : List Send}
    (advanced : group.Advanced number next sends) :
    sentTo member other sends + next.due member other = group.due member other := by
  cases advanced with
  | @sent call last target running inLoop found =>
      obtain ⟨_, ahead, least⟩ := Group.nextMember_some found
      rw [sentTo_member]
      cases eq_or_ne other number with
      | inr different =>
          rw [due_setStage_of_ne call _ different, if_neg fun both => different both.2.symm,
            Nat.zero_add]
      | inl same =>
          subst same
          rw [due_setStage numbered running, due_of_running numbered running, inLoop]
          have order := Nat.lt_trichotomy target member
          rcases order with before | here | behind
          · have still : Stage.Ahead member (.members last) := ahead.trans before
            simp [still, before, Nat.ne_of_lt before]
          · subst here
            simp [ahead]
          · have past : ¬ Stage.Ahead member (.members last) := fun ahead =>
              Nat.not_lt.mpr (least member inside ahead) behind
            simp [past, Nat.ne_of_gt behind, Nat.lt_asymm behind]
  | looped running inLoop found =>
      have past := Group.nextMember_none found inside
      rw [sentTo_nil, Nat.zero_add]
      exact due_setStage_past numbered running (by rwa [inLoop]) id
  | forwarded running atClient =>
      have silent : ∀ msg : Copy,
          sentTo member other (if group.client then [.client msg] else []) = 0 := by
        intro msg
        split <;> rfl
      rw [silent, Nat.zero_add]
      exact due_setStage_past numbered running (by rw [atClient]; exact id) id
  | appended running atHistory =>
      rw [sentTo_nil, Nat.zero_add]
      exact due_append numbered running atHistory

/-- The steps in which a member neither joins nor leaves. -/
def Stays (member : Nat) (_ : Group) (action : GroupAction) : Prop :=
  action ≠ .join member ∧ action ≠ .leave member

theorem due_step (numbered : group.Numbered) (inside : member ∈ group.members)
    {action : GroupAction} (stays : group.Stays member action) {next : Group}
    {sends : List Send} (stepped : group.step action = some (next, sends)) (number : Nat) :
    member ∈ next.members ∧
      sentTo member number sends + next.due member number = group.due member number := by
  cases action with
  | broadcast msg =>
      obtain ⟨began, rfl⟩ := Group.step_broadcast stepped
      rw [sentTo_nil, Nat.zero_add]
      cases began with
      | taken => exact ⟨inside, due_taking msg number⟩
      | blocked => exact ⟨inside, rfl⟩
  | advance index =>
      have advanced := Group.advance_cases stepped
      refine ⟨?_, due_advanced numbered inside advanced⟩
      cases advanced <;> exact inside
  | join other =>
      cases stepped
      have different : ¬ other = member := fun same => stays.1 (congrArg _ same)
      have silent : sentTo member number (group.join other).2 = 0 := by
        simp [sentTo, join, List.countP_eq_zero, different]
      have sum : sentTo member number (group.join other).2 +
          (group.join other).1.due member number = group.due member number := by
        rw [silent, Nat.zero_add]
        exact due_congr rfl Iff.rfl
      exact ⟨List.mem_insert_of_mem inside, sum⟩
  | leave other =>
      cases stepped
      have different : member ≠ other := fun same => stays.2 (congrArg _ same.symm)
      rw [sentTo_nil, Nat.zero_add]
      exact ⟨by simp [leave, inside, different], due_congr rfl Iff.rfl⟩

/-- Over a run in which a member stays, what it is sent and what is still due
add up. -/
theorem due_of_run (numbered : group.Numbered) (inside : member ∈ group.members)
    {actions : List GroupAction} {sends : List Send} {final : Group}
    (run : Run Group.step (Stays member) group actions sends final) :
    final.Numbered ∧ member ∈ final.members ∧
      ∀ number, sentTo member number sends + final.due member number =
        group.due member number := by
  induction run with
  | nil => exact ⟨numbered, inside, fun number => Nat.zero_add _⟩
  | snoc _ stays stepped ih =>
      obtain ⟨numbered, inside, sum⟩ := ih
      refine ⟨numbered.step stepped, (due_step numbered inside stays stepped 0).1,
        fun number => ?_⟩
      rw [sentTo_append, Nat.add_assoc, (due_step numbered inside stays stepped number).2, sum]

theorem due_of_ended {number : Nat} (accepted : number < group.accepted)
    (ended : group.calls number = none) : group.due member number = 0 := by
  simp [due, Pending, ended, accepted]

theorem replayed (numbered : group.Numbered) (member number : Nat) :
    sentTo member number (group.join member).2 =
      if number ∈ group.recentMsg.map Prod.fst then 1 else 0 := by
  have count : sentTo member number (group.join member).2 =
      (group.recentMsg.map Prod.fst).count number := by
    simp only [sentTo, join, List.countP_map, List.count]
    apply List.countP_congr
    intro entry _
    simp
  rw [count]
  split
  case isTrue present => exact List.count_eq_one_of_mem numbered.once present
  case isFalse absent => exact List.count_eq_zero_of_not_mem absent

/-- What a member is sent from its joining on. -/
theorem joined_sum (numbered : group.Numbered) {late : List GroupAction} {sends : List Send}
    {final : Group} (run : Run Group.step (Stays member) (group.join member).1 late sends final)
    (number : Nat) :
    sentTo member number ((group.join member).2 ++ sends) + final.due member number =
      (if number ∈ group.recentMsg.map Prod.fst then 1 else 0) + group.due member number := by
  have joined : (group.join member).1.Numbered := ⟨numbered.calls, numbered.recent, numbered.once⟩
  have inside : member ∈ (group.join member).1.members := List.mem_insert_self
  have sum := (due_of_run joined inside run).2.2 number
  have same : (group.join member).1.due member number = group.due member number :=
    due_congr rfl Iff.rfl
  rw [sentTo_append, replayed numbered, Nat.add_assoc, sum, same]

/-! ## Calls end -/

/-- A call can be taken to its end while the member stays. -/
def CanEnd (group : Group) (member number : Nat) : Prop :=
  ∃ actions sends final, Run Group.step (Stays member) group actions sends final ∧
    final.accepted = group.accepted ∧ final.calls number = none

theorem CanEnd.before {number : Nat} {next : Group} {sends : List Send}
    (advanced : group.Advanced number next sends) (ends : next.CanEnd member number) :
    group.CanEnd member number := by
  obtain ⟨actions, more, final, run, accepted, ended⟩ := ends
  have stepped : group.step (.advance number) = some (next, sends) := advanced.advance
  refine ⟨_, _, final, run.cons ⟨by simp, by simp⟩ stepped, accepted.trans ?_, ended⟩
  cases advanced <;> rfl

theorem canEnd_idle {number : Nat} (ended : group.calls number = none) :
    group.CanEnd member number :=
  ⟨[], [], group, .nil, rfl, ended⟩

theorem canEnd_history {number : Nat} {call : Call} (running : group.calls number = some call)
    (atHistory : call.stage = .history) : group.CanEnd member number :=
  .before (.appended running atHistory) (canEnd_idle (by simp [append]))

theorem canEnd_client {number : Nat} {call : Call} (running : group.calls number = some call)
    (atClient : call.stage = .client) : group.CanEnd member number :=
  .before (.forwarded running atClient)
    (canEnd_history (setStage_calls group number call .history) rfl)

/-- How many members a loop has still to come to. -/
def remaining (group : Group) (stage : Stage) : Nat :=
  (group.members.filter fun member => Stage.Ahead member stage).length

theorem remaining_lt {last : Option Nat} {target : Nat}
    (found : group.nextMember (.members last) = some target) :
    group.remaining (.members (some target)) < group.remaining (.members last) := by
  obtain ⟨inside, ahead, _⟩ := Group.nextMember_some found
  have fewer : (group.members.filter fun member => Stage.Ahead member (.members (some target))) =
      (group.members.filter fun member => Stage.Ahead member (.members last)).filter
        fun member => Stage.Ahead member (.members (some target)) := by
    rw [List.filter_filter]
    apply List.filter_congr
    intro member _
    simpa using fun behind => ahead.trans behind
  unfold remaining
  rw [fewer, List.length_filter_lt_length_iff_exists]
  exact ⟨target, by simp [inside, ahead], by simp⟩

theorem canEnd_members {number : Nat} {call : Call} {last : Option Nat}
    (running : group.calls number = some call) (inLoop : call.stage = .members last) :
    group.CanEnd member number := by
  -- The induction is on the members that the loop has still to come to.
  induction left : group.remaining (.members last) using Nat.strong_induction_on
    generalizing group call last with
  | h left ih =>
      cases found : group.nextMember (.members last) with
      | none =>
          exact .before (.looped running inLoop found)
            (canEnd_client (setStage_calls group number call .client) rfl)
      | some target =>
          apply CanEnd.before (.sent running inLoop found)
          exact ih _ (left ▸ remaining_lt found)
            (setStage_calls group number call (.members (some target))) rfl rfl

theorem canEnd (group : Group) (member number : Nat) : group.CanEnd member number := by
  cases running : group.calls number with
  | none => exact canEnd_idle running
  | some call =>
      cases stage : call.stage with
      | members last => exact canEnd_members running stage
      | client => exact canEnd_client running stage
      | history => exact canEnd_history running stage

/-! ## No message is lost -/

theorem numbered_of_run {client : Bool} {blackList : List Addr} {actions : List GroupAction}
    {sends : List Send} {allowed : Group → GroupAction → Prop}
    (run : Run Group.step allowed (Group.create client blackList) actions sends group) :
    group.Numbered := by
  induction run with
  | nil => exact ⟨by simp [create], by simp [create], by simp [create]⟩
  | snoc _ _ stepped ih => exact ih.step stepped

/-- However the threads go on while a new member stays, each message accepted
after it joined, or among the last `MAX_RECENT_MSG_NUM` accepted when it joined,
is sent to it exactly once, and not twice while its call still runs. -/
def ServesJoined (group : Group) (member : Nat) : Prop :=
  ∀ late sends final, Run Group.step (Stays member) (group.join member).1 late sends final →
    ∀ number < final.accepted, group.accepted ≤ number + maxRecentMsgNum →
      sentTo member number ((group.join member).2 ++ sends) ≤ 1 ∧
        (final.calls number = none →
          sentTo member number ((group.join member).2 ++ sends) = 1)

end Group

/-- A typed line that a node accepts. -/
def hello : Copy := ⟨⟨⟨0, 1⟩, 10, 0, []⟩, 0, 0⟩

end OsPractices.Chat
