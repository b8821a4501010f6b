import Mathlib.Logic.Function.Basic
import OsPractices.Chat.Message
import OsPractices.Library.Runs

/-!
# A group

`group.h` and the cache of `message.h`. `broadcast` runs its first and its last
section under the group's mutex and walks over the members in between without
it, so a call in progress is part of the state and its pieces are steps that
other threads' steps may come between.
-/

set_option autoImplicit false

namespace OsPractices.Chat

open Library

def maxCacheSize : Nat := 100
def maxRecentMsgNum : Nat := 20

/-- A message inside a node. `cause` and `origin` are ghosts, numbers of events
in a network: the received frame or typed line that the message stems from, and
the typed line that all began with. -/
structure Copy where
  message : Message
  cause : Nat
  origin : Nat
  deriving DecidableEq, Repr

/-- Whether two messages are the same to a cache. -/
def Message.SameKey (left right : Message) : Prop :=
  left.addr = right.addr ∧ left.id = right.id

instance (left right : Message) : Decidable (left.SameKey right) :=
  inferInstanceAs (Decidable (_ ∧ _))

/-- `MessageCache`, the oldest message first. -/
abbrev MessageCache := List Message

namespace MessageCache

def hit (cache : MessageCache) (msg : Message) : Bool := cache.any fun x => x.SameKey msg

def add (cache : MessageCache) (msg : Message) : MessageCache :=
  let cache := if hit cache msg then cache else cache ++ [msg]
  cache.drop (cache.length - maxCacheSize)

end MessageCache

/-- Where a call of `broadcast` is after its first section: in the loop over
the members, behind the one it last sent to, before the send to the client, or
before its last section. -/
inductive Stage where
  | members (last : Option Nat)
  | client
  | history
  deriving DecidableEq, Repr

structure Call where
  sendMsg : Copy
  stage : Stage
  deriving DecidableEq, Repr

/-- A `Group` and the calls of `broadcast` in progress. The members are the
keys of the set, the addresses of the sessions. Accepted calls are numbered;
the numbers in `recentMsg` are ghosts. -/
structure Group where
  recentMsg : List (Nat × Copy)
  cache : MessageCache
  members : List Nat
  client : Bool
  blackList : List Addr
  calls : Nat → Option Call
  accepted : Nat

/-- A `send` on a member or on the client. -/
inductive Send where
  | member (member number : Nat) (msg : Copy)
  | client (msg : Copy)
  deriving DecidableEq, Repr

namespace Group

/-- `Group::Group`, with the addresses read from the configuration file. -/
def create (client : Bool) (blackList : List Addr) : Group :=
  ⟨[], [], [], client, blackList, fun _ => none, 0⟩

/-- The first section of `broadcast`; `none` where the call returns. The least ttl of an
`int` stays below zero here, where the code's would wrap. -/
def accept (group : Group) (msg : Copy) : Option Group :=
  let sendMsg := { msg with message := { msg.message with ttl := msg.message.ttl - 1 } }
  if sendMsg.message.ttl ≤ 0 ∨ group.cache.hit msg.message ∨ msg.message.addr ∈ group.blackList then
    none
  else
    some { group with
      cache := group.cache.add sendMsg.message
      calls := Function.update group.calls group.accepted (some ⟨sendMsg, .members none⟩)
      accepted := group.accepted + 1 }

/-- Whether the loop has still to come to `member`. -/
def Stage.Ahead (member : Nat) : Stage → Prop
  | .members none => True
  | .members (some last) => last < member
  | _ => False

instance (member : Nat) : DecidablePred (Stage.Ahead member)
  | .members none => inferInstanceAs (Decidable True)
  | .members (some last) => inferInstanceAs (Decidable (last < member))
  | .client => inferInstanceAs (Decidable False)
  | .history => inferInstanceAs (Decidable False)

/-- The member that the loop comes to next. -/
def nextMember (group : Group) (stage : Stage) : Option Nat :=
  (group.members.filter fun member => Stage.Ahead member stage).min?

def setStage (group : Group) (number : Nat) (call : Call) (stage : Stage) : Group :=
  { group with calls := Function.update group.calls number (some { call with stage := stage }) }

/-- One send of the loop, or its end. -/
def sendMember (group : Group) (number : Nat) (call : Call) : Group × List Send :=
  match group.nextMember call.stage with
  | some member =>
      (group.setStage number call (.members (some member)), [.member member number call.sendMsg])
  | none => (group.setStage number call .client, [])

def sendClient (group : Group) (number : Nat) (call : Call) : Group × List Send :=
  (group.setStage number call .history, if group.client then [.client call.sendMsg] else [])

/-- The last section. -/
def append (group : Group) (number : Nat) (call : Call) : Group :=
  let recentMsg := group.recentMsg ++ [(number, call.sendMsg)]
  { group with
    recentMsg := recentMsg.drop (recentMsg.length - maxRecentMsgNum)
    calls := Function.update group.calls number none }

/-- The next piece of a call. -/
def advance (group : Group) (number : Nat) : Option (Group × List Send) :=
  (group.calls number).map fun call =>
    match call.stage with
    | .members _ => group.sendMember number call
    | .client => group.sendClient number call
    | .history => (group.append number call, [])

def join (group : Group) (newMember : Nat) : Group × List Send :=
  ({ group with members := group.members.insert newMember },
    group.recentMsg.map fun (number, msg) => .member newMember number msg)

def leave (group : Group) (quitMember : Nat) : Group :=
  { group with members := group.members.filter (· ≠ quitMember) }

end Group

/-- What the threads of a group do: begin a `broadcast`, go on with one, and
the two other methods. -/
inductive GroupAction where
  | broadcast (msg : Copy)
  | advance (number : Nat)
  | join (member : Nat)
  | leave (member : Nat)
  deriving DecidableEq, Repr

def Group.step (group : Group) : GroupAction → Option (Group × List Send)
  | .broadcast msg => some ((group.accept msg).getD group, [])
  | .advance number => group.advance number
  | .join member => some (group.join member)
  | .leave member => some (group.leave member, [])

/-! ## What a step does -/

/-- Where the first section of `broadcast` lets a message pass. -/
def Group.Takes (group : Group) (msg : Copy) : Prop :=
  0 < msg.message.ttl - 1 ∧ group.cache.hit msg.message = false ∧
    msg.message.addr ∉ group.blackList

instance (group : Group) (msg : Copy) : Decidable (group.Takes msg) :=
  inferInstanceAs (Decidable (_ ∧ _ ∧ _))

/-- The copy that `broadcast` sends on. -/
def Copy.sendMsg (msg : Copy) : Copy :=
  { msg with message := { msg.message with ttl := msg.message.ttl - 1 } }

@[simp] theorem Copy.sendMsg_addr (msg : Copy) :
    msg.sendMsg.message.addr = msg.message.addr := rfl

@[simp] theorem Copy.sendMsg_id (msg : Copy) : msg.sendMsg.message.id = msg.message.id := rfl

@[simp] theorem Copy.sendMsg_ttl (msg : Copy) :
    msg.sendMsg.message.ttl = msg.message.ttl - 1 := rfl

@[simp] theorem Copy.sendMsg_cause (msg : Copy) : msg.sendMsg.cause = msg.cause := rfl

@[simp] theorem Copy.sendMsg_origin (msg : Copy) : msg.sendMsg.origin = msg.origin := rfl

/-- The group after a first section that let the message pass. -/
def Group.taking (group : Group) (msg : Copy) : Group :=
  { group with
    cache := group.cache.add msg.sendMsg.message
    calls := Function.update group.calls group.accepted (some ⟨msg.sendMsg, .members none⟩)
    accepted := group.accepted + 1 }

theorem Group.accept_cases (group : Group) (msg : Copy) :
    (group.Takes msg ∧ group.accept msg = some (group.taking msg)) ∨
      (¬ group.Takes msg ∧ group.accept msg = none) := by
  cases Decidable.em (msg.sendMsg.message.ttl ≤ 0 ∨ group.cache.hit msg.message = true ∨
      msg.message.addr ∈ group.blackList) with
  | inl blocked =>
      refine .inr ⟨?_, if_pos blocked⟩
      rintro ⟨alive, fresh, white⟩
      rcases blocked with dead | hit | black
      · exact absurd alive (Int.not_lt.mpr dead)
      · simp [fresh] at hit
      · exact white black
  | inr passes =>
      refine .inl ⟨?_, if_neg passes⟩
      simp only [not_or, Int.not_le, Bool.not_eq_true] at passes
      exact passes

/-- What the first section of `broadcast` does. -/
inductive Group.Began (group : Group) (msg : Copy) : Group → Prop where
  | taken (takes : group.Takes msg) : Began group msg (group.taking msg)
  | blocked (blocked : ¬ group.Takes msg) : Began group msg group

theorem Group.began (group : Group) (msg : Copy) :
    group.Began msg ((group.accept msg).getD group) := by
  rcases group.accept_cases msg with ⟨takes, taken⟩ | ⟨blocked, refused⟩
  · rw [taken]
    exact .taken takes
  · rw [refused]
    exact .blocked blocked

theorem Group.Began.step {group next : Group} {msg : Copy} (began : group.Began msg next) :
    group.step (.broadcast msg) = some (next, []) := by
  simp only [Group.step]
  rcases group.accept_cases msg with ⟨takes, taken⟩ | ⟨blocked, refused⟩
  · cases began with
    | taken => rw [taken, Option.getD_some]
    | blocked blocked => exact absurd takes blocked
  · cases began with
    | taken takes => exact absurd takes blocked
    | blocked => rw [refused, Option.getD_none]

theorem Group.step_broadcast {group next : Group} {msg : Copy} {sends : List Send}
    (stepped : group.step (.broadcast msg) = some (next, sends)) :
    group.Began msg next ∧ sends = [] := by
  simp only [Group.step, Option.some.injEq, Prod.mk.injEq] at stepped
  obtain ⟨rfl, rfl⟩ := stepped
  exact ⟨group.began msg, rfl⟩

/-- What a piece of a call does. -/
inductive Group.Advanced (group : Group) (number : Nat) : Group → List Send → Prop where
  | sent {call : Call} {last : Option Nat} {member : Nat}
      (running : group.calls number = some call) (inLoop : call.stage = .members last)
      (found : group.nextMember (.members last) = some member) :
      Advanced group number (group.setStage number call (.members (some member)))
        [.member member number call.sendMsg]
  | looped {call : Call} {last : Option Nat}
      (running : group.calls number = some call) (inLoop : call.stage = .members last)
      (found : group.nextMember (.members last) = none) :
      Advanced group number (group.setStage number call .client) []
  | forwarded {call : Call} (running : group.calls number = some call)
      (atClient : call.stage = .client) :
      Advanced group number (group.setStage number call .history)
        (if group.client then [.client call.sendMsg] else [])
  | appended {call : Call} (running : group.calls number = some call)
      (atHistory : call.stage = .history) :
      Advanced group number (group.append number call) []

theorem Group.advance_cases {group next : Group} {number : Nat} {sends : List Send}
    (stepped : group.advance number = some (next, sends)) :
    group.Advanced number next sends := by
  unfold Group.advance at stepped
  cases running : group.calls number with
  | none => simp [running] at stepped
  | some call =>
      simp only [running, Option.map_some, Option.some.injEq] at stepped
      cases stage : call.stage with
      | members last =>
          simp only [stage, Group.sendMember] at stepped
          cases found : group.nextMember (.members last) with
          | none =>
              simp only [found] at stepped
              cases stepped
              exact .looped running stage found
          | some member =>
              simp only [found] at stepped
              cases stepped
              exact .sent running stage found
      | client =>
          simp only [stage, Group.sendClient] at stepped
          cases stepped
          exact .forwarded running stage
      | history =>
          simp only [stage] at stepped
          cases stepped
          exact .appended running stage

theorem Group.Advanced.advance {group next : Group} {number : Nat} {sends : List Send}
    (advanced : group.Advanced number next sends) :
    group.advance number = some (next, sends) := by
  cases advanced with
  | sent running inLoop found => simp [Group.advance, running, inLoop, Group.sendMember, found]
  | looped running inLoop found => simp [Group.advance, running, inLoop, Group.sendMember, found]
  | forwarded running atClient => simp [Group.advance, running, atClient, Group.sendClient]
  | appended running atHistory => simp [Group.advance, running, atHistory]

theorem Group.nextMember_some {group : Group} {stage : Stage} {member : Nat}
    (found : group.nextMember stage = some member) :
    member ∈ group.members ∧ Group.Stage.Ahead member stage ∧
      ∀ other ∈ group.members, Group.Stage.Ahead other stage → member ≤ other := by
  obtain ⟨present, least⟩ := List.min?_eq_some_iff.mp found
  simp only [List.mem_filter, decide_eq_true_eq] at present least
  exact ⟨present.1, present.2, fun other inside ahead => least other ⟨inside, ahead⟩⟩

theorem Group.nextMember_none {group : Group} {stage : Stage}
    (found : group.nextMember stage = none) {member : Nat} (inside : member ∈ group.members) :
    ¬ Group.Stage.Ahead member stage := by
  have empty := List.min?_eq_none_iff.mp found
  intro ahead
  have present : member ∈ group.members.filter fun member => Group.Stage.Ahead member stage := by
    simp [inside, ahead]
  rw [empty] at present
  cases present

end OsPractices.Chat
