import OsPractices.Chat.Node

/-!
# The messages a node holds

How a property of messages is carried through a node: from what is read and
typed to what is relayed, posted, called for, remembered and queued.
-/

set_option autoImplicit false

namespace OsPractices.Chat

/-- The messages on their way through a node, and in its history, have a
property; those that are only about to be broadcast have another. -/
structure Node.Held (sendable relayable : Copy → Prop) (node : Node) : Prop where
  calls : ∀ number call, node.group.calls number = some call → sendable call.sendMsg
  recent : ∀ entry ∈ node.group.recentMsg, sendable entry.2
  posted : ∀ msg ∈ node.posted, sendable msg
  handling : ∀ handling, node.handling = some handling → sendable handling.msg
  relaying : ∀ msg ∈ node.relaying, relayable msg

/-- What an action brings in. -/
def Node.Enters (sendable relayable : Copy → Prop) (node : Node) : NodeAction → Prop
  | .typed content ttl event => sendable (node.typedMsg content ttl event)
  | .sessionRead msg => relayable msg
  | .clientRead msg => 0 < msg.message.ttl - 1 → relayable msg.sendMsg
  | _ => True

/-- The messages that `broadcast` takes become sendable. -/
def Group.Makes (sendable relayable : Copy → Prop) (group : Group) : Prop :=
  ∀ msg, group.Takes msg → relayable msg ∨ sendable msg → sendable msg.sendMsg

/-- A message that `Client::do_read` lets pass. -/
def Node.Passes (node : Node) (msg : Copy) : Prop :=
  0 < msg.message.ttl ∧ node.cache.hit msg.message = false

namespace Node.Held

variable {sendable relayable : Copy → Prop} {node : Node}

theorem mono {sendable' relayable' : Copy → Prop} (held : node.Held sendable relayable)
    (sends : ∀ msg, sendable msg → sendable' msg)
    (relays : ∀ msg, relayable msg → relayable' msg) : node.Held sendable' relayable' :=
  ⟨fun number call running => sends _ (held.calls number call running),
    fun entry inside => sends _ (held.recent entry inside),
    fun msg inside => sends _ (held.posted msg inside),
    fun handling holds => sends _ (held.handling handling holds),
    fun msg inside => relays _ (held.relaying msg inside)⟩

theorem began {msg : Copy} {group : Group} (held : node.Held sendable relayable)
    (makes : node.group.Makes sendable relayable) (enters : relayable msg ∨ sendable msg)
    (began : node.group.Began msg group) :
    ({ node with group := group } : Node).Held sendable relayable := by
  cases began with
  | blocked => exact held
  | taken takes =>
      refine ⟨fun number call running => ?_, held.recent, held.posted, held.handling,
        held.relaying⟩
      simp only [Group.taking, Function.update_apply] at running
      split at running
      case isTrue new =>
        cases running
        exact makes msg takes enters
      case isFalse old => exact held.calls _ _ running

theorem setStage {number : Nat} {call : Call} (held : node.Held sendable relayable)
    (running : node.group.calls number = some call) (stage : Stage) (other : Nat) (found : Call)
    (runs : (node.group.setStage number call stage).calls other = some found) :
    sendable found.sendMsg := by
  simp only [Group.setStage, Function.update_apply] at runs
  split at runs
  case isTrue same =>
    cases runs
    exact held.calls number call running
  case isFalse different => exact held.calls _ _ runs

theorem advanced {number : Nat} {group : Group} {sends : List Send}
    (held : node.Held sendable relayable) (advanced : node.group.Advanced number group sends) :
    (node.deliver group sends).1.Held sendable relayable ∧
      ∀ output ∈ (node.deliver group sends).2, sendable output.msg := by
  have posted : ∀ msg ∈ node.posted ++ [], sendable msg := by simpa using held.posted
  cases advanced with
  | sent running =>
      refine ⟨⟨held.setStage running _, held.recent, posted, held.handling, held.relaying⟩, ?_⟩
      simpa [deliver, Send.queued, Output.msg] using held.calls _ _ running
  | looped running =>
      exact ⟨⟨held.setStage running _, held.recent, posted, held.handling, held.relaying⟩,
        by simp [deliver]⟩
  | forwarded running =>
      have sent := held.calls _ _ running
      split
      case isTrue =>
        refine ⟨⟨held.setStage running _, held.recent, fun msg inside => ?_, held.handling,
          held.relaying⟩, by simp [deliver, Send.queued]⟩
        cases List.mem_append.mp inside with
        | inl old => exact held.posted msg old
        | inr new =>
            rw [List.mem_singleton.mp new]
            exact sent
      case isFalse =>
        exact ⟨⟨held.setStage running _, held.recent, posted, held.handling, held.relaying⟩,
          by simp [deliver]⟩
  | appended running =>
      refine ⟨⟨fun other found runs => ?_, fun entry inside => ?_, posted, held.handling,
        held.relaying⟩, by simp [deliver]⟩
      · simp only [deliver, Group.append, Function.update_apply] at runs
        split at runs
        case isTrue same => cases runs
        case isFalse different => exact held.calls _ _ runs
      · have kept := List.mem_of_mem_drop inside
        cases List.mem_append.mp kept with
        | inl old => exact held.recent entry old
        | inr new =>
            rw [List.mem_singleton.mp new]
            exact held.calls _ _ running

theorem withHandling {handling : Handling} {posted : List Copy}
    (held : node.Held sendable relayable) (fewer : ∀ msg ∈ posted, msg ∈ node.posted)
    (holds : sendable handling.msg) :
    ({ node with posted := posted, handling := some handling } : Node).Held
      sendable relayable := by
  refine ⟨held.calls, held.recent, fun msg inside => held.posted msg (fewer msg inside), ?_,
    held.relaying⟩
  rintro _ ⟨⟩
  exact holds

/-- What a step queues is sendable; besides, it may display what it read. -/
theorem step {action : NodeAction} {next : Node} {outputs : List Output}
    (held : node.Held sendable relayable) (makes : node.group.Makes sendable relayable)
    (enters : node.Enters sendable relayable action)
    (stepped : node.step action = some (next, outputs)) :
    next.Held sendable relayable ∧ ∀ output ∈ outputs,
      sendable output.msg ∨
        ∃ msg, action = .clientRead msg ∧ node.Passes msg ∧ output = .displayed msg := by
  have silent : ∀ output ∈ ([] : List Output), sendable output.msg ∨
      ∃ msg, action = .clientRead msg ∧ node.Passes msg ∧ output = .displayed msg := by simp
  cases step_cases stepped with
  | typed connected =>
      refine ⟨⟨held.calls, held.recent, fun msg inside => ?_, held.handling, held.relaying⟩, silent⟩
      cases List.mem_append.mp inside with
      | inl old => exact held.posted msg old
      | inr new =>
          rw [List.mem_singleton.mp new]
          exact enters
  | tooFrequent =>
      exact ⟨⟨held.calls, held.recent, held.posted, held.handling, held.relaying⟩, silent⟩
  | sessionRead began => exact ⟨held.began makes (.inl enters) began, silent⟩
  | @clientPassed msg connected alive fresh =>
      refine ⟨⟨held.calls, held.recent, held.posted, held.handling, fun other inside => ?_⟩, ?_⟩
      · simp only [passing] at inside
        split at inside
        case isTrue long =>
          cases List.mem_append.mp inside with
          | inl old => exact held.relaying other old
          | inr new =>
              rw [List.mem_singleton.mp new]
              exact enters long
        case isFalse short => exact held.relaying other inside
      · intro output inside
        rw [List.mem_singleton.mp inside]
        exact .inr ⟨msg, rfl, ⟨alive, fresh⟩, rfl⟩
  | clientDropped => exact ⟨held, silent⟩
  | relay found began =>
      have next := held.began makes (.inl (held.relaying _ (List.mem_of_getElem? found))) began
      exact ⟨⟨next.calls, next.recent, next.posted, next.handling, fun msg inside =>
        held.relaying msg (List.mem_of_mem_eraseIdx inside)⟩, silent⟩
  | runPosted free found =>
      exact ⟨held.withHandling (fun msg => List.mem_of_mem_eraseIdx)
        (held.posted _ (List.mem_of_getElem? found)), silent⟩
  | handlerTaken locked takes =>
      have sent := held.handling _ locked
      have next := held.began makes (.inr sent) (.taken takes)
      exact ⟨next.withHandling (fun msg inside => inside) sent, silent⟩
  | handlerBlocked locked =>
      have sent := held.handling _ locked
      exact ⟨held.withHandling (fun msg inside => inside) sent, silent⟩
  | returned broadcasting =>
      have sent := held.handling _ broadcasting
      exact ⟨held.withHandling (fun msg inside => inside) sent, silent⟩
  | queued queueing =>
      have sent := held.handling _ queueing
      refine ⟨⟨held.calls, held.recent, held.posted, by simp, held.relaying⟩, ?_⟩
      intro output inside
      rw [List.mem_singleton.mp inside]
      exact .inl sent
  | advanced advanced =>
      obtain ⟨next, sent⟩ := held.advanced advanced
      exact ⟨next, fun output inside => .inl (sent output inside)⟩
  | joined fresh =>
      refine ⟨⟨held.calls, held.recent, held.posted, held.handling, held.relaying⟩, ?_⟩
      intro output inside
      obtain ⟨entry, present, rfl⟩ := List.mem_map.mp inside
      exact .inl (held.recent entry present)
  | left => exact ⟨⟨held.calls, held.recent, held.posted, held.handling, held.relaying⟩, silent⟩

end Node.Held

theorem Node.held_create (sendable relayable : Copy → Prop) (client : Bool)
    (blackList : List Addr) (addr : Addr) :
    (Node.create client blackList addr).Held sendable relayable := by
  constructor <;> simp [Node.create, Group.create]

end OsPractices.Chat
