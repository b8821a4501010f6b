import OsPractices.Chat.Group

/-!
# A node

A group, its upstream client (`client.h`) and its sessions (`server.h`). The
handlers that `Client::send` posts run with the client's mutex held around
`broadcast`; everything else is cut where a mutex is taken or given up. What is
put into a pending queue is an output: the queues are written out in order.
-/

set_option autoImplicit false

namespace OsPractices.Chat

open Library

/-- A handler posted by `Client::send` that holds the client's mutex: before
`broadcast`, inside it, and before the push. -/
inductive Handling where
  | locked (msg : Copy)
  | broadcasting (msg : Copy) (number : Nat)
  | queueing (msg : Copy)
  deriving DecidableEq, Repr

/-- The message of the handler. -/
def Handling.msg : Handling → Copy
  | .locked msg | .broadcasting msg _ | .queueing msg => msg

/-- A node with its posted handlers, and the messages that `Client::do_read`
goes on to broadcast. `sessions` are all sessions that ever ran; `msgId` is the
counter of the input loop. -/
structure Node where
  group : Group
  addr : Addr
  cache : MessageCache
  msgId : Int
  posted : List Copy
  handling : Option Handling
  relaying : List Copy
  sessions : List Nat

/-- A message put into the queue of a session or of the client, or displayed. -/
inductive Output where
  | session (member : Nat) (msg : Copy)
  | upstream (msg : Copy)
  | displayed (msg : Copy)
  deriving DecidableEq, Repr

def Output.msg : Output → Copy
  | .session _ msg => msg
  | .upstream msg => msg
  | .displayed msg => msg

inductive NodeAction where
  | typed (content : List UInt8) (ttl : Int) (event : Nat)
  | tooFrequent
  | sessionRead (msg : Copy)
  | clientRead (msg : Copy)
  | relay (index : Nat)
  | runPosted (index : Nat)
  | handle
  | advance (number : Nat)
  | join (member : Nat)
  | leave (member : Nat)
  deriving DecidableEq, Repr

/-- Where a send of the group goes. -/
def Send.queued : Send → Option Output
  | .member target _ msg => some (.session target msg)
  | .client _ => none

def Send.posted : Send → Option Copy
  | .member _ _ _ => none
  | .client msg => some msg

namespace Node

/-- A node before its first event; `client` tells whether it has an upstream. -/
def create (client : Bool) (blackList : List Addr) (addr : Addr) : Node :=
  ⟨Group.create client blackList, addr, [], 0, [], none, [], []⟩

/-- The message of an input line. `chat.cpp` leaves `ttl` at `DEFAULT_TTL`. -/
def typedMsg (node : Node) (content : List UInt8) (ttl : Int) (event : Nat) : Copy :=
  ⟨⟨node.addr, ttl, node.msgId, content⟩, event, event⟩

def typed (node : Node) (content : List UInt8) (ttl : Int) (event : Nat) : Node :=
  { node with
    msgId := wrapInt (node.msgId + 1)
    posted := node.posted ++ [node.typedMsg content ttl event] }

/-- The first section of `broadcast` in a thread that goes on with the call. -/
def broadcast (node : Node) (msg : Copy) : Node :=
  { node with group := (node.group.accept msg).getD node.group }

/-- The section of `Client::do_read`; its message is broadcast after it. -/
def clientRead (node : Node) (msg : Copy) : Node × List Output :=
  if 0 < msg.message.ttl ∧ node.cache.hit msg.message = false then
    ({ node with
        cache := node.cache.add msg.message
        relaying := if 0 < msg.message.ttl - 1 then node.relaying ++ [msg.sendMsg]
          else node.relaying },
      [.displayed msg])
  else (node, [])

/-- The next piece of the handler that holds the mutex; `none` while its
`broadcast` has not returned. -/
def handle (node : Node) : Handling → Option (Node × List Output)
  | .locked msg =>
      match node.group.accept msg with
      | none => some ({ node with handling := some (.queueing msg) }, [])
      | some group =>
          some ({ node with
              group := group
              handling := some (.broadcasting msg node.group.accepted) }, [])
  | .broadcasting msg number =>
      if node.group.calls number = none then
        some ({ node with handling := some (.queueing msg) }, [])
      else none
  | .queueing msg => some ({ node with handling := none }, [.upstream msg])

/-- The sends of a group's thread: sessions queue them, the client posts them. -/
def deliver (node : Node) (group : Group) (sends : List Send) : Node × List Output :=
  ({ node with group := group, posted := node.posted ++ sends.filterMap Send.posted },
    sends.filterMap Send.queued)

def step (node : Node) : NodeAction → Option (Node × List Output)
  | .typed content ttl event =>
      if node.group.client then some (node.typed content ttl event, []) else none
  | .tooFrequent =>
      if node.group.client then some ({ node with msgId := wrapInt (node.msgId + 1) }, []) else none
  | .sessionRead msg => some (node.broadcast msg, [])
  | .clientRead msg =>
      if node.group.client ∧ node.handling = none then some (node.clientRead msg) else none
  | .relay index =>
      node.relaying[index]?.map fun msg =>
        ({ node.broadcast msg with relaying := node.relaying.eraseIdx index }, [])
  | .runPosted index =>
      if node.handling = none then
        node.posted[index]?.map fun msg =>
          ({ node with
              posted := node.posted.eraseIdx index
              handling := some (.locked msg) }, [])
      else none
  | .handle => node.handling.bind node.handle
  | .advance number =>
      (node.group.advance number).map fun (group, sends) => node.deliver group sends
  | .join member =>
      if member ∈ node.sessions then none
      else
        let (group, sends) := node.group.join member
        let (node, outputs) := node.deliver group sends
        some ({ node with sessions := member :: node.sessions }, outputs)
  | .leave member => some ({ node with group := node.group.leave member }, [])

/-! ## What a step does -/

/-- The node after `Client::do_read` has let a message pass. -/
def passing (node : Node) (msg : Copy) : Node :=
  { node with
    cache := node.cache.add msg.message
    relaying := if 0 < msg.message.ttl - 1 then node.relaying ++ [msg.sendMsg] else node.relaying }

inductive Stepped (node : Node) : NodeAction → Node → List Output → Prop where
  | typed {content : List UInt8} {ttl : Int} {event : Nat} (connected : node.group.client = true) :
      Stepped node (.typed content ttl event) (node.typed content ttl event) []
  | tooFrequent : Stepped node .tooFrequent { node with msgId := wrapInt (node.msgId + 1) } []
  | sessionRead {msg : Copy} {group : Group} (began : node.group.Began msg group) :
      Stepped node (.sessionRead msg) { node with group := group } []
  | clientPassed {msg : Copy} (connected : node.group.client = true)
      (alive : 0 < msg.message.ttl) (fresh : node.cache.hit msg.message = false) :
      Stepped node (.clientRead msg) (node.passing msg) [.displayed msg]
  | clientDropped {msg : Copy} : Stepped node (.clientRead msg) node []
  | relay {index : Nat} {msg : Copy} {group : Group} (found : node.relaying[index]? = some msg)
      (began : node.group.Began msg group) :
      Stepped node (.relay index)
        { node with group := group, relaying := node.relaying.eraseIdx index } []
  | runPosted {index : Nat} {msg : Copy} (free : node.handling = none)
      (found : node.posted[index]? = some msg) :
      Stepped node (.runPosted index)
        { node with posted := node.posted.eraseIdx index, handling := some (.locked msg) } []
  | handlerTaken {msg : Copy} (locked : node.handling = some (.locked msg))
      (takes : node.group.Takes msg) :
      Stepped node .handle
        { node with
          group := node.group.taking msg
          handling := some (.broadcasting msg node.group.accepted) } []
  | handlerBlocked {msg : Copy} (locked : node.handling = some (.locked msg))
      (blocked : ¬ node.group.Takes msg) :
      Stepped node .handle { node with handling := some (.queueing msg) } []
  | returned {msg : Copy} {number : Nat}
      (broadcasting : node.handling = some (.broadcasting msg number)) :
      Stepped node .handle { node with handling := some (.queueing msg) } []
  | queued {msg : Copy} (queueing : node.handling = some (.queueing msg)) :
      Stepped node .handle { node with handling := none } [.upstream msg]
  | advanced {number : Nat} {group : Group} {sends : List Send}
      (advanced : node.group.Advanced number group sends) :
      Stepped node (.advance number) (node.deliver group sends).1 (node.deliver group sends).2
  | joined {member : Nat} (fresh : member ∉ node.sessions) :
      Stepped node (.join member)
        { node with
          group := (node.group.join member).1
          sessions := member :: node.sessions }
        (node.group.recentMsg.map fun entry => .session member entry.2)
  | left {member : Nat} :
      Stepped node (.leave member) { node with group := node.group.leave member } []

theorem handle_cases {node next : Node} {outputs : List Output}
    (stepped : node.step .handle = some (next, outputs)) : node.Stepped .handle next outputs := by
  simp only [step] at stepped
  cases holds : node.handling with
  | none => simp [holds] at stepped
  | some handling =>
      simp only [holds, Option.bind_some] at stepped
      cases handling with
      | locked msg =>
          simp only [handle] at stepped
          rcases node.group.accept_cases msg with ⟨takes, taken⟩ | ⟨blocked, refused⟩
          · simp only [taken] at stepped
            cases stepped
            exact .handlerTaken holds takes
          · simp only [refused] at stepped
            cases stepped
            exact .handlerBlocked holds blocked
      | broadcasting msg number =>
          simp only [handle, Option.ite_none_right_eq_some] at stepped
          cases stepped.2
          exact .returned holds
      | queueing msg =>
          cases stepped
          exact .queued holds

theorem join_cases {node next : Node} {outputs : List Output} {member : Nat}
    (stepped : node.step (.join member) = some (next, outputs)) :
    node.Stepped (.join member) next outputs := by
  have silent : (node.group.join member).2.filterMap Send.posted = [] := by
    simp [Group.join, List.filterMap_eq_nil_iff, Send.posted]
  have queued : (node.group.join member).2.filterMap Send.queued =
      node.group.recentMsg.map fun entry => Output.session member entry.2 := by
    simp [Group.join, List.filterMap_map, Function.comp_def, Send.queued]
  simp only [step, Option.ite_none_left_eq_some, deliver, silent, queued, List.append_nil,
    Option.some.injEq, Prod.mk.injEq] at stepped
  obtain ⟨fresh, rfl, rfl⟩ := stepped
  exact .joined fresh

theorem step_cases {node next : Node} {action : NodeAction} {outputs : List Output}
    (stepped : node.step action = some (next, outputs)) : node.Stepped action next outputs := by
  cases action with
  | typed content ttl event =>
      simp only [step, Option.ite_none_right_eq_some] at stepped
      cases stepped.2
      exact .typed stepped.1
  | tooFrequent =>
      simp only [step, Option.ite_none_right_eq_some] at stepped
      cases stepped.2
      exact .tooFrequent
  | sessionRead msg =>
      cases stepped
      exact .sessionRead (node.group.began msg)
  | clientRead msg =>
      simp only [step, Option.ite_none_right_eq_some, clientRead] at stepped
      obtain ⟨⟨connected, _⟩, result⟩ := stepped
      split at result
      case isTrue passes =>
        cases result
        exact .clientPassed connected passes.1 passes.2
      case isFalse =>
        cases result
        exact .clientDropped
  | relay index =>
      simp only [step, Option.map_eq_some_iff, Prod.mk.injEq] at stepped
      obtain ⟨msg, found, rfl, rfl⟩ := stepped
      exact .relay found (node.group.began msg)
  | runPosted index =>
      simp only [step, Option.ite_none_right_eq_some, Option.map_eq_some_iff,
        Prod.mk.injEq] at stepped
      obtain ⟨free, msg, found, rfl, rfl⟩ := stepped
      exact .runPosted free found
  | handle => exact handle_cases stepped
  | advance number =>
      simp only [step, Option.map_eq_some_iff] at stepped
      obtain ⟨⟨group, sends⟩, advanced, delivered⟩ := stepped
      cases delivered
      exact .advanced (Group.advance_cases advanced)
  | join member => exact join_cases stepped
  | leave member =>
      cases stepped
      exact .left

/-- A step of a node takes its group nowhere or one step on. -/
theorem Stepped.group {node next : Node} {action : NodeAction} {outputs : List Output}
    (stepped : node.Stepped action next outputs) :
    next.group = node.group ∨
      ∃ action sends, node.group.step action = some (next.group, sends) := by
  cases stepped with
  | sessionRead began => exact .inr ⟨_, _, began.step⟩
  | relay found began => exact .inr ⟨_, _, began.step⟩
  | handlerTaken locked takes => exact .inr ⟨_, _, (Group.Began.taken takes).step⟩
  | @advanced number group sends advanced => exact .inr ⟨.advance number, sends, advanced.advance⟩
  | @joined member => exact .inr ⟨.join member, _, rfl⟩
  | @left member => exact .inr ⟨.leave member, [], rfl⟩
  | _ => exact .inl rfl

/-- Only joining adds a session. -/
theorem Stepped.sessions {node next : Node} {action : NodeAction} {outputs : List Output}
    (stepped : node.Stepped action next outputs) {member : Nat} (inside : member ∈ next.sessions) :
    member ∈ node.sessions ∨ action = .join member := by
  cases stepped with
  | joined fresh =>
      cases List.mem_cons.mp inside with
      | inl new => exact .inr (congrArg _ new.symm)
      | inr old => exact .inl old
  | _ => exact .inl inside

end Node

end OsPractices.Chat
