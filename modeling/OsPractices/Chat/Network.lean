import Mathlib.Data.Fintype.Basic
import Mathlib.Data.List.FinRange
import OsPractices.Chat.Node

/-!
# A network of nodes

Nodes joined by links, each from the client of one node to a session of
another. What a node queues for a link is a frame on the wire, and frames are
delivered in any order. Typed lines and frames are numbered as events; what a
node makes of a frame carries its number. The caches may hold anything at any
time.
-/

set_option autoImplicit false

namespace OsPractices.Chat

/-- The node, and its session, that the client of each node is connected to. -/
abbrev Topology (size : Nat) := Fin size → Option (Fin size × Nat)

/-- A line is typed, or a frame is put on a link: that of the upstream client,
or that of a session. -/
inductive Event (size : Nat) where
  | typed (node : Fin size) (ttl : Int)
  | sent (node : Fin size) (session : Option Nat) (msg : Copy)
  deriving DecidableEq, Repr

/-- A frame on a link, with the node that it arrives at, at its client or at one
of its sessions. -/
structure Packet (size : Nat) where
  number : Nat
  target : Fin size
  atClient : Bool
  msg : Copy
  deriving DecidableEq, Repr

structure Network (size : Nat) where
  nodes : Fin size → Node
  wire : List (Packet size)
  count : Nat

inductive NetworkAction (size : Nat) where
  | typed (node : Fin size) (content : List UInt8) (ttl : Int)
  | deliver (index : Nat) (content : List UInt8)
  | inside (node : Fin size) (action : NodeAction)
  | caches (node : Fin size) (group client : MessageCache)

def Output.event {size : Nat} (node : Fin size) : Output → Option (Event size)
  | .session member msg => some (.sent node (some member) msg)
  | .upstream msg => some (.sent node none msg)
  | .displayed _ => none

namespace Topology

variable {size : Nat}

/-- The sessions of a node at the ends of links. -/
def sessions (topology : Topology size) (node : Fin size) : List Nat :=
  (List.finRange size).filterMap fun other =>
    match topology other with
    | some (server, member) => if server = node then some member else none
    | none => none

/-- Where a frame goes that is put on a link. -/
def route (topology : Topology size) (number : Nat) : Event size → Option (Packet size)
  | .typed _ _ => none
  | .sent node none msg => (topology node).map fun (server, _) => ⟨number, server, false, msg⟩
  | .sent node (some member) msg =>
      ((List.finRange size).find? fun other => topology other = some (node, member)).map
        fun other => ⟨number, other, true, msg⟩

/-- The frames of numbered events. -/
def packets (topology : Topology size) (number : Nat) (events : List (Event size)) :
    List (Packet size) :=
  (events.zipIdx number).filterMap fun event => topology.route event.2 event.1

/-- What a node does by itself: everything but reading and typing. Its sessions
are the ends of links. -/
def Permits (topology : Topology size) (node : Fin size) : NodeAction → Prop
  | .typed _ _ _ => False
  | .sessionRead _ => False
  | .clientRead _ => False
  | .join member => member ∈ topology.sessions node
  | _ => True

instance (topology : Topology size) (node : Fin size) :
    DecidablePred (topology.Permits node)
  | .typed _ _ _ => inferInstanceAs (Decidable False)
  | .sessionRead _ => inferInstanceAs (Decidable False)
  | .clientRead _ => inferInstanceAs (Decidable False)
  | .join member => inferInstanceAs (Decidable (member ∈ topology.sessions node))
  | .tooFrequent => inferInstanceAs (Decidable True)
  | .relay _ => inferInstanceAs (Decidable True)
  | .runPosted _ => inferInstanceAs (Decidable True)
  | .handle => inferInstanceAs (Decidable True)
  | .advance _ => inferInstanceAs (Decidable True)
  | .leave _ => inferInstanceAs (Decidable True)

end Topology

/-- The message as it is read: the frame may have cut off its content. -/
def Packet.arrival {size : Nat} (packet : Packet size) (content : List UInt8) : Copy :=
  ⟨{ packet.msg.message with content := content }, packet.number, packet.msg.origin⟩

def Packet.read {size : Nat} (packet : Packet size) (content : List UInt8) : NodeAction :=
  if packet.atClient then .clientRead (packet.arrival content)
  else .sessionRead (packet.arrival content)

/-- A node with other messages in its caches. -/
def Node.withCaches (node : Node) (group client : MessageCache) : Node :=
  { node with group := { node.group with cache := group }, cache := client }

namespace Network

variable {size : Nat}

/-- Before the first event. -/
def create (topology : Topology size) (blackList : Fin size → List Addr)
    (addr : Fin size → Addr) : Network size :=
  ⟨fun node => Node.create (topology node).isSome (blackList node) (addr node), [], 0⟩

/-- A node goes over to its next state, and events happen. -/
def emit (topology : Topology size) (network : Network size) (node : Fin size) (next : Node)
    (events : List (Event size)) : Network size :=
  { nodes := Function.update network.nodes node next
    wire := network.wire ++ topology.packets network.count events
    count := network.count + events.length }

def act (topology : Topology size) (network : Network size) (node : Fin size)
    (action : NodeAction) : Option (Network size × List (Event size)) :=
  ((network.nodes node).step action).map fun (next, outputs) =>
    (network.emit topology node next (outputs.filterMap (Output.event node)),
      outputs.filterMap (Output.event node))

def step (topology : Topology size) (network : Network size) :
    NetworkAction size → Option (Network size × List (Event size))
  | .typed node content ttl =>
      ((network.nodes node).step (.typed content ttl network.count)).map fun (next, _) =>
        (network.emit topology node next [.typed node ttl], [.typed node ttl])
  | .deliver index content =>
      network.wire[index]?.bind fun packet =>
        act topology { network with wire := network.wire.eraseIdx index } packet.target
          (packet.read content)
  | .inside node action =>
      if topology.Permits node action then act topology network node action else none
  | .caches node group client =>
      some (network.emit topology node ((network.nodes node).withCaches group client) [], [])

end Network

end OsPractices.Chat
