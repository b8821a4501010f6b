import OsPractices.Chat.Costs
import OsPractices.Chat.Held
import OsPractices.Chat.Network

/-!
# Flooding dies out

Each copy that a node makes of a frame it received has a smaller ttl, whatever
the caches hold. So the chains of transmissions behind a typed line are no longer
than its ttl, and there are finitely many transmissions in all.
-/

set_option autoImplicit false

namespace OsPractices.Chat

open Library

section Tracing

variable {size : Nat}

/-- A copy that may be put on a link: what it stems from happened, and its ttl
is at most that of a typed line, and less than that of a received frame. -/
def Stems (events : List (Event size)) (msg : Copy) : Prop :=
  match events[msg.cause]? with
  | some (.typed _ ttl) =>
      msg.origin = msg.cause ∧ msg.message.ttl ≤ ttl ∧ (1 ≤ ttl → 1 ≤ msg.message.ttl)
  | some (.sent _ _ parent) =>
      msg.origin = parent.origin ∧ 1 ≤ msg.message.ttl ∧
        msg.message.ttl ≤ parent.message.ttl - 1
  | none => False

/-- A copy of a received frame. -/
def Arrives (events : List (Event size)) (msg : Copy) : Prop :=
  ∃ node session parent, events[msg.cause]? = some (.sent node session parent) ∧
    msg.origin = parent.origin ∧ msg.message.ttl ≤ parent.message.ttl

theorem getElem?_append_of_some {α : Type} {list more : List α} {index : Nat} {value : α}
    (found : list[index]? = some value) : (list ++ more)[index]? = some value := by
  rw [List.getElem?_append_left (List.getElem?_eq_some_iff.mp found).1, found]

theorem Stems.later {events : List (Event size)} {msg : Copy} (stems : Stems events msg)
    (more : List (Event size)) : Stems (events ++ more) msg := by
  unfold Stems at stems ⊢
  cases found : events[msg.cause]? with
  | none => simp [found] at stems
  | some event =>
      rw [getElem?_append_of_some found]
      rwa [found] at stems

theorem Arrives.later {events : List (Event size)} {msg : Copy} (arrives : Arrives events msg)
    (more : List (Event size)) : Arrives (events ++ more) msg := by
  obtain ⟨node, session, parent, found, rest⟩ := arrives
  exact ⟨node, session, parent, getElem?_append_of_some found, rest⟩

/-- `broadcast` makes a smaller copy. -/
theorem makes_stems (events : List (Event size)) (group : Group) :
    group.Makes (Stems events) (Arrives events) := by
  intro msg takes held
  have alive := takes.1
  cases held with
  | inl arrives =>
      obtain ⟨node, session, parent, found, origin, small⟩ := arrives
      simp only [Stems, Copy.sendMsg_cause, found, Copy.sendMsg_origin, Copy.sendMsg_ttl]
      exact ⟨origin, by omega, by omega⟩
  | inr stems =>
      unfold Stems at stems ⊢
      simp only [Copy.sendMsg_cause, Copy.sendMsg_origin, Copy.sendMsg_ttl]
      cases found : events[msg.cause]? with
      | none => simp [found] at stems
      | some event =>
          cases event with
          | typed node ttl =>
              simp only [found] at stems ⊢
              exact ⟨stems.1, by omega, fun _ => by omega⟩
          | sent node session parent =>
              simp only [found] at stems ⊢
              exact ⟨stems.1, by omega, by omega⟩

/-- What a run has put on the links stems from what happened before. -/
structure Network.Traced (topology : Topology size) (network : Network size)
    (events : List (Event size)) : Prop where
  count : network.count = events.length
  held : ∀ node, (network.nodes node).Held (Stems events) (Arrives events)
  running : ∀ node, (network.nodes node).Running
  sessions : ∀ node, ∀ member ∈ (network.nodes node).sessions, member ∈ topology.sessions node
  wire : ∀ packet ∈ network.wire, ∃ node session,
    events[packet.number]? = some (Event.sent node session packet.msg)
  stems : ∀ (number : Nat) node session msg,
    events[number]? = some (Event.sent node session msg) → Stems events msg

namespace Network.Traced

variable {topology : Topology size} {network : Network size} {events : List (Event size)}

theorem packet_of_route {event : Event size} {number : Nat} {packet : Packet size}
    (routed : topology.route number event = some packet) :
    ∃ node session, event = .sent node session packet.msg ∧ packet.number = number := by
  cases event with
  | typed node ttl => cases routed
  | sent node session msg =>
      cases session with
      | none =>
          obtain ⟨_, _, rfl⟩ := Option.map_eq_some_iff.mp routed
          exact ⟨node, none, rfl, rfl⟩
      | some member =>
          obtain ⟨_, _, rfl⟩ := Option.map_eq_some_iff.mp routed
          exact ⟨node, some member, rfl, rfl⟩

theorem emit (traced : network.Traced topology events) {node : Fin size} {next : Node}
    {more : List (Event size)}
    (held : next.Held (Stems (events ++ more)) (Arrives (events ++ more)))
    (running : next.Running)
    (sessions : ∀ member ∈ next.sessions, member ∈ topology.sessions node)
    (stems : ∀ from' session msg, Event.sent from' session msg ∈ more →
      Stems (events ++ more) msg) :
    (network.emit topology node next more).Traced topology (events ++ more) := by
  refine ⟨?_, fun other => ?_, fun other => ?_, fun other => ?_, fun packet inside => ?_, ?_⟩
  · simp [Network.emit, traced.count]
  · cases eq_or_ne other node with
    | inl same => subst same; simpa [Network.emit] using held
    | inr different =>
        simp only [Network.emit, Function.update_of_ne different]
        exact (traced.held other).mono (fun _ stems => stems.later more)
          fun _ arrives => arrives.later more
  · cases eq_or_ne other node with
    | inl same => subst same; simpa [Network.emit] using running
    | inr different => simpa [Network.emit, different] using traced.running other
  · cases eq_or_ne other node with
    | inl same => subst same; simpa [Network.emit] using sessions
    | inr different => simpa [Network.emit, different] using traced.sessions other
  · cases List.mem_append.mp inside with
    | inl old =>
        obtain ⟨from', session, found⟩ := traced.wire packet old
        exact ⟨from', session, getElem?_append_of_some found⟩
    | inr new =>
        obtain ⟨⟨event, number⟩, numbered, routed⟩ := List.mem_filterMap.mp new
        obtain ⟨from', session, rfl, rfl⟩ := packet_of_route routed
        rw [traced.count] at numbered
        obtain ⟨low, _, same⟩ := List.mem_zipIdx numbered
        refine ⟨from', session, ?_⟩
        rw [List.getElem?_append_right low, same]
        exact List.getElem?_eq_getElem _
  · intro number from' session msg found
    cases Nat.lt_or_ge number events.length with
    | inl old =>
        rw [List.getElem?_append_left old] at found
        exact (traced.stems number from' session msg found).later more
    | inr new =>
        rw [List.getElem?_append_right new] at found
        exact stems from' session msg (List.mem_of_getElem? found)

/-- A node acts on what it holds or on a frame that arrives. -/
theorem act (traced : network.Traced topology events) {node : Fin size} {action : NodeAction}
    {next : Network size} {more : List (Event size)}
    (enters : (network.nodes node).Enters (Stems events) (Arrives events) action)
    (joins : ∀ member, action = .join member → member ∈ topology.sessions node)
    (acted : network.act topology node action = some (next, more)) :
    next.Traced topology (events ++ more) := by
  obtain ⟨⟨after, outputs⟩, stepped, same⟩ := Option.map_eq_some_iff.mp acted
  cases same
  obtain ⟨held, sent⟩ := (traced.held node).step (makes_stems events _) enters stepped
  apply traced.emit
  · exact held.mono (fun _ stems => stems.later _) fun _ arrives => arrives.later _
  · exact (traced.running node).step stepped
  · intro member inside
    cases (Node.step_cases stepped).sessions inside with
    | inl old => exact traced.sessions node member old
    | inr joined => exact joins member joined
  · intro from' session msg inside
    obtain ⟨output, queued, isEvent⟩ := List.mem_filterMap.mp inside
    apply Stems.later
    rcases sent output queued with stems | ⟨msg, _, _, rfl⟩
    · cases output <;> cases isEvent <;> exact stems
    · cases isEvent

theorem unwire (traced : network.Traced topology events) (index : Nat) :
    ({ network with wire := network.wire.eraseIdx index } : Network size).Traced topology events :=
  ⟨traced.count, traced.held, traced.running, traced.sessions,
    fun packet inside => traced.wire packet (List.mem_of_mem_eraseIdx inside), traced.stems⟩

theorem arrival (traced : network.Traced topology events) {packet : Packet size}
    (inside : packet ∈ network.wire) (content : List UInt8) :
    Arrives events (packet.arrival content) := by
  obtain ⟨node, session, found⟩ := traced.wire packet inside
  exact ⟨node, session, packet.msg, found, rfl, Int.le_refl _⟩

theorem read_enters (traced : network.Traced topology events) {packet : Packet size}
    (inside : packet ∈ network.wire) (content : List UInt8) (node : Node) :
    node.Enters (Stems events) (Arrives events) (packet.read content) := by
  have arrives := traced.arrival inside content
  unfold Packet.read
  split
  case isFalse => exact arrives
  case isTrue =>
    intro _
    obtain ⟨from', session, parent, found, origin, small⟩ := arrives
    exact ⟨from', session, parent, found, origin, by
      simp only [Copy.sendMsg_ttl]
      omega⟩

theorem typed (traced : network.Traced topology events) {node : Fin size}
    {content : List UInt8} {ttl : Int} {next : Node} {outputs : List Output}
    (stepped : (network.nodes node).step (.typed content ttl network.count) = some (next, outputs)) :
    (network.emit topology node next [.typed node ttl]).Traced topology
      (events ++ [.typed node ttl]) := by
  have held := (traced.held node).mono (fun _ stems => stems.later [.typed node ttl])
    fun _ arrives => arrives.later [.typed node ttl]
  have enters : (network.nodes node).Enters (Stems (events ++ [.typed node ttl]))
      (Arrives (events ++ [.typed node ttl])) (.typed content ttl network.count) := by
    simp [Node.Enters, Stems, Node.typedMsg, traced.count]
  apply traced.emit
  · exact (held.step (makes_stems _ _) enters stepped).1
  · exact (traced.running node).step stepped
  · intro member inside
    cases (Node.step_cases stepped).sessions inside with
    | inl old => exact traced.sessions node member old
    | inr joined => cases joined
  · simp

theorem caches (traced : network.Traced topology events) (node : Fin size)
    (group client : MessageCache) :
    (network.emit topology node ((network.nodes node).withCaches group client) []).Traced
      topology (events ++ []) := by
  have held := traced.held node
  have running := traced.running node
  apply traced.emit
  · rw [List.append_nil]
    exact ⟨held.calls, held.recent, held.posted, held.handling, held.relaying⟩
  · exact ⟨⟨running.numbered.calls, running.numbered.recent, running.numbered.once⟩,
      running.joined⟩
  · exact traced.sessions node
  · simp

theorem step (traced : network.Traced topology events) {action : NetworkAction size}
    {next : Network size} {more : List (Event size)}
    (stepped : network.step topology action = some (next, more)) :
    next.Traced topology (events ++ more) := by
  cases action with
  | typed node content ttl =>
      obtain ⟨⟨after, outputs⟩, typed, same⟩ := Option.map_eq_some_iff.mp stepped
      cases same
      exact traced.typed typed
  | deliver index content =>
      obtain ⟨packet, found, acted⟩ := Option.bind_eq_some_iff.mp stepped
      have enters := traced.read_enters (List.mem_of_getElem? found) content
        (network.nodes packet.target)
      apply (traced.unwire index).act enters _ acted
      intro member same
      unfold Packet.read at same
      split at same <;> cases same
  | inside node action =>
      simp only [Network.step, Option.ite_none_right_eq_some] at stepped
      obtain ⟨permits, acted⟩ := stepped
      apply traced.act _ _ acted
      · cases action with
        | typed => cases permits
        | sessionRead => cases permits
        | clientRead => cases permits
        | _ => trivial
      · rintro member rfl
        exact permits
  | caches node group client =>
      cases stepped
      exact traced.caches node group client

end Network.Traced

end Tracing

end OsPractices.Chat
