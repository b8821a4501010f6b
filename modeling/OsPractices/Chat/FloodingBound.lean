import Mathlib.Data.Fintype.BigOperators
import Mathlib.Tactic.Ring
import OsPractices.Chat.Flooding

/-!
# How many transmissions follow a typed line

The potential of `Costs.lean`, summed over a network and the frames on its
links. The price of a copy with ttl `t` bounds all transmissions that it can
lead to, whatever the caches hold.
-/

set_option autoImplicit false

namespace OsPractices.Chat

open Library

/-- What a `broadcast` of a message with a given ttl can lead to in a network
of some size: `(size + 2) ^ (ttl - 1) - 1` transmissions. -/
def fee (size : Nat) (ttl : Int) : Nat := (size + 2) ^ (ttl - 1).toNat - 1

theorem fee_mono (size : Nat) {small large : Int} (order : small ≤ large) :
    fee size small ≤ fee size large :=
  Nat.sub_le_sub_right (Nat.pow_le_pow_right (by omega) (by omega)) 1

/-- The sends to the sessions, the second `broadcast` by the posted handler and
its push, with all that they lead to. -/
theorem fee_step (size : Nat) {ttl : Int} (alive : 0 < ttl - 1) :
    size * (1 + fee size (ttl - 1)) + (fee size (ttl - 1) + (1 + fee size (ttl - 1))) =
      fee size ttl := by
  have exponent : (ttl - 1).toNat = (ttl - 1 - 1).toNat + 1 := by omega
  have positive : 0 < (size + 2) ^ (ttl - 1 - 1).toNat := Nat.pow_pos (by omega)
  unfold fee
  rw [exponent, pow_succ]
  generalize (size + 2) ^ (ttl - 1 - 1).toNat = power at positive
  have whole : 1 + (power - 1) = power := by omega
  have product : power * (size + 2) = size * power + 2 * power := by ring
  rw [whole, product]
  omega

/-- The prices of the copies that stem from one typed line. -/
def floodPrices (size origin : Nat) : Prices where
  session msg := if msg.origin = origin then 1 + fee size msg.message.ttl else 0
  upstream msg := if msg.origin = origin then 1 + fee size msg.message.ttl else 0
  entry msg := if msg.origin = origin then fee size msg.message.ttl else 0

theorem floodPrices_covered {size : Nat} (origin : Nat) {members : Finset Nat}
    (few : members.card ≤ size) (group : Group) :
    Node.Covered (floodPrices size origin) members group := by
  intro msg takes
  simp only [floodPrices, Prices.post, Copy.sendMsg_origin, Copy.sendMsg_ttl]
  cases eq_or_ne msg.origin origin with
  | inl same =>
      subst same
      simp only [if_true]
      rw [← fee_step size takes.1]
      exact Nat.add_le_add_right (Nat.mul_le_mul_right _ few) _
  | inr different => simp [different]

section Bound

variable {size : Nat}

/-- The sessions of a node, at most one for each other end of a link. -/
def Topology.members (topology : Topology size) (node : Fin size) : Finset Nat :=
  (topology.sessions node).toFinset

theorem Topology.card_members_le (topology : Topology size) (node : Fin size) :
    (topology.members node).card ≤ size := by
  have short : (topology.sessions node).length ≤ (List.finRange size).length :=
    List.length_filterMap_le _ _
  rw [List.length_finRange] at short
  exact (List.toFinset_card_le _).trans short

/-- How many frames that stem from a typed line were put on links. -/
def sentOf (origin : Nat) (events : List (Event size)) : Nat :=
  events.countP fun
    | .typed _ _ => false
    | .sent _ _ msg => msg.origin = origin

def Packet.fee (origin : Nat) (packet : Packet size) : Nat :=
  if packet.msg.origin = origin then Chat.fee size packet.msg.message.ttl else 0

/-- What can still follow from the frames on the links and from the nodes. -/
def Network.debt (topology : Topology size) (origin : Nat) (network : Network size) : Nat :=
  ∑ node, (network.nodes node).owed (floodPrices size origin) (topology.members node) +
    (network.wire.map (Packet.fee origin)).sum

/-- What a typed line may lead to: the handler that `Client::send` posts. -/
def budget (origin : Nat) (events : List (Event size)) : Nat :=
  match events[origin]? with
  | some (.typed _ ttl) => 2 * fee size ttl + 1
  | _ => 0

theorem budget_append (origin : Nat) (events more : List (Event size)) :
    budget origin events ≤ budget origin (events ++ more) := by
  unfold budget
  cases found : events[origin]? with
  | none => exact Nat.zero_le _
  | some event => rw [getElem?_append_of_some found]

theorem paid_cons (prices : Prices) (members : Finset Nat) (output : Output)
    (outputs : List Output) :
    prices.paid members (output :: outputs) =
      prices.paid members [output] + prices.paid members outputs :=
  prices.paid_append members [output] outputs

theorem fee_route {topology : Topology size} {origin number : Nat} {node : Fin size}
    {session : Option Nat} {msg : Copy} {packet : Packet size}
    (routed : topology.route number (.sent node session msg) = some packet) :
    packet.fee origin = if msg.origin = origin then fee size msg.message.ttl else 0 := by
  obtain ⟨_, _, same, _⟩ := Network.Traced.packet_of_route routed
  cases same
  rfl

theorem paid_event (topology : Topology size) {origin number paid : Nat} {node : Fin size}
    {session : Option Nat} {msg : Copy} {events : List (Event size)}
    (rest : sentOf origin events +
      ((topology.packets (number + 1) events).map (Packet.fee origin)).sum ≤ paid) :
    sentOf origin (.sent node session msg :: events) +
        ((topology.packets number (.sent node session msg :: events)).map
          (Packet.fee origin)).sum ≤
      (if msg.origin = origin then 1 + fee size msg.message.ttl else 0) + paid := by
  have count : sentOf origin (.sent node session msg :: events) =
      sentOf origin events + if msg.origin = origin then 1 else 0 := by
    simp [sentOf, List.countP_cons]
  rw [count]
  cases routed : topology.route number (.sent node session msg) with
  | none =>
      have frames : topology.packets number (.sent node session msg :: events) =
          topology.packets (number + 1) events := by
        simp [Topology.packets, List.zipIdx_cons, routed]
      rw [frames]
      split <;> omega
  | some packet =>
      have frames : topology.packets number (.sent node session msg :: events) =
          packet :: topology.packets (number + 1) events := by
        simp [Topology.packets, List.zipIdx_cons, routed]
      rw [frames, List.map_cons, List.sum_cons, fee_route routed]
      split <;> omega

/-- What a node queues is paid for with all that follows from it. -/
theorem paid_events (topology : Topology size) (origin : Nat) (node : Fin size)
    {members : Finset Nat} {outputs : List Output}
    (targets : ∀ member msg, Output.session member msg ∈ outputs → member ∈ members)
    (number : Nat) :
    sentOf origin (outputs.filterMap (Output.event node)) +
        ((topology.packets number (outputs.filterMap (Output.event node))).map
          (Packet.fee origin)).sum ≤
      (floodPrices size origin).paid members outputs := by
  induction outputs generalizing number with
  | nil => simp [sentOf, Topology.packets]
  | cons output outputs ih =>
      have rest := ih (fun member msg inside => targets member msg (List.mem_cons_of_mem _ inside))
      rw [paid_cons]
      cases output with
      | displayed msg =>
          simp only [List.filterMap_cons, Output.event]
          exact (rest number).trans (Nat.le_add_left _ _)
      | session member msg =>
          have inside := targets member msg List.mem_cons_self
          have price : (floodPrices size origin).paid members [.session member msg] =
              if msg.origin = origin then 1 + fee size msg.message.ttl else 0 := by
            simp [Prices.paid, Prices.paidTo, Prices.paidUp, floodPrices, inside]
          rw [price]
          exact paid_event topology (rest (number + 1))
      | upstream msg =>
          have price : (floodPrices size origin).paid members [.upstream msg] =
              if msg.origin = origin then 1 + fee size msg.message.ttl else 0 := by
            simp [Prices.paid, Prices.paidTo, Prices.paidUp, floodPrices]
          rw [price]
          exact paid_event topology (rest (number + 1))

theorem sum_update (topology : Topology size) (prices : Prices) (nodes : Fin size → Node)
    (node : Fin size) (next : Node) :
    ∑ other, (Function.update nodes node next other).owed prices (topology.members other) +
        (nodes node).owed prices (topology.members node) =
      ∑ other, (nodes other).owed prices (topology.members other) +
        next.owed prices (topology.members node) := by
  have updated : (fun other => (Function.update nodes node next other).owed prices
      (topology.members other)) =
      Function.update (fun other => (nodes other).owed prices (topology.members other)) node
        (next.owed prices (topology.members node)) := by
    funext other
    cases eq_or_ne other node with
    | inl same => subst same; simp
    | inr different => simp [different]
  rw [updated, Finset.sum_update_of_mem (Finset.mem_univ node),
    ← Finset.sum_erase_add _ _ (Finset.mem_univ node), Finset.sdiff_singleton_eq_erase]
  omega

namespace Network

variable {topology : Topology size} {network : Network size} {events : List (Event size)}

theorem debt_emit (topology : Topology size) (origin : Nat) (network : Network size)
    (node : Fin size) (next : Node) (more : List (Event size)) :
    (network.emit topology node next more).debt topology origin +
        (network.nodes node).owed (floodPrices size origin) (topology.members node) =
      network.debt topology origin + next.owed (floodPrices size origin) (topology.members node) +
        ((topology.packets network.count more).map (Packet.fee origin)).sum := by
  have nodes := sum_update topology (floodPrices size origin) network.nodes node next
  simp only [debt, emit, List.map_append, List.sum_append]
  omega

theorem debt_act (traced : network.Traced topology events) (origin : Nat) {node : Fin size}
    {action : NodeAction} {next : Network size} {more : List (Event size)}
    (joins : ∀ member, action = .join member → member ∈ topology.sessions node)
    (acted : network.act topology node action = some (next, more)) :
    sentOf origin more + next.debt topology origin ≤
      network.debt topology origin +
        (floodPrices size origin).income (network.nodes node) action := by
  obtain ⟨⟨after, outputs⟩, stepped, same⟩ := Option.map_eq_some_iff.mp acted
  cases same
  have paid := Node.owed_step (traced.running node)
    (floodPrices_covered origin (topology.card_members_le node) _) stepped
  have targets : ∀ member msg, Output.session member msg ∈ outputs →
      member ∈ topology.members node := by
    intro member msg inside
    have target := (Node.step_cases stepped).target (traced.running node) inside
    apply List.mem_toFinset.mpr
    cases (Node.step_cases stepped).sessions target with
    | inl old => exact traced.sessions node member old
    | inr joined => exact joins member joined
  have queued := paid_events topology origin node targets network.count
  have emitted := debt_emit topology origin network node after
    (outputs.filterMap (Output.event node))
  omega

/-- What followed from each typed line, and what still can, is within its budget. -/
def Bounded (topology : Topology size) (network : Network size)
    (events : List (Event size)) : Prop :=
  ∀ origin, sentOf origin events + network.debt topology origin ≤ budget origin events

theorem sentOf_append (origin : Nat) (events more : List (Event size)) :
    sentOf origin (events ++ more) = sentOf origin events + sentOf origin more :=
  List.countP_append

namespace Bounded

theorem typed (bounded : network.Bounded topology events)
    (traced : network.Traced topology events) {node : Fin size} {content : List UInt8} {ttl : Int}
    {next : Node} {outputs : List Output}
    (stepped : (network.nodes node).step (.typed content ttl network.count) = some (next, outputs)) :
    (network.emit topology node next [.typed node ttl]).Bounded topology
      (events ++ [.typed node ttl]) := by
  intro origin
  have paid := Node.owed_step (traced.running node)
    (floodPrices_covered origin (topology.card_members_le node) _) stepped
  have emitted := debt_emit topology origin network node next [.typed node ttl]
  have before := bounded origin
  have silent : sentOf origin [Event.typed node ttl] = 0 := rfl
  have frames : topology.packets network.count [Event.typed node ttl] = [] := rfl
  rw [frames, List.map_nil, List.sum_nil] at emitted
  rw [sentOf_append, silent]
  cases eq_or_ne network.count origin with
  | inl same =>
      have none : events[origin]? = none := List.getElem?_eq_none (by
        rw [← same, traced.count])
      have found : (events ++ [Event.typed node ttl])[origin]? = some (.typed node ttl) := by
        rw [← same, traced.count]
        simp
      have income : (floodPrices size origin).income (network.nodes node)
          (.typed content ttl network.count) = fee size ttl + (1 + fee size ttl) := by
        simp [Prices.income, Prices.post, floodPrices, Node.typedMsg, same]
      simp only [budget, none] at before
      simp only [budget, found]
      omega
  | inr different =>
      have income : (floodPrices size origin).income (network.nodes node)
          (.typed content ttl network.count) = 0 := by
        simp [Prices.income, Prices.post, floodPrices, Node.typedMsg, different]
      have after := budget_append origin events [.typed node ttl]
      omega

theorem act (bounded : network.Bounded topology events) {node : Fin size} {action : NodeAction}
    {start next : Network size} {more : List (Event size)} (traced : start.Traced topology events)
    (joins : ∀ member, action = .join member → member ∈ topology.sessions node)
    (income : ∀ origin, start.debt topology origin +
      (floodPrices size origin).income (start.nodes node) action ≤ network.debt topology origin)
    (acted : start.act topology node action = some (next, more)) :
    next.Bounded topology (events ++ more) := by
  intro origin
  have paid := debt_act traced origin joins acted
  have before := bounded origin
  have budgeted := budget_append origin events more
  have enough := income origin
  rw [sentOf_append]
  omega

/-- A frame brings in what was counted for it on the wire. -/
theorem income_read (origin : Nat) (packet : Packet size) (content : List UInt8) (node : Node) :
    (floodPrices size origin).income node (packet.read content) ≤ packet.fee origin := by
  unfold Packet.read
  split
  case isTrue =>
    have smaller : fee size (packet.msg.message.ttl - 1) ≤ fee size packet.msg.message.ttl :=
      fee_mono size (by omega)
    simp only [Prices.income, floodPrices, Packet.arrival, Copy.sendMsg_origin, Copy.sendMsg_ttl,
      Packet.fee]
    cases eq_or_ne packet.msg.origin origin with
    | inl same => simpa [same] using smaller
    | inr different => simp [different]
  case isFalse => exact Nat.le_refl _

theorem unwire {index : Nat} {packet : Packet size} (found : network.wire[index]? = some packet)
    (origin : Nat) :
    ({ network with wire := network.wire.eraseIdx index } : Network size).debt topology origin +
      packet.fee origin = network.debt topology origin := by
  have fewer := sum_eraseIdx (Packet.fee origin) found
  simp only [debt]
  omega

theorem step (bounded : network.Bounded topology events)
    (traced : network.Traced topology events) {action : NetworkAction size}
    {next : Network size} {more : List (Event size)}
    (stepped : network.step topology action = some (next, more)) :
    next.Bounded topology (events ++ more) := by
  cases action with
  | typed node content ttl =>
      obtain ⟨⟨after, outputs⟩, typed, same⟩ := Option.map_eq_some_iff.mp stepped
      cases same
      exact bounded.typed traced typed
  | deliver index content =>
      obtain ⟨packet, found, acted⟩ := Option.bind_eq_some_iff.mp stepped
      apply bounded.act (traced.unwire index) _ _ acted
      · intro member same
        unfold Packet.read at same
        split at same <;> cases same
      · intro origin
        have income := income_read origin packet content (network.nodes packet.target)
        rw [← unwire found origin]
        exact Nat.add_le_add_left income _
  | inside node action =>
      simp only [Network.step, Option.ite_none_right_eq_some] at stepped
      obtain ⟨permits, acted⟩ := stepped
      apply bounded.act traced _ _ acted
      · rintro member rfl
        exact permits
      · intro origin
        cases action with
        | typed => cases permits
        | sessionRead => cases permits
        | clientRead => cases permits
        | _ => exact Nat.le_refl _
  | caches node group client =>
      cases stepped
      intro origin
      have emitted := debt_emit topology origin network node
        ((network.nodes node).withCaches group client) []
      have same : ((network.nodes node).withCaches group client).owed (floodPrices size origin)
          (topology.members node) =
          (network.nodes node).owed (floodPrices size origin) (topology.members node) := rfl
      have frames : topology.packets network.count ([] : List (Event size)) = [] := rfl
      have before := bounded origin
      rw [same, frames, List.map_nil, List.sum_nil] at emitted
      rw [List.append_nil]
      omega

end Bounded

end Network

/-! ## Chains -/

/-- A chain of transmissions behind a typed line, by its last event and its length. -/
inductive Chain (events : List (Event size)) (origin : Nat) : Nat → Nat → Prop where
  | first {number : Nat} {node : Fin size} {session : Option Nat} {msg : Copy}
      (sent : events[number]? = some (.sent node session msg)) (cause : msg.cause = origin) :
      Chain events origin number 1
  | next {number length : Nat} {node : Fin size} {session : Option Nat} {msg : Copy}
      (sent : events[number]? = some (.sent node session msg))
      (before : Chain events origin msg.cause length) :
      Chain events origin number (length + 1)

/-- Each transmission of a chain takes one off the ttl. -/
theorem Chain.ttl {events : List (Event size)} {origin number length : Nat} {node : Fin size}
    {ttl : Int} (typed : events[origin]? = some (.typed node ttl)) (positive : 1 ≤ ttl)
    (stems : ∀ (number : Nat) node session msg,
      events[number]? = some (Event.sent node session msg) → Stems events msg)
    (chain : Chain events origin number length) :
    ∃ node session msg, events[number]? = some (Event.sent node session msg) ∧
      msg.origin = origin ∧ 1 ≤ msg.message.ttl ∧ (length : Int) + msg.message.ttl ≤ ttl + 1 := by
  induction chain with
  | @first number from' session msg sent cause =>
      have stem := stems number from' session msg sent
      simp only [Stems, cause, typed] at stem
      exact ⟨from', session, msg, sent, stem.1, stem.2.2 positive, by omega⟩
  | @next number length from' session msg sent before ih =>
      obtain ⟨_, _, parent, found, origin, _, short⟩ := ih
      have stem := stems number from' session msg sent
      simp only [Stems, found] at stem
      exact ⟨from', session, msg, sent, stem.1.trans origin, stem.2.1, by omega⟩

theorem countP_indices {α : Type} (holds : α → Bool) (list : List α) {indices : List Nat}
    (distinct : indices.Nodup)
    (each : ∀ index ∈ indices, ∃ value, list[index]? = some value ∧ holds value = true) :
    indices.length ≤ list.countP holds := by
  have bound : ∀ index ∈ indices, index < list.length := fun index inside => by
    obtain ⟨value, found, _⟩ := each index inside
    exact (List.getElem?_eq_some_iff.mp found).1
  have counted : list.countP holds = ((List.finRange list.length).filter (holds ∘ list.get)).length := by
    rw [← List.countP_eq_length_filter, ← List.countP_map, List.map_get_finRange]
  rw [counted, ← List.length_pmap (f := Fin.mk) (H := bound)]
  apply List.Subperm.length_le
  apply List.Nodup.subperm
  · exact distinct.pmap fun _ _ _ _ same => Fin.mk.inj same
  · intro index inside
    obtain ⟨index, present, rfl⟩ := List.mem_pmap.mp inside
    obtain ⟨value, found, held⟩ := each index present
    obtain ⟨_, rfl⟩ := List.getElem?_eq_some_iff.mp found
    simpa using held

end Bound

theorem run_bounded {size : Nat} {topology : Topology size}
    {blackList : Fin size → List Addr} {addr : Fin size → Addr}
    {actions : List (NetworkAction size)} {events : List (Event size)} {network : Network size}
    (run : Run (Network.step topology) (fun _ _ => True)
      (Network.create topology blackList addr) actions events network) :
    network.Traced topology events ∧ network.Bounded topology events := by
  induction run with
  | nil =>
      constructor
      · exact ⟨rfl, fun node => Node.held_create _ _ _ _ _,
          fun node => ⟨⟨by simp [Network.create, Node.create, Group.create],
            by simp [Network.create, Node.create, Group.create],
            by simp [Network.create, Node.create, Group.create]⟩,
            by simp [Network.create, Node.create, Group.create]⟩,
          by simp [Network.create, Node.create], by simp [Network.create], by simp⟩
      · intro origin
        simp [sentOf, Network.debt, Network.create, Node.owed, Node.sessionsOwed, Node.backlog,
          Group.owed, Group.total, Group.recentTotal, Node.create, Group.create]
  | snoc _ _ stepped ih => exact ⟨ih.1.step stepped, ih.2.step ih.1 stepped⟩

/-- Every frame that is put on a link because of a received frame has a smaller
ttl, at least 1. So the chains behind a typed line are no longer than its ttl,
and a bound that depends on the size of the network and on the ttl alone limits
the number of transmissions behind it. -/
theorem flooding_dies_out {size : Nat} {topology : Topology size}
    {blackList : Fin size → List Addr} {addr : Fin size → Addr}
    {actions : List (NetworkAction size)} {events : List (Event size)} {network : Network size}
    (run : Run (Network.step topology) (fun _ _ => True)
      (Network.create topology blackList addr) actions events network) :
    (∀ (number : Nat) node session msg node' session' parent,
      events[number]? = some (Event.sent node session msg) →
      events[msg.cause]? = some (Event.sent node' session' parent) →
      1 ≤ msg.message.ttl ∧ msg.message.ttl ≤ parent.message.ttl - 1) ∧
    ∀ (origin : Nat) node ttl, events[origin]? = some (Event.typed node ttl) → 1 ≤ ttl →
      (∀ number length, Chain events origin number length → (length : Int) ≤ ttl) ∧
      ∀ numbers : List Nat, numbers.Nodup →
        (∀ number ∈ numbers, ∃ length, Chain events origin number length) →
        numbers.length ≤ 2 * (size + 2) ^ (ttl - 1).toNat - 1 := by
  obtain ⟨traced, bounded⟩ := run_bounded run
  refine ⟨fun number node session msg node' session' parent sent caused => ?_,
    fun origin node ttl typed positive => ⟨fun number length chain => ?_,
      fun numbers distinct chains => ?_⟩⟩
  · have stem := traced.stems number node session msg sent
    simp only [Stems, caused] at stem
    exact stem.2
  · obtain ⟨_, _, msg, _, _, alive, short⟩ := chain.ttl typed positive traced.stems
    omega
  · have indices : numbers.length ≤ sentOf origin events := by
      apply countP_indices _ _ distinct
      intro number inside
      obtain ⟨length, chain⟩ := chains number inside
      obtain ⟨_, _, msg, sent, same, _⟩ := chain.ttl typed positive traced.stems
      exact ⟨_, sent, decide_eq_true same⟩
    have within := bounded origin
    have power : 0 < (size + 2) ^ (ttl - 1).toNat := Nat.pow_pos (by omega)
    simp only [budget, typed, fee] at within
    omega

/-- Two nodes whose clients are connected to sessions of a third. -/
def star : Topology 3 := fun node => if node = 0 then none else some (0, node.val + 4)

/-- A line with ttl 2 is sent to the node in the middle, which relays it to both others
with ttl 1; these relay it no further. -/
theorem flooding_dies_out_star :
    ∃ events network, Run (Network.step star) (fun _ _ => True)
        (Network.create star (fun _ => []) fun node => ⟨0, node.val⟩)
        [.inside 0 (.join 5), .inside 0 (.join 6), .typed 1 [] 2, .inside 1 (.runPosted 0),
          .inside 1 .handle, .inside 1 (.advance 0), .inside 1 (.advance 0),
          .inside 1 (.advance 0), .inside 1 .handle, .inside 1 .handle, .deliver 0 [],
          .inside 0 (.advance 0), .inside 0 (.advance 0), .deliver 0 [], .deliver 0 []]
        events network ∧
      events.length = 4 ∧ (∀ number length, Chain events 0 number length → (length : Int) ≤ 2) ∧
      ∀ numbers : List Nat, numbers.Nodup →
        (∀ number ∈ numbers, ∃ length, Chain events 0 number length) → numbers.length ≤ 9 := by
  have run : Run (Network.step star) (fun _ _ => True)
      (Network.create star (fun _ => []) fun node => ⟨0, node.val⟩)
      [.inside 0 (.join 5), .inside 0 (.join 6), .typed 1 [] 2, .inside 1 (.runPosted 0),
        .inside 1 .handle, .inside 1 (.advance 0), .inside 1 (.advance 0),
        .inside 1 (.advance 0), .inside 1 .handle, .inside 1 .handle, .deliver 0 [],
        .inside 0 (.advance 0), .inside 0 (.advance 0), .deliver 0 [], .deliver 0 []]
      _ _ := Run.of_exec rfl
  exact ⟨_, _, run, rfl, (flooding_dies_out run).2 0 1 2 rfl (by decide)⟩

end OsPractices.Chat
