import OsPractices.Chat.Blacklist
import OsPractices.Chat.Costs

/-!
# How often a message crosses a link

While a message stays in the group's cache, its next `broadcast` is blocked; but
`Client::send` queues what it is given whether or not it is blocked. A typed
line is queued once as it is typed and once more as its `broadcast` gives it
back to the client, and so is a message that `broadcast` takes from a handler.
-/

set_option autoImplicit false

namespace OsPractices.Chat

open Library

/-- What makes two messages the same to a cache. -/
def Message.key (message : Message) : Addr × Int := (message.addr, message.id)

theorem Message.sameKey_iff (left right : Message) :
    left.SameKey right ↔ left.key = right.key := by
  simp [Message.SameKey, Message.key]

theorem MessageCache.hit_iff (cache : MessageCache) (msg : Message) :
    cache.hit msg = true ↔ msg.key ∈ cache.map Message.key := by
  simp [MessageCache.hit, Message.sameKey_iff]

theorem MessageCache.key_mem_add {cache : MessageCache} {msg : Message} {key : Addr × Int}
    (inside : key ∈ (cache.add msg).map Message.key) :
    key ∈ cache.map Message.key ∨ key = msg.key := by
  obtain ⟨other, present, rfl⟩ := List.mem_map.mp inside
  cases MessageCache.mem_add present with
  | inl old => exact .inl (List.mem_map_of_mem old)
  | inr new => exact .inr (congrArg _ new)

/-- How often a message was queued for the upstream client. -/
def crossedUp (key : Addr × Int) (outputs : List Output) : Nat :=
  outputs.countP fun
    | .upstream msg => msg.message.key = key
    | _ => false

/-- How often a message was queued for a session. -/
def crossedTo (member : Nat) (key : Addr × Int) (outputs : List Output) : Nat :=
  outputs.countP fun
    | .session target msg => target = member ∧ msg.message.key = key
    | _ => false

/-- The price list that counts the copies of one message. -/
def countKey (key : Addr × Int) (msg : Copy) : Nat := if msg.message.key = key then 1 else 0

def upPrices (key : Addr × Int) : Prices := ⟨fun _ => 0, countKey key, fun _ => 0⟩

def sessionPrices (key : Addr × Int) : Prices := ⟨countKey key, fun _ => 0, fun _ => 0⟩

theorem paid_upPrices (key : Addr × Int) (outputs : List Output) :
    (upPrices key).paid ∅ outputs = crossedUp key outputs := by
  simp only [Prices.paid, Finset.sum_empty, Nat.zero_add, Prices.paidUp, crossedUp]
  induction outputs with
  | nil => rfl
  | cons output outputs ih =>
      rw [List.map_cons, List.sum_cons, List.countP_cons, ih]
      cases output <;> simp [upPrices, countKey, Nat.add_comm]

theorem paid_sessionPrices (key : Addr × Int) (member : Nat) (outputs : List Output) :
    (sessionPrices key).paid {member} outputs = crossedTo member key outputs := by
  have silent : (sessionPrices key).paidUp outputs = 0 := by
    simp only [Prices.paidUp, sessionPrices]
    apply List.sum_eq_zero
    intro price inside
    obtain ⟨output, _, rfl⟩ := List.mem_map.mp inside
    cases output <;> rfl
  simp only [Prices.paid, Finset.sum_singleton, silent, Nat.add_zero, Prices.paidTo, crossedTo]
  induction outputs with
  | nil => rfl
  | cons output outputs ih =>
      rw [List.map_cons, List.sum_cons, List.countP_cons, ih (by
        simp only [Prices.paidUp, List.map_cons, List.sum_cons] at silent ⊢
        exact (Nat.add_eq_zero_iff.mp silent).2)]
      cases output <;> simp [sessionPrices, countKey, Nat.add_comm, ite_and]

namespace Node

/-- A copy of a message is on its way through the node, or in the history. -/
def Outstanding (node : Node) (key : Addr × Int) : Prop :=
  (∃ msg ∈ node.posted, msg.message.key = key) ∨
    (∃ handling, node.handling = some handling ∧ handling.msg.message.key = key) ∨
    (∃ number call, node.group.calls number = some call ∧ call.sendMsg.message.key = key) ∨
    ∃ entry ∈ node.group.recentMsg, entry.2.message.key = key

/-- No line is typed, unless the node is on its own blacklist, and `broadcast`
takes a message only from a read, and only while no earlier copy is left. -/
def Single (node : Node) : NodeAction → Prop
  | .typed _ _ _ => node.addr ∈ node.group.blackList
  | .sessionRead msg => node.group.Takes msg → ¬ node.Outstanding msg.message.key
  | .relay index => ∀ msg, node.relaying[index]? = some msg → node.group.Takes msg →
      ¬ node.Outstanding msg.message.key
  | .handle => ∀ msg, node.handling = some (.locked msg) → ¬ node.group.Takes msg
  | _ => True

/-- The message is in the group's cache. -/
def Caches (node : Node) (key : Addr × Int) : Prop :=
  key ∈ node.group.cache.map Message.key

instance (node : Node) (key : Addr × Int) : Decidable (node.Caches key) :=
  inferInstanceAs (Decidable (key ∈ node.group.cache.map Message.key))

end Node

/-- A price list that counts copies of one message. -/
structure Prices.Counts (prices : Prices) (members : Finset Nat) (key : Addr × Int) : Prop where
  session : ∀ msg : Copy, msg.message.key ≠ key → prices.session msg = 0
  upstream : ∀ msg : Copy, msg.message.key ≠ key → prices.upstream msg = 0
  entry : ∀ msg, prices.entry msg = 0
  single : ∀ msg, members.card * prices.session msg + prices.upstream msg ≤ 1

theorem upPrices_counts (key : Addr × Int) : (upPrices key).Counts ∅ key := by
  refine ⟨fun _ _ => rfl, fun msg other => if_neg other, fun _ => rfl, fun msg => ?_⟩
  simp only [upPrices, countKey]
  split <;> simp

theorem sessionPrices_counts (key : Addr × Int) (member : Nat) :
    (sessionPrices key).Counts {member} key := by
  refine ⟨fun msg other => if_neg other, fun _ _ => rfl, fun _ => rfl, fun msg => ?_⟩
  simp only [sessionPrices, countKey]
  split <;> simp

namespace Prices.Counts

variable {prices : Prices} {members : Finset Nat} {key : Addr × Int} {node next : Node}

theorem post (counts : prices.Counts members key) (msg : Copy) :
    prices.post msg = prices.upstream msg := by
  simp [Prices.post, counts.entry]

/-- A message that is nowhere in the node costs nothing. -/
theorem owed_zero (counts : prices.Counts members key) (gone : ¬ node.Outstanding key) :
    node.owed prices members = 0 := by
  simp only [Node.Outstanding, not_or, not_exists, not_and] at gone
  obtain ⟨posted, handling, calls, recent⟩ := gone
  have silent : ∀ weight : Call → Nat,
      (∀ call : Call, call.sendMsg.message.key ≠ key → weight call = 0) →
      node.group.total weight = 0 := by
    intro weight zero
    apply Finset.sum_eq_zero
    intro number _
    cases running : node.group.calls number with
    | none => rfl
    | some call => exact zero call (calls number call running)
  have history : node.group.recentTotal prices.session = 0 := by
    apply List.sum_eq_zero
    intro price inside
    obtain ⟨entry, present, rfl⟩ := List.mem_map.mp inside
    exact counts.session _ (recent entry present)
  have sessions : Node.sessionsOwed prices members node.group node.sessions = 0 := by
    apply Finset.sum_eq_zero
    intro member _
    simp only [Group.owed, history]
    split
    case isTrue => exact silent _ fun call other => by simp [counts.session _ other]
    case isFalse => rw [Nat.zero_add, silent _ fun call other => counts.session _ other]
  have posts : node.group.total (Node.toPost prices) = 0 := silent _ fun call other => by
    simp [Node.toPost, counts.post, counts.upstream _ other]
  have queue : (node.posted.map prices.post).sum = 0 := by
    apply List.sum_eq_zero
    intro price inside
    obtain ⟨msg, present, rfl⟩ := List.mem_map.mp inside
    rw [counts.post, counts.upstream _ (posted msg present)]
  have held : node.handling.elim 0 prices.handler = 0 := by
    cases holds : node.handling with
    | none => rfl
    | some inner =>
        have other := counts.upstream _ (handling inner holds)
        cases inner <;> simpa [Prices.handler, counts.post, Handling.msg] using other
  have relays : (node.relaying.map prices.entry).sum = 0 := by
    apply List.sum_eq_zero
    intro price inside
    obtain ⟨msg, _, rfl⟩ := List.mem_map.mp inside
    exact counts.entry msg
  simp only [Node.owed, Node.backlog, sessions, posts, queue, held, relays]

theorem covered (counts : prices.Counts members key) (caches : node.Caches key) :
    Node.Covered prices members node.group := by
  intro msg takes
  have other : msg.sendMsg.message.key ≠ key := by
    rintro rfl
    have hit := (MessageCache.hit_iff _ msg.message).mpr caches
    rw [takes.2.1] at hit
    cases hit
  simp [counts.post, counts.session _ other, counts.upstream _ other]

/-- While the message is cached, what is queued was owed before. -/
theorem step (counts : prices.Counts members key) (running : node.Running)
    (screened : node.group.Screened) (caches : node.Caches key) {action : NodeAction}
    (single : node.Single action) {outputs : List Output}
    (stepped : node.step action = some (next, outputs)) :
    prices.paid members outputs + next.owed prices members ≤ node.owed prices members := by
  have free : prices.income node action = 0 := by
    cases action with
    | typed content ttl event =>
        have other : (node.typedMsg content ttl event).message.key ≠ key := by
          rintro rfl
          obtain ⟨msg, inside, same⟩ := List.mem_map.mp caches
          have listed : msg.addr = node.addr := congrArg Prod.fst same
          exact screened msg inside (listed ▸ single)
        simp [Prices.income, counts.post, counts.upstream _ other]
    | sessionRead msg => exact counts.entry msg
    | clientRead msg => exact counts.entry msg.sendMsg
    | _ => rfl
  have paid := Node.owed_step running (counts.covered caches) stepped
  rwa [free, Nat.add_zero] at paid

/-- A message that enters the cache is owed once. -/
theorem entered (counts : prices.Counts members key) (node : Node)
    (gone : ¬ node.Outstanding key) (msg : Copy) :
    ({ node with group := node.group.taking msg } : Node).owed prices members ≤ 1 := by
  rw [Node.owed_taking, counts.owed_zero gone, Nat.zero_add, counts.post]
  exact counts.single msg.sendMsg

/-- A cached message is owed once at most. -/
theorem kept (counts : prices.Counts members key) (running : node.Running)
    (screened : node.group.Screened) (once : node.Caches key → node.owed prices members ≤ 1)
    {action : NodeAction} (single : node.Single action) {outputs : List Output}
    (stepped : node.step action = some (next, outputs)) (caches : next.Caches key) :
    next.owed prices members ≤ 1 := by
  cases Decidable.em (node.Caches key) with
  | inl cached =>
      have paid := counts.step running screened cached single stepped
      exact (Nat.le_add_left _ _).trans (paid.trans (once cached))
  | inr new =>
      -- Only a `broadcast` that takes a message puts its key into the cache.
      have isNew : ∀ {msg : Copy}, key ∈ (node.group.taking msg).cache.map Message.key →
          key = msg.message.key := fun inside =>
        (MessageCache.key_mem_add inside).resolve_left new
      cases Node.step_cases stepped with
      | @sessionRead msg group began =>
          cases began with
          | blocked => exact absurd caches new
          | taken takes =>
              have gone := single takes
              rw [← isNew caches] at gone
              exact counts.entered node gone msg
      | @relay index msg group found began =>
          cases began with
          | blocked => exact absurd caches new
          | taken takes =>
              have gone := single msg found takes
              rw [← isNew caches] at gone
              exact counts.entered { node with relaying := node.relaying.eraseIdx index } gone msg
      | handlerTaken locked takes => exact absurd takes (single _ locked)
      | advanced advanced => cases advanced <;> exact absurd caches new
      | _ => exact absurd caches new

end Prices.Counts

/-- What holds of a node in every run. -/
theorem running_of_run {client : Bool} {blackList : List Addr} {addr : Addr}
    {allowed : Node → NodeAction → Prop} {actions : List NodeAction} {outputs : List Output}
    {node : Node}
    (run : Run Node.step allowed (Node.create client blackList addr) actions outputs node) :
    node.Running ∧ node.group.Screened := by
  induction run with
  | nil =>
      exact ⟨⟨⟨by simp [Node.create, Group.create], by simp [Node.create, Group.create],
          by simp [Node.create, Group.create]⟩, by simp [Node.create, Group.create]⟩,
        by simp [Group.Screened, Node.create, Group.create]⟩
  | snoc _ _ stepped ih =>
      exact ⟨ih.1.step stepped, (Node.screened_step ih.2 stepped).2⟩

section Stretch

variable {client : Bool} {blackList : List Addr} {addr : Addr} {key : Addr × Int}
  {actions more : List NodeAction} {outputs late : List Output} {node final : Node}

theorem owed_le_one {prices : Prices} {members : Finset Nat}
    (counts : prices.Counts members key)
    (run : Run Node.step Node.Single (Node.create client blackList addr) actions outputs node)
    (caches : node.Caches key) : node.owed prices members ≤ 1 := by
  induction run with
  | nil => exact absurd caches (by simp [Node.Caches, Node.create, Group.create])
  | snoc before single stepped ih =>
      obtain ⟨running, screened⟩ := running_of_run before
      exact counts.kept running screened ih single stepped caches

/-- What a stretch of a run queues of a message that stays cached was owed at
its start. -/
theorem paid_le_owed {prices : Prices} {members : Finset Nat}
    (counts : prices.Counts members key) (running : node.Running) (screened : node.group.Screened)
    (stays : Run Node.step (fun node action => node.Single action ∧ node.Caches key)
      node more late final) :
    final.Running ∧ final.group.Screened ∧
      prices.paid members late + final.owed prices members ≤ node.owed prices members := by
  induction stays with
  | nil => exact ⟨running, screened, by simp⟩
  | snoc _ allowed stepped ih =>
      obtain ⟨running, screened, paid⟩ := ih
      have next := counts.step running screened allowed.2 allowed.1 stepped
      refine ⟨running.step stepped, (Node.screened_step screened stepped).2, ?_⟩
      rw [Prices.paid_append]
      omega

/-- In a run without typed lines, whose `broadcast`s take messages from reads
only and not before all copies of their earlier stay are gone, a message is
queued at most once for each link while it stays in the group's cache. -/
theorem crosses_once
    (run : Run Node.step Node.Single (Node.create client blackList addr) actions outputs node)
    (caches : node.Caches key)
    (stays : Run Node.step (fun node action => node.Single action ∧ node.Caches key)
      node more late final) :
    crossedUp key late ≤ 1 ∧ ∀ member, crossedTo member key late ≤ 1 := by
  obtain ⟨running, screened⟩ := running_of_run run
  refine ⟨?_, fun member => ?_⟩
  · have owed := owed_le_one (upPrices_counts key) run caches
    have paid := (paid_le_owed (upPrices_counts key) running screened stays).2.2
    rw [paid_upPrices] at paid
    omega
  · have owed := owed_le_one (sessionPrices_counts key member) run caches
    have paid := (paid_le_owed (sessionPrices_counts key member) running screened stays).2.2
    rw [paid_sessionPrices] at paid
    omega

end Stretch

/-- A message that a session delivers to a fresh node with an upstream. -/
def guest : Copy := ⟨⟨⟨7, 1⟩, 9, 0, []⟩, 0, 0⟩

/-- It is queued for the upstream client by the handler that its `broadcast` posts. -/
theorem crosses_once_guest : crossedUp (⟨7, 1⟩, 0) [.upstream guest.sendMsg] ≤ 1 := by
  have run : Run Node.step Node.Single (Node.create true [] ⟨0, 2⟩) ([] ++ [.sessionRead guest])
      ([] ++ []) ((Node.create true [] ⟨0, 2⟩).broadcast guest) :=
    Run.nil.snoc (fun _ => by simp [Node.Outstanding, Node.create, Group.create]) rfl
  have stays : Run Node.step (fun node action => node.Single action ∧ node.Caches (⟨7, 1⟩, 0))
      ((Node.create true [] ⟨0, 2⟩).broadcast guest)
      [.advance 0, .advance 0, .runPosted 0, .handle, .handle] _ _ :=
    .cons ⟨trivial, by decide⟩ rfl <| .cons ⟨trivial, by decide⟩ rfl <|
      .cons ⟨trivial, by decide⟩ rfl <|
      .cons ⟨by rintro _ ⟨⟩; decide, by decide⟩ rfl <|
      .cons ⟨by rintro _ ⟨⟩, by decide⟩ rfl .nil
  exact (crosses_once run (by decide) stays).1

/-- A typed line is queued twice while its message is cached. -/
theorem typed_line_crosses_twice :
    ¬ ∀ node more late final,
      Run Node.step (fun _ _ => True) (Node.create true [] ⟨0, 2⟩)
        [.typed [] defaultTtl 0, .runPosted 0, .handle] [] node →
      Run Node.step (fun node _ => node.Caches (⟨0, 2⟩, 0)) node more late final →
      crossedUp (⟨0, 2⟩, 0) late ≤ 1 := by
  intro once
  have twice := once _
    [.advance 0, .advance 0, .advance 0, .handle, .handle, .runPosted 0, .handle, .handle]
    [.upstream ⟨⟨⟨0, 2⟩, 10, 0, []⟩, 0, 0⟩, .upstream ⟨⟨⟨0, 2⟩, 9, 0, []⟩, 0, 0⟩] _
    (Run.of_exec rfl) (Run.of_exec_guarded rfl)
  exact absurd twice (by decide)

end OsPractices.Chat
