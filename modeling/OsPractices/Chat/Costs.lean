import Mathlib.Algebra.BigOperators.Group.Finset.Piecewise
import Mathlib.Algebra.Group.Action.Defs
import Mathlib.Algebra.Order.BigOperators.Group.Finset
import Mathlib.Algebra.Order.BigOperators.Group.List
import Mathlib.Data.List.Perm.Basic
import OsPractices.Chat.Joining
import OsPractices.Chat.Node

/-!
# What a node has still to send

A potential argument over the steps of a node: `owed` bounds what the calls in
progress, the history, the posted handlers and the messages to relay can still
put into the queues, at given prices for each copy. No step pays more than what
it takes off this bound and off what comes in with it.
-/

set_option autoImplicit false

namespace OsPractices.Chat

open Library

theorem sum_eraseIdx {α : Type} (weight : α → Nat) {list : List α} {index : Nat} {value : α}
    (found : list[index]? = some value) :
    ((list.eraseIdx index).map weight).sum + weight value = (list.map weight).sum := by
  obtain ⟨inside, rfl⟩ := List.getElem?_eq_some_iff.mp found
  have same := ((List.getElem_cons_eraseIdx_perm inside).map weight).sum_nat
  simp only [List.map_cons, List.sum_cons] at same
  omega

namespace Group

/-- The sum of a weight over the calls in progress. -/
def total (group : Group) (weight : Call → Nat) : Nat :=
  ∑ number ∈ Finset.range group.accepted, (group.calls number).elim 0 weight

variable {group : Group} (weight : Call → Nat)

theorem total_update (numbered : group.Numbered) {number : Nat} {call : Call}
    (running : group.calls number = some call) (after : Option Call) :
    (∑ other ∈ Finset.range group.accepted,
        (Function.update group.calls number after other).elim 0 weight) + weight call =
      group.total weight + after.elim 0 weight := by
  have inside : number ∈ Finset.range group.accepted :=
    Finset.mem_range.mpr (numbered.calls number call running)
  have updated : (fun other => (Function.update group.calls number after other).elim 0 weight) =
      Function.update (fun other => (group.calls other).elim 0 weight) number
        (after.elim 0 weight) := by
    funext other
    cases eq_or_ne other number with
    | inl same => subst same; simp
    | inr different => simp [different]
  rw [updated, Finset.sum_update_of_mem inside, total,
    ← Finset.sum_erase_add _ _ inside, Finset.sdiff_singleton_eq_erase, running]
  simp only [Option.elim_some]
  omega

theorem total_setStage (numbered : group.Numbered) {number : Nat} {call : Call}
    (running : group.calls number = some call) (stage : Stage) :
    (group.setStage number call stage).total weight + weight call =
      group.total weight + weight { call with stage := stage } :=
  total_update weight numbered running _

theorem total_append (numbered : group.Numbered) {number : Nat} {call : Call}
    (running : group.calls number = some call) :
    (group.append number call).total weight + weight call = group.total weight :=
  total_update weight numbered running none

theorem total_taking (msg : Copy) :
    (group.taking msg).total weight =
      group.total weight + weight ⟨msg.sendMsg, .members none⟩ := by
  unfold total
  simp only [taking]
  rw [Finset.sum_range_succ]
  simp only [Function.update_self, Option.elim_some]
  congr 1
  apply Finset.sum_congr rfl
  intro number inside
  rw [Function.update_of_ne (Nat.ne_of_lt (Finset.mem_range.mp inside))]

/-- The sum of a weight over the history. -/
def recentTotal (group : Group) (weight : Copy → Nat) : Nat :=
  (group.recentMsg.map fun entry => weight entry.2).sum

theorem recentTotal_append_le (weight : Copy → Nat) (number : Nat) (call : Call) :
    (group.append number call).recentTotal weight ≤
      group.recentTotal weight + weight call.sendMsg := by
  have whole : ((group.recentMsg ++ [(number, call.sendMsg)]).map fun entry => weight entry.2).sum =
      group.recentTotal weight + weight call.sendMsg := by simp [recentTotal]
  rw [← whole]
  simp only [recentTotal, append]
  exact List.Sublist.sum_le_sum ((List.drop_sublist _ _).map _) (by simp)

/-! ## Sends to one session -/

/-- What a group can still send to a session, at a price for each copy. Before
the session joins, each call in progress and the history can reach it. -/
def owed (group : Group) (price : Copy → Nat) (member : Nat) (joined : Bool) : Nat :=
  if joined then
    group.total fun call => if Stage.Ahead member call.stage then price call.sendMsg else 0
  else group.recentTotal price + group.total fun call => price call.sendMsg

theorem owed_taking (price : Copy → Nat) (member : Nat) (joined : Bool) (msg : Copy) :
    (group.taking msg).owed price member joined =
      group.owed price member joined + price msg.sendMsg := by
  cases joined with
  | true => simp [owed, total_taking, Stage.Ahead]
  | false =>
      simp only [owed, Bool.false_eq_true, if_false, total_taking]
      exact (Nat.add_assoc _ _ _).symm

/-- The price of what is sent to one session. -/
def paid (price : Copy → Nat) (member : Nat) (sends : List Send) : Nat :=
  (sends.map fun
    | .member target _ msg => if target = member then price msg else 0
    | .client _ => 0).sum

theorem owed_setStage_le (numbered : group.Numbered) (price : Copy → Nat) (member : Nat)
    (joined : Bool) {number : Nat} {call : Call} (running : group.calls number = some call)
    (stage : Stage) (later : Stage.Ahead member stage → Stage.Ahead member call.stage) :
    (group.setStage number call stage).owed price member joined ≤
      group.owed price member joined := by
  cases joined with
  | true =>
      have sum := total_setStage
        (fun call => if Stage.Ahead member call.stage then price call.sendMsg else 0)
        numbered running stage
      simp only [owed, if_true] at sum ⊢
      split at sum
      case isTrue => split at sum <;> omega
      case isFalse past =>
        rw [if_neg (past ∘ later)] at sum
        omega
  | false =>
      have sum := total_setStage (fun call => price call.sendMsg) numbered running stage
      have same : (group.setStage number call stage).recentTotal price = group.recentTotal price :=
        rfl
      simp only [owed, Bool.false_eq_true, if_false, same] at sum ⊢
      omega

theorem owed_sent (numbered : group.Numbered) (price : Copy → Nat) {member : Nat}
    {number : Nat} {call : Call} (running : group.calls number = some call)
    (ahead : Stage.Ahead member call.stage) :
    price call.sendMsg +
        (group.setStage number call (.members (some member))).owed price member true =
      group.owed price member true := by
  have sum := total_setStage
    (fun call => if Stage.Ahead member call.stage then price call.sendMsg else 0)
    numbered running (.members (some member))
  have past : ¬ Stage.Ahead member (.members (some member)) := Nat.lt_irrefl _
  simp only [owed, if_true, if_pos ahead, if_neg past] at sum ⊢
  omega

theorem owed_append_le (numbered : group.Numbered) (price : Copy → Nat) (member : Nat)
    (joined : Bool) {number : Nat} {call : Call} (running : group.calls number = some call) :
    (group.append number call).owed price member joined ≤ group.owed price member joined := by
  cases joined with
  | true =>
      have sum := total_append
        (fun call => if Stage.Ahead member call.stage then price call.sendMsg else 0)
        numbered running
      simp only [owed, if_true]
      omega
  | false =>
      have sum := total_append (fun call => price call.sendMsg) numbered running
      have recent : (group.append number call).recentTotal price ≤ _ :=
        recentTotal_append_le price number call
      simp only [owed, Bool.false_eq_true, if_false]
      omega

/-- A piece of a call pays for its send to a session. -/
theorem owed_advanced (numbered : group.Numbered) (price : Copy → Nat) (member : Nat)
    {joined : Bool} (inside : member ∈ group.members → joined = true) {number : Nat}
    {next : Group} {sends : List Send} (advanced : group.Advanced number next sends) :
    paid price member sends + next.owed price member joined ≤ group.owed price member joined := by
  cases advanced with
  | @sent call last target running inLoop found =>
      obtain ⟨present, ahead, _⟩ := Group.nextMember_some found
      rw [← inLoop] at ahead
      cases eq_or_ne target member with
      | inl same =>
          subst same
          cases inside present
          have sum := owed_sent numbered price running ahead
          simp only [paid, List.map_cons, List.map_nil, List.sum_cons, List.sum_nil, if_true]
          omega
      | inr different =>
          have later : Stage.Ahead member (.members (some target)) →
              Stage.Ahead member call.stage := by
            rw [inLoop] at ahead ⊢
            exact ahead.trans
          have fewer := owed_setStage_le numbered price member joined running _ later
          simpa [paid, different] using fewer
  | looped running inLoop found =>
      simpa [paid] using owed_setStage_le numbered price member joined running .client False.elim
  | forwarded running atClient =>
      have fewer := owed_setStage_le numbered price member joined running .history
        False.elim
      split
      case isTrue => simpa [paid] using fewer
      case isFalse => simpa [paid] using fewer
  | appended running atHistory =>
      simpa [paid] using owed_append_le numbered price member joined running

/-- The replay pays what the history can cost. -/
theorem owed_join (group : Group) (price : Copy → Nat) (member : Nat) :
    paid price member (group.join member).2 + (group.join member).1.owed price member true ≤
      group.owed price member false := by
  have replay : paid price member (group.join member).2 = group.recentTotal price := by
    simp [paid, join, recentTotal, Function.comp_def]
  have fewer : ((group.join member).1.total fun call =>
      if Stage.Ahead member call.stage then price call.sendMsg else 0) ≤
      group.total fun call => price call.sendMsg := by
    apply Finset.sum_le_sum
    intro number _
    have same : (group.join member).1.calls = group.calls := rfl
    rw [same]
    cases group.calls number with
    | none => exact Nat.le_refl _
    | some call =>
        simp only [Option.elim_some]
        split
        case isTrue => exact Nat.le_refl _
        case isFalse => exact Nat.zero_le _
  simp only [replay, owed, if_true, Bool.false_eq_true, if_false]
  omega

end Group

/-! ## All sends of a node -/

/-- Prices of a copy: when a session queues it, when the upstream client queues
it, and for all that a `broadcast` of it may lead to. -/
structure Prices where
  session : Copy → Nat
  upstream : Copy → Nat
  entry : Copy → Nat

namespace Prices

variable (prices : Prices)

/-- The price of a handler posted by `Client::send`: its `broadcast`, and its push. -/
def post (msg : Copy) : Nat := prices.entry msg + prices.upstream msg

def handler : Handling → Nat
  | .locked msg => prices.post msg
  | .broadcasting msg _ => prices.upstream msg
  | .queueing msg => prices.upstream msg

/-- What comes in with an action. -/
def income (node : Node) : NodeAction → Nat
  | .typed content ttl event => prices.post (node.typedMsg content ttl event)
  | .sessionRead msg => prices.entry msg
  | .clientRead msg => prices.entry msg.sendMsg
  | _ => 0

def paidTo (member : Nat) (outputs : List Output) : Nat :=
  (outputs.map fun
    | .session target msg => if target = member then prices.session msg else 0
    | _ => 0).sum

def paidUp (outputs : List Output) : Nat :=
  (outputs.map fun
    | .upstream msg => prices.upstream msg
    | _ => 0).sum

/-- The price of what is queued for some sessions and for the upstream client. -/
def paid (members : Finset Nat) (outputs : List Output) : Nat :=
  ∑ member ∈ members, prices.paidTo member outputs + prices.paidUp outputs

@[simp] theorem paidTo_nil (member : Nat) : prices.paidTo member [] = 0 := rfl

@[simp] theorem paidUp_nil : prices.paidUp [] = 0 := rfl

@[simp] theorem paid_nil (members : Finset Nat) : prices.paid members [] = 0 := by simp [paid]

theorem paid_append (members : Finset Nat) (first second : List Output) :
    prices.paid members (first ++ second) =
      prices.paid members first + prices.paid members second := by
  simp only [paid, paidTo, paidUp, List.map_append, List.sum_append, Finset.sum_add_distrib]
  omega

theorem paidTo_queued (member : Nat) (sends : List Send) :
    prices.paidTo member (sends.filterMap Send.queued) =
      Group.paid prices.session member sends := by
  induction sends with
  | nil => rfl
  | cons send sends ih =>
      cases send <;> simpa [paidTo, Group.paid, Send.queued, List.filterMap_cons] using ih

theorem paidUp_queued (sends : List Send) :
    prices.paidUp (sends.filterMap Send.queued) = 0 := by
  induction sends with
  | nil => rfl
  | cons send sends ih => cases send <;> simpa [paidUp, Send.queued, List.filterMap_cons] using ih

end Prices

namespace Node

/-- What a call has still to post. -/
def toPost (prices : Prices) (call : Call) : Nat :=
  if call.stage = .history then 0 else prices.post call.sendMsg

/-- What the upstream client can still be given, with what it costs to post it. -/
def backlog (prices : Prices) (node : Node) : Nat :=
  node.group.total (toPost prices) + (node.posted.map prices.post).sum +
    node.handling.elim 0 prices.handler + (node.relaying.map prices.entry).sum

/-- What some sessions can still be given, those among `sessions` having joined. -/
def sessionsOwed (prices : Prices) (members : Finset Nat) (group : Group)
    (sessions : List Nat) : Nat :=
  ∑ member ∈ members, group.owed prices.session member (member ∈ sessions)

def owed (prices : Prices) (members : Finset Nat) (node : Node) : Nat :=
  sessionsOwed prices members node.group node.sessions + node.backlog prices

/-- The sessions in the group have run. -/
structure Running (node : Node) : Prop where
  numbered : node.group.Numbered
  joined : ∀ member ∈ node.group.members, member ∈ node.sessions

variable {node : Node} {prices : Prices} {members : Finset Nat}

theorem Running.step (running : node.Running) {action : NodeAction} {next : Node}
    {outputs : List Output} (stepped : node.step action = some (next, outputs)) :
    next.Running := by
  have stepped := step_cases stepped
  refine ⟨?_, ?_⟩
  · rcases stepped.group with same | ⟨action, sends, grouped⟩
    · exact same ▸ running.numbered
    · exact running.numbered.step grouped
  · cases stepped with
    | sessionRead began => cases began <;> exact running.joined
    | relay found began => cases began <;> exact running.joined
    | advanced advanced => cases advanced <;> exact running.joined
    | joined fresh =>
        intro other inside
        cases List.mem_insert_iff.mp inside with
        | inl same => exact List.mem_cons.mpr (.inl same)
        | inr old => exact List.mem_cons_of_mem _ (running.joined other old)
    | left => exact fun other inside => running.joined other (List.mem_of_mem_filter inside)
    | _ => exact running.joined

/-- A session that is sent something has joined. -/
theorem Stepped.target {next : Node} {action : NodeAction} {outputs : List Output}
    (stepped : node.Stepped action next outputs) (running : node.Running) {member : Nat}
    {msg : Copy} (inside : .session member msg ∈ outputs) : member ∈ next.sessions := by
  cases stepped with
  | advanced advanced =>
      cases advanced with
      | @sent call last target _ _ found =>
          have same : member = target ∧ msg = call.sendMsg := by
            simpa [deliver, Send.queued] using inside
          rw [same.1]
          exact running.joined _ (Group.nextMember_some found).1
      | looped => simp [deliver] at inside
      | forwarded =>
          simp only [deliver] at inside
          split at inside <;> simp [Send.queued] at inside
      | appended => simp [deliver] at inside
  | joined fresh =>
      obtain ⟨entry, _, same⟩ := List.mem_map.mp inside
      cases same
      exact List.mem_cons_self
  | _ => simp at inside

/-- A `broadcast` is paid for with the entry price of its message. -/
def Covered (prices : Prices) (members : Finset Nat) (group : Group) : Prop :=
  ∀ msg, group.Takes msg →
    members.card * prices.session msg.sendMsg + prices.post msg.sendMsg ≤ prices.entry msg

theorem owed_taking (msg : Copy) :
    ({ node with group := node.group.taking msg } : Node).owed prices members =
      node.owed prices members +
        (members.card * prices.session msg.sendMsg + prices.post msg.sendMsg) := by
  simp only [owed, sessionsOwed, backlog, Group.owed_taking, Group.total_taking, toPost,
    Finset.sum_add_distrib, Finset.sum_const, smul_eq_mul, reduceCtorEq, if_false]
  omega

theorem owed_began {msg : Copy} {group : Group} (covered : Covered prices members node.group)
    (began : node.group.Began msg group) :
    ({ node with group := group } : Node).owed prices members ≤
      node.owed prices members + prices.entry msg := by
  cases began with
  | blocked => exact Nat.le_add_right _ _
  | taken takes =>
      rw [owed_taking]
      exact Nat.add_le_add_left (covered msg takes) _

theorem toPost_advanced (prices : Prices) {group next : Group} (numbered : group.Numbered) {number : Nat}
    {sends : List Send} (advanced : group.Advanced number next sends) :
    ((sends.filterMap Send.posted).map prices.post).sum + next.total (toPost prices) ≤
      group.total (toPost prices) := by
  cases advanced with
  | @sent call last target running inLoop found =>
      have sum := Group.total_setStage (toPost prices) numbered running (.members (some target))
      simp only [toPost, inLoop, reduceCtorEq, if_false] at sum
      simp only [List.filterMap_cons, Send.posted, List.filterMap_nil, List.map_nil, List.sum_nil]
      omega
  | @looped call last running inLoop found =>
      have sum := Group.total_setStage (toPost prices) numbered running .client
      simp only [toPost, inLoop, reduceCtorEq, if_false] at sum
      simp only [List.filterMap_nil, List.map_nil, List.sum_nil]
      omega
  | @forwarded call running atClient =>
      have sum := Group.total_setStage (toPost prices) numbered running .history
      simp only [toPost, atClient, reduceCtorEq, if_false, if_true] at sum
      split
      case isTrue =>
        simp only [List.filterMap_cons, Send.posted, List.filterMap_nil, List.map_cons,
          List.map_nil, List.sum_cons, List.sum_nil]
        omega
      case isFalse =>
        simp only [List.filterMap_nil, List.map_nil, List.sum_nil]
        omega
  | appended running atHistory =>
      have sum := Group.total_append (toPost prices) numbered running
      simp only [List.filterMap_nil, List.map_nil, List.sum_nil]
      omega

theorem owed_deliver (running : node.Running) {number : Nat} {group : Group}
    {sends : List Send} (advanced : node.group.Advanced number group sends) :
    prices.paid members (node.deliver group sends).2 +
        (node.deliver group sends).1.owed prices members ≤ node.owed prices members := by
  have sessions : ∑ member ∈ members, Group.paid prices.session member sends +
      sessionsOwed prices members group node.sessions ≤
      sessionsOwed prices members node.group node.sessions := by
    unfold sessionsOwed
    rw [← Finset.sum_add_distrib]
    exact Finset.sum_le_sum fun member _ => Group.owed_advanced running.numbered prices.session
      member (fun inside => decide_eq_true (running.joined member inside)) advanced
  have posts := toPost_advanced prices running.numbered advanced
  simp only [Prices.paid, deliver, Prices.paidTo_queued, Prices.paidUp_queued, owed, backlog,
    List.map_append, List.sum_append]
  omega

theorem owed_join {member : Nat} (fresh : member ∉ node.sessions) :
    prices.paid members (node.group.recentMsg.map fun entry => .session member entry.2) +
        ({ node with
            group := (node.group.join member).1
            sessions := member :: node.sessions } : Node).owed prices members ≤
      node.owed prices members := by
  have up : prices.paidUp (node.group.recentMsg.map fun entry => .session member entry.2) = 0 := by
    simp [Prices.paidUp, Function.comp_def]
  have each : ∀ other, prices.paidTo other (node.group.recentMsg.map fun entry =>
        .session member entry.2) +
      (node.group.join member).1.owed prices.session other (other ∈ member :: node.sessions) ≤
      node.group.owed prices.session other (other ∈ node.sessions) := by
    intro other
    cases eq_or_ne other member with
    | inl same =>
        subst same
        have joined := node.group.owed_join prices.session other
        have replay : prices.paidTo other (node.group.recentMsg.map fun entry =>
            .session other entry.2) = Group.paid prices.session other (node.group.join other).2 := by
          simp [Prices.paidTo, Group.paid, Group.join, Function.comp_def]
        simpa [fresh, replay] using joined
    | inr different =>
        have silent : prices.paidTo other (node.group.recentMsg.map fun entry =>
            .session member entry.2) = 0 := by
          simp [Prices.paidTo, Function.comp_def, different.symm]
        rw [silent, Nat.zero_add]
        simp only [List.mem_cons, different, false_or]
        exact Nat.le_refl _
  have sessions := Finset.sum_le_sum fun other (_ : other ∈ members) => each other
  rw [Finset.sum_add_distrib] at sessions
  have same : (node.group.join member).1.total = node.group.total := rfl
  simp only [Prices.paid, up, owed, sessionsOwed, backlog, same]
  omega

/-- No step pays more than what it takes off the debt and what comes in. -/
theorem owed_step (running : node.Running) (covered : Covered prices members node.group)
    {action : NodeAction} {next : Node} {outputs : List Output}
    (stepped : node.step action = some (next, outputs)) :
    prices.paid members outputs + next.owed prices members ≤
      node.owed prices members + prices.income node action := by
  cases step_cases stepped with
  | typed connected =>
      simp only [Prices.paid_nil, owed, backlog, typed, Prices.income, List.map_append,
        List.sum_append, List.map_cons, List.map_nil, List.sum_cons, List.sum_nil]
      omega
  | tooFrequent =>
      rw [Prices.paid_nil, Nat.zero_add]
      exact Nat.le_add_right _ _
  | sessionRead began =>
      rw [Prices.paid_nil, Nat.zero_add]
      exact owed_began covered began
  | @clientPassed msg connected alive fresh =>
      have shown : prices.paid members [.displayed msg] = 0 := by
        simp [Prices.paid, Prices.paidTo, Prices.paidUp]
      rw [shown, Nat.zero_add]
      simp only [owed, backlog, passing, Prices.income]
      split
      case isTrue =>
        simp only [List.map_append, List.sum_append, List.map_cons, List.map_nil, List.sum_cons,
          List.sum_nil]
        omega
      case isFalse => omega
  | clientDropped =>
      rw [Prices.paid_nil, Nat.zero_add]
      exact Nat.le_add_right _ _
  | @relay index msg group found began =>
      have entered := owed_began covered began
      have fewer := sum_eraseIdx prices.entry found
      rw [Prices.paid_nil, Nat.zero_add]
      simp only [owed, backlog, Prices.income] at entered ⊢
      omega
  | runPosted free found =>
      have fewer := sum_eraseIdx prices.post found
      rw [Prices.paid_nil, Nat.zero_add]
      simp only [owed, backlog, Prices.income, free, Option.elim_none, Option.elim_some,
        Prices.handler]
      omega
  | handlerTaken locked takes =>
      have entered := owed_began covered (.taken takes)
      rw [Prices.paid_nil, Nat.zero_add]
      simp only [owed, backlog, Prices.income, locked, Option.elim_some, Prices.handler,
        Prices.post] at entered ⊢
      omega
  | handlerBlocked locked =>
      rw [Prices.paid_nil, Nat.zero_add]
      simp only [owed, backlog, Prices.income, locked, Option.elim_some, Prices.handler,
        Prices.post]
      omega
  | returned broadcasting =>
      rw [Prices.paid_nil, Nat.zero_add]
      simp only [owed, backlog, Prices.income, broadcasting, Option.elim_some, Prices.handler]
      omega
  | @queued msg queueing =>
      have pushed : prices.paid members [.upstream msg] = prices.upstream msg := by
        simp [Prices.paid, Prices.paidTo, Prices.paidUp]
      rw [pushed]
      simp only [owed, backlog, Prices.income, queueing, Option.elim_some, Option.elim_none,
        Prices.handler]
      omega
  | advanced advanced => exact (owed_deliver running advanced).trans (Nat.le_add_right _ _)
  | joined fresh => exact (owed_join fresh).trans (Nat.le_add_right _ _)
  | left =>
      rw [Prices.paid_nil, Nat.zero_add]
      exact Nat.le_add_right _ _

end Node

end OsPractices.Chat
