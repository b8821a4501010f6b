import OsPractices.Chat.Held

/-!
# Blacklist containment

`broadcast` lets no message of a blacklisted origin into a group. What
`Client::do_read` displays and `Client::send` queues has not passed it, so the
containment of a node rests on what these two are given.
-/

set_option autoImplicit false

namespace OsPractices.Chat

open Library

/-- No message of a listed origin is in the group's cache. -/
def Group.Screened (group : Group) : Prop := ∀ msg ∈ group.cache, msg.addr ∉ group.blackList

theorem MessageCache.mem_add {cache : MessageCache} {msg other : Message}
    (inside : other ∈ cache.add msg) : other ∈ cache ∨ other = msg := by
  unfold MessageCache.add at inside
  have kept := List.mem_of_mem_drop inside
  split at kept
  case isTrue hit => exact .inl kept
  case isFalse new => simpa using kept

theorem Group.Screened.step {group next : Group} {action : GroupAction} {sends : List Send}
    (screened : group.Screened) (stepped : group.step action = some (next, sends)) :
    next.blackList = group.blackList ∧ next.Screened := by
  cases action with
  | broadcast msg =>
      cases (Group.step_broadcast stepped).1 with
      | blocked => exact ⟨rfl, screened⟩
      | taken takes =>
          refine ⟨rfl, fun other inside => ?_⟩
          cases MessageCache.mem_add inside with
          | inl old => exact screened _ old
          | inr new =>
              subst new
              exact takes.2.2
  | advance number => cases Group.advance_cases stepped <;> exact ⟨rfl, screened⟩
  | join member =>
      cases stepped
      exact ⟨rfl, screened⟩
  | leave member =>
      cases stepped
      exact ⟨rfl, screened⟩

namespace Node

theorem screened_step {node next : Node} {action : NodeAction} {outputs : List Output}
    (screened : node.group.Screened) (stepped : node.step action = some (next, outputs)) :
    next.group.blackList = node.group.blackList ∧ next.group.Screened := by
  rcases (Node.step_cases stepped).group with same | ⟨action, sends, grouped⟩
  · rw [same]
    exact ⟨rfl, screened⟩
  · exact screened.step grouped

/-- The inputs whose origin `Client::do_read` and the input loop would have to
look up in the blacklist: an input line of this node, and a message that
`do_read` lets pass. -/
def Screens (node : Node) : NodeAction → Prop
  | .typed _ _ _ => node.addr ∉ node.group.blackList
  | .clientRead msg => node.Passes msg → msg.message.addr ∉ node.group.blackList
  | _ => True

/-- A node that holds no message of the listed origins. -/
structure Clean (blackList : List Addr) (node : Node) : Prop where
  listed : node.group.blackList = blackList
  screened : node.group.Screened
  held : node.Held (fun msg => msg.message.addr ∉ blackList) fun _ => True

theorem Clean.step {blackList : List Addr} {node next : Node} {action : NodeAction}
    {outputs : List Output} (clean : node.Clean blackList) (screens : node.Screens action)
    (stepped : node.step action = some (next, outputs)) :
    next.Clean blackList ∧ ∀ output ∈ outputs, output.msg.message.addr ∉ blackList := by
  obtain ⟨rfl, screened, held⟩ := clean
  have makes : node.group.Makes (fun msg => msg.message.addr ∉ node.group.blackList)
      fun _ => True := fun msg takes _ => takes.2.2
  have enters : node.Enters (fun msg => msg.message.addr ∉ node.group.blackList)
      (fun _ => True) action := by
    cases action with
    | typed content ttl event => exact screens
    | clientRead msg => exact fun _ => trivial
    | _ => trivial
  obtain ⟨next, sent⟩ := held.step makes enters stepped
  obtain ⟨listed, kept⟩ := screened_step screened stepped
  refine ⟨⟨listed, kept, next⟩, fun output inside => ?_⟩
  rcases sent output inside with white | ⟨msg, rfl, passes, rfl⟩
  · exact white
  · exact screens passes

end Node

/-- In a run whose lines and messages from the upstream connection are screened,
no message of a blacklisted origin is queued, displayed or stored. -/
theorem blacklist_contained {client : Bool} {blackList : List Addr} {addr : Addr}
    {actions : List NodeAction} {outputs : List Output} {node : Node}
    (run : Run Node.step Node.Screens (Node.create client blackList addr) actions outputs node) :
    (∀ output ∈ outputs, output.msg.message.addr ∉ blackList) ∧
      (∀ entry ∈ node.group.recentMsg, entry.2.message.addr ∉ blackList) ∧
      ∀ msg ∈ node.group.cache, msg.addr ∉ blackList := by
  have kept : node.Clean blackList ∧ ∀ output ∈ outputs, output.msg.message.addr ∉ blackList := by
    induction run with
    | nil =>
        exact ⟨⟨rfl, by simp [Group.Screened, Node.create, Group.create],
          Node.held_create _ _ _ _ _⟩, by simp⟩
    | snoc _ screens stepped ih =>
        obtain ⟨clean, quiet⟩ := ih.1.step screens stepped
        exact ⟨clean, fun output inside => (List.mem_append.mp inside).elim (ih.2 _) (quiet _)⟩
  obtain ⟨clean, quiet⟩ := kept
  exact ⟨quiet, clean.held.recent, clean.listed ▸ clean.screened⟩

/-- A message that a listed node sent, and that a session delivers, stays out. -/
theorem blacklist_contained_session :
    ∃ node, Run Node.step Node.Screens (Node.create true [⟨7, 1⟩] ⟨0, 2⟩)
        [.sessionRead ⟨⟨⟨7, 1⟩, 9, 0, []⟩, 0, 0⟩] [] node ∧
      ∀ msg ∈ node.group.cache, msg.addr ∉ [⟨7, 1⟩] := by
  have run : Run Node.step Node.Screens (Node.create true [⟨7, 1⟩] ⟨0, 2⟩)
      ([] ++ [.sessionRead ⟨⟨⟨7, 1⟩, 9, 0, []⟩, 0, 0⟩]) ([] ++ []) _ := Run.nil.snoc trivial rfl
  exact ⟨_, run, (blacklist_contained run).2.2⟩

/-- The same message from the upstream connection is displayed. -/
theorem listed_origin_displayed :
    ¬ ∀ outputs node, Run Node.step (fun _ _ => True) (Node.create true [⟨7, 1⟩] ⟨0, 2⟩)
        [.clientRead ⟨⟨⟨7, 1⟩, 9, 0, []⟩, 0, 0⟩] outputs node →
      ∀ output ∈ outputs, output.msg.message.addr ∉ [⟨7, 1⟩] := by
  intro contained
  have shown := contained [.displayed ⟨⟨⟨7, 1⟩, 9, 0, []⟩, 0, 0⟩] _ (Run.of_exec rfl)
  exact shown _ (List.mem_singleton_self _) (List.mem_singleton_self _)

end OsPractices.Chat
