import OsPractices.Chat.Group
import OsPractices.Library.Window

/-!
# Suppressing duplicates

What a group relays, with any number of calls of `broadcast` in progress. Its
cache is the window of the messages that it relayed last.
-/

set_option autoImplicit false

namespace OsPractices.Chat

open Library

/-- `step`, with the message that a `broadcast` lets pass as its output. -/
def Group.relay (group : Group) (action : GroupAction) : Option (Group × List Message) :=
  (group.step action).map fun (next, _) =>
    (next, match action with
      | .broadcast msg => if (group.accept msg).isSome then [msg.sendMsg.message] else []
      | _ => [])

theorem MessageCache.hit_eq_false_iff {cache : MessageCache} {msg : Message} :
    cache.hit msg = false ↔ ∀ other ∈ cache, ¬ other.SameKey msg := by
  simp [MessageCache.hit]

theorem MessageCache.add_of_fresh {cache : MessageCache} {msg : Message}
    (fresh : cache.hit msg = false) : cache.add msg = recent maxCacheSize (cache ++ [msg]) := by
  simp [MessageCache.add, fresh, recent]

/-- The cache of a group is the window of what it relayed, and what it relayed
was new to that window. -/
structure Group.Remembers (group : Group) (relayed : List Message) : Prop where
  cache : group.cache = recent maxCacheSize relayed
  fresh : Fresh Message.SameKey maxCacheSize relayed

theorem Group.Remembers.of_same {group next : Group} {relayed : List Message}
    (remembers : group.Remembers relayed) (same : next.cache = group.cache) :
    next.Remembers (relayed ++ []) := by
  rw [List.append_nil]
  exact ⟨same.trans remembers.cache, remembers.fresh⟩

theorem Group.Remembers.taking {group : Group} {relayed : List Message}
    (remembers : group.Remembers relayed) {msg : Copy} (takes : group.Takes msg) :
    (group.taking msg).Remembers (relayed ++ [msg.sendMsg.message]) := by
  obtain ⟨_, fresh, _⟩ := takes
  have apart : group.cache.hit msg.sendMsg.message = false := fresh
  constructor
  case cache =>
    calc group.cache.add msg.sendMsg.message
        = recent maxCacheSize (group.cache ++ [msg.sendMsg.message]) :=
          MessageCache.add_of_fresh apart
      _ = recent maxCacheSize (relayed ++ [msg.sendMsg.message]) := by
          rw [remembers.cache, recent_push]
  case fresh =>
    rw [remembers.cache] at apart
    exact Explained.snoc.mpr ⟨remembers.fresh, MessageCache.hit_eq_false_iff.mp apart⟩

theorem Group.Advanced.cache {group next : Group} {number : Nat} {sends : List Send}
    (advanced : group.Advanced number next sends) : next.cache = group.cache := by
  cases advanced with
  | sent => rfl
  | looped => rfl
  | forwarded => rfl
  | appended => rfl

theorem Group.Remembers.relay {group next : Group} {relayed more : List Message}
    {action : GroupAction} (remembers : group.Remembers relayed)
    (stepped : group.relay action = some (next, more)) : next.Remembers (relayed ++ more) := by
  obtain ⟨⟨reached, sends⟩, moved, same⟩ := Option.map_eq_some_iff.mp stepped
  simp only [Prod.mk.injEq] at same
  obtain ⟨rfl, rfl⟩ := same
  cases action with
  | broadcast msg =>
      obtain ⟨began, _⟩ := Group.step_broadcast moved
      obtain ⟨takes, taken⟩ | ⟨blocked, refused⟩ := group.accept_cases msg
      · cases began with
        | taken =>
            simp only [taken, Option.isSome_some, if_true]
            exact remembers.taking takes
        | blocked blocked => exact absurd takes blocked
      · cases began with
        | taken takes => exact absurd takes blocked
        | blocked =>
            simp only [refused, Option.isSome_none, Bool.false_eq_true, if_false]
            exact remembers.of_same rfl
  | advance number => exact remembers.of_same (Group.advance_cases moved).cache
  | join member =>
      cases moved
      exact remembers.of_same rfl
  | leave member =>
      cases moved
      exact remembers.of_same rfl

theorem remembers_of_run {client : Bool} {blackList : List Addr} {actions : List GroupAction}
    {relayed : List Message} {group : Group}
    (run : Run Group.relay (fun _ _ => True) (Group.create client blackList) actions relayed group) :
    group.Remembers relayed :=
  run.invariant ⟨rfl, Explained.nil⟩ fun remembers _ stepped => remembers.relay stepped

/-- The cache holds the messages relayed last, no two with one address and id,
and what is relayed again comes behind `MAX_CACHE_SIZE` others. -/
theorem duplicate_window {client : Bool} {blackList : List Addr} {actions : List GroupAction}
    {relayed : List Message} {group : Group}
    (run : Run Group.relay (fun _ _ => True) (Group.create client blackList) actions relayed group) :
    group.cache.length ≤ maxCacheSize ∧
      (group.cache.Pairwise fun left right => ¬ left.SameKey right) ∧
      group.cache = recent maxCacheSize relayed ∧
      ∀ before first between second after,
        relayed = before ++ first :: between ++ second :: after → first.SameKey second →
        maxCacheSize ≤ (between.filter fun msg => ¬ msg.SameKey second).length := by
  obtain ⟨cache, fresh⟩ := remembers_of_run run
  refine ⟨?_, ?_, cache, fun before first between second after split again => ?_⟩
  · rw [cache, length_recent]
    exact Nat.min_le_right _ _
  · rw [cache]
    exact fresh.pairwise
  · subst split
    exact fresh.gap again

/-- Two messages, the first of them again, and one whose time is over. -/
theorem duplicate_window_blocked : ∃ group, Run Group.relay (fun _ _ => True)
      (Group.create false [])
      [.broadcast ⟨⟨⟨1, 80⟩, 10, 0, [104, 105]⟩, 0, 0⟩, .broadcast ⟨⟨⟨2, 80⟩, 5, 0, []⟩, 1, 1⟩,
        .advance 1, .broadcast ⟨⟨⟨1, 80⟩, 8, 0, [104, 105]⟩, 2, 0⟩,
        .broadcast ⟨⟨⟨3, 80⟩, 1, 0, []⟩, 3, 3⟩]
      [⟨⟨1, 80⟩, 9, 0, [104, 105]⟩, ⟨⟨2, 80⟩, 4, 0, []⟩] group ∧
    group.cache = recent maxCacheSize [⟨⟨1, 80⟩, 9, 0, [104, 105]⟩, ⟨⟨2, 80⟩, 4, 0, []⟩] := by
  have run : Run Group.relay (fun _ _ => True) (Group.create false [])
      [.broadcast ⟨⟨⟨1, 80⟩, 10, 0, [104, 105]⟩, 0, 0⟩, .broadcast ⟨⟨⟨2, 80⟩, 5, 0, []⟩, 1, 1⟩,
        .advance 1, .broadcast ⟨⟨⟨1, 80⟩, 8, 0, [104, 105]⟩, 2, 0⟩,
        .broadcast ⟨⟨⟨3, 80⟩, 1, 0, []⟩, 3, 3⟩]
      [⟨⟨1, 80⟩, 9, 0, [104, 105]⟩, ⟨⟨2, 80⟩, 4, 0, []⟩] _ := Run.of_exec rfl
  exact ⟨_, run, (duplicate_window run).2.2.1⟩

end OsPractices.Chat
