import Mathlib.Data.List.Induction
import OsPractices.Chat.Message
import OsPractices.Library.Spacing

/-!
# Messages that are typed

The input loop of `chat.cpp`, which refuses a line that is typed within half a second
after the last message it has sent. The clock is a parameter: what it says when the
loop checks a line, and when it has sent one, in nanoseconds.
-/

set_option autoImplicit false

namespace OsPractices.Chat

open Library

structure TypedLine where
  text : List UInt8
  /-- The clock in `timer.within`. -/
  checked : Int
  /-- The clock in `timer.touch`. -/
  touched : Int

/-- `tp` of the timer, and `msg_id`. -/
structure InputLoop where
  tp : Int
  msgId : Int

/-- `Timer::within`: the milliseconds are rounded to zero. -/
def timerWithin (tp now millis : Int) : Bool := decide ((now - tp).tdiv 1000000 < millis)

/-- Half a second. -/
def patience : Int := 500 * 1000000

namespace InputLoop

variable (nickname : List UInt8) (addr : Addr)

/-- What the loop makes of a line: `nickname + ": " + buff`. -/
def message (loop : InputLoop) (line : TypedLine) : Message :=
  ⟨addr, defaultTtl, loop.msgId, nickname ++ [58, 32] ++ line.text⟩

/-- One turn of the loop, and the message that is sent. -/
def turn (loop : InputLoop) (line : TypedLine) : InputLoop × List (TypedLine × Message) :=
  let next := wrapInt (loop.msgId + 1)
  if timerWithin loop.tp line.checked 500 then ({ loop with msgId := next }, [])
  else (⟨line.touched, next⟩, [(line, loop.message nickname addr line)])

/-- The turns for some lines. -/
def turns (loop : InputLoop) : List TypedLine → InputLoop × List (TypedLine × Message)
  | [] => (loop, [])
  | line :: lines =>
      let (next, sent) := loop.turn nickname addr line
      let (last, more) := next.turns lines
      (last, sent ++ more)

end InputLoop

theorem timerWithin_iff (tp now : Int) : timerWithin tp now 500 = true ↔ now < tp + patience := by
  unfold timerWithin patience
  rw [decide_eq_true_iff]
  rcases Int.le_total 0 (now - tp) with ahead | behind
  · rw [Int.tdiv_eq_ediv_of_nonneg ahead]
    omega
  · have turned : now - tp = -(tp - now) := by omega
    rw [turned, Int.neg_tdiv, Int.tdiv_eq_ediv_of_nonneg (by omega)]
    omega

/-! ## What is sent -/

namespace InputLoop

variable (nickname : List UInt8) (addr : Addr)

/-- A line is sent, or it is refused. -/
theorem turn_cases (loop : InputLoop) (line : TypedLine) :
    (line.checked < loop.tp + patience ∧ loop.turn nickname addr line =
      ({ loop with msgId := wrapInt (loop.msgId + 1) }, [])) ∨
    (loop.tp + patience ≤ line.checked ∧ loop.turn nickname addr line =
      (⟨line.touched, wrapInt (loop.msgId + 1)⟩, [(line, loop.message nickname addr line)])) := by
  unfold turn
  split
  case isTrue soon => exact .inl ⟨(timerWithin_iff ..).mp soon, rfl⟩
  case isFalse late => exact .inr ⟨not_lt.mp ((timerWithin_iff ..).not.mp late), rfl⟩

@[simp] theorem turn_msgId (loop : InputLoop) (line : TypedLine) :
    (loop.turn nickname addr line).1.msgId = wrapInt (loop.msgId + 1) := by
  rcases loop.turn_cases nickname addr line with ⟨_, same⟩ | ⟨_, same⟩ <;> rw [same]

/-- There are ids left for the lines: `msg_id++` overflows after the last of them, if at
all. -/
def Room (loop : InputLoop) (lines : List TypedLine) : Prop :=
  lines ≠ [] → 0 ≤ loop.msgId ∧ loop.msgId + lines.length ≤ 2 ^ 31

section

variable {loop : InputLoop} {line : TypedLine} {lines before after : List TypedLine}

theorem Room.next (room : loop.Room (line :: lines)) (more : lines ≠ []) :
    (loop.turn nickname addr line).1.msgId = loop.msgId + 1 := by
  obtain ⟨low, high⟩ := room (by simp)
  have another := List.length_pos_iff.mpr more
  rw [List.length_cons] at high
  rw [turn_msgId]
  apply wrapInt_of_isInt
  unfold IsInt intMin intMax
  omega

theorem Room.tail (room : loop.Room (line :: lines)) :
    (loop.turn nickname addr line).1.Room lines := by
  intro more
  have next := room.next nickname addr more
  obtain ⟨low, high⟩ := room (by simp)
  rw [List.length_cons] at high
  push_cast at high
  omega

theorem Room.front (room : loop.Room (before ++ after)) : loop.Room before := by
  intro nonempty
  obtain ⟨low, high⟩ := room (by simp [nonempty])
  rw [List.length_append] at high
  push_cast at high
  omega

end

theorem turns_cons (loop : InputLoop) (line : TypedLine) (lines : List TypedLine) :
    (loop.turns nickname addr (line :: lines)).2 = (loop.turn nickname addr line).2 ++
      ((loop.turn nickname addr line).1.turns nickname addr lines).2 := rfl

theorem turns_append (loop : InputLoop) (before after : List TypedLine) :
    (loop.turns nickname addr (before ++ after)).1 =
        ((loop.turns nickname addr before).1.turns nickname addr after).1 ∧
      (loop.turns nickname addr (before ++ after)).2 = (loop.turns nickname addr before).2 ++
        ((loop.turns nickname addr before).1.turns nickname addr after).2 := by
  induction before generalizing loop with
  | nil => exact ⟨rfl, rfl⟩
  | cons line before ih =>
      obtain ⟨last, sent⟩ := ih (loop.turn nickname addr line).1
      refine ⟨last, ?_⟩
      rw [List.cons_append, turns_cons, turns_cons, sent, List.append_assoc]
      rfl

/-- The id of a line is the number of the lines before it. -/
theorem turns_msgId {loop : InputLoop} {before after : List TypedLine} {line : TypedLine}
    (room : loop.Room (before ++ line :: after)) :
    (loop.turns nickname addr before).1.msgId = loop.msgId + before.length ∧
      (loop.turns nickname addr before).1.Room (line :: after) := by
  induction before generalizing loop with
  | nil => exact ⟨(Int.add_zero _).symm, room⟩
  | cons first before ih =>
      have next := room.next nickname addr (by simp)
      obtain ⟨later, left⟩ := ih (room.tail nickname addr)
      refine ⟨?_, left⟩
      rw [next] at later
      rw [List.length_cons]
      push_cast
      exact later.trans (by omega)

/-- Each message is that of its line, and its id is the number of the line. -/
theorem sent_of_line {loop : InputLoop} {lines : List TypedLine} (room : loop.Room lines)
    {entry : TypedLine × Message} (member : entry ∈ (loop.turns nickname addr lines).2) :
    ∃ index, lines[index]? = some entry.1 ∧ entry.2 =
      ⟨addr, defaultTtl, loop.msgId + (index : Nat), nickname ++ [58, 32] ++ entry.1.text⟩ := by
  induction lines generalizing loop with
  | nil => cases member
  | cons line lines ih =>
      rw [turns_cons] at member
      rcases List.mem_append.mp member with now | later
      · rcases loop.turn_cases nickname addr line with ⟨_, same⟩ | ⟨_, same⟩
        · rw [same] at now
          cases now
        · rw [same] at now
          obtain rfl := List.mem_singleton.mp now
          exact ⟨0, rfl, by simp [message]⟩
      · obtain ⟨index, isLine, isMessage⟩ := ih (room.tail nickname addr) later
        refine ⟨index + 1, isLine, isMessage.trans ?_⟩
        rw [room.next nickname addr (List.ne_nil_of_mem (List.mem_of_getElem? isLine))]
        push_cast
        congr 1
        omega

theorem sent_ids {loop : InputLoop} {lines : List TypedLine} (room : loop.Room lines) :
    (loop.turns nickname addr lines).2.Pairwise fun earlier later =>
      earlier.2.id < later.2.id := by
  induction lines generalizing loop with
  | nil => exact .nil
  | cons line lines ih =>
      rw [turns_cons]
      refine List.pairwise_append.mpr ⟨?_, ih (room.tail nickname addr),
        fun first now second later => ?_⟩
      · rcases loop.turn_cases nickname addr line with ⟨_, same⟩ | ⟨_, same⟩ <;> simp [same]
      · obtain ⟨index, isLine, isSecond⟩ :=
          sent_of_line nickname addr (room.tail nickname addr) later
        have isFirst : first.2.id = loop.msgId := by
          rcases loop.turn_cases nickname addr line with ⟨_, same⟩ | ⟨_, same⟩
          · simp [same] at now
          · rw [same] at now
            rw [List.mem_singleton.mp now]
            rfl
        rw [isFirst, isSecond,
          room.next nickname addr (List.ne_nil_of_mem (List.mem_of_getElem? isLine))]
        dsimp only
        omega

/-- No message is sent within half a second after another one has been. -/
theorem sent_paced (loop : InputLoop) {lines : List TypedLine}
    (forward : ∀ line ∈ lines, line.checked ≤ line.touched) :
    (∀ entry ∈ (loop.turns nickname addr lines).2, loop.tp + patience ≤ entry.1.checked) ∧
      (loop.turns nickname addr lines).2.Pairwise fun earlier later =>
        earlier.1.touched + patience ≤ later.1.checked := by
  induction lines generalizing loop with
  | nil => exact ⟨by simp [turns], .nil⟩
  | cons line lines ih =>
      rw [turns_cons]
      obtain ⟨after, paced⟩ := ih (loop.turn nickname addr line).1 fun other member =>
        forward other (List.mem_cons_of_mem line member)
      rcases loop.turn_cases nickname addr line with ⟨_, same⟩ | ⟨late, same⟩
      · rw [same] at after paced ⊢
        exact ⟨after, paced⟩
      · rw [same] at after paced ⊢
        have taken := forward line List.mem_cons_self
        refine ⟨fun entry member => ?_, List.pairwise_cons.mpr ⟨after, paced⟩⟩
        rcases List.mem_cons.mp member with rfl | later
        · exact late
        · have long := after entry later
          unfold patience at long late ⊢
          dsimp only at long
          omega

/-- The timer was touched when the last message was sent. -/
theorem turns_tp (loop : InputLoop) (lines : List TypedLine) :
    (loop.turns nickname addr lines).1.tp = (loop.turns nickname addr lines).2.getLast?.elim
      loop.tp fun entry => entry.1.touched := by
  induction lines using List.reverseRecOn with
  | nil => rfl
  | append_singleton before line ih =>
      obtain ⟨last, sent⟩ := loop.turns_append nickname addr before [line]
      rw [last, sent]
      generalize loop.turns nickname addr before = earlier at ih ⊢
      rcases earlier.1.turn_cases nickname addr line with
        ⟨_, same⟩ | ⟨_, same⟩
      · simpa [turns, same] using ih
      · simp [turns, same]

/-- The messages of the lines before a line have smaller ids, those of the lines after
it greater ones. -/
theorem sent_around {loop : InputLoop} {before after : List TypedLine} {line : TypedLine}
    (room : loop.Room (before ++ line :: after)) :
    let mid := (loop.turns nickname addr before).1
    let next := (mid.turn nickname addr line).1
    (∀ entry ∈ (loop.turns nickname addr before).2, entry.2.id < mid.msgId) ∧
      ∀ entry ∈ (next.turns nickname addr after).2, mid.msgId < entry.2.id := by
  intro mid next
  obtain ⟨count, left⟩ : mid.msgId = loop.msgId + before.length ∧ mid.Room (line :: after) :=
    turns_msgId nickname addr room
  constructor <;> intro entry member
  · obtain ⟨index, isLine, isMessage⟩ := sent_of_line nickname addr room.front member
    have inside := (List.getElem?_eq_some_iff.mp isLine).1
    rw [isMessage, count]
    dsimp only
    omega
  · obtain ⟨index, isLine, isMessage⟩ :=
      sent_of_line nickname addr (left.tail nickname addr) member
    rw [isMessage, left.next nickname addr (List.ne_nil_of_mem (List.mem_of_getElem? isLine))]
    dsimp only
    omega

/-- Whether a line is sent depends on when the last message was sent before it. -/
theorem sent_iff {loop : InputLoop} {before after : List TypedLine} {line : TypedLine}
    (room : loop.Room (before ++ line :: after)) :
    let mid := (loop.turns nickname addr before).1
    let sent := (loop.turns nickname addr (before ++ line :: after)).2
    ((line, mid.message nickname addr line) ∈ sent ↔ mid.tp + patience ≤ line.checked) ∧
      sent.filter (fun entry => decide (entry.2.id < mid.msgId)) =
        (loop.turns nickname addr before).2 := by
  intro mid sent
  obtain ⟨smaller, greater⟩ := sent_around nickname addr room
  have parts : sent = (loop.turns nickname addr before).2 ++ ((mid.turn nickname addr line).2 ++
      ((mid.turn nickname addr line).1.turns nickname addr after).2) :=
    (loop.turns_append nickname addr before (line :: after)).2
  have out : (line, mid.message nickname addr line) ∉ (loop.turns nickname addr before).2 :=
    fun member => absurd (smaller _ member) (lt_irrefl _)
  have beyond : (line, mid.message nickname addr line) ∉
      ((mid.turn nickname addr line).1.turns nickname addr after).2 :=
    fun member => absurd (greater _ member) (lt_irrefl _)
  have kept : (loop.turns nickname addr before).2.filter
      (fun entry => decide (entry.2.id < mid.msgId)) = (loop.turns nickname addr before).2 :=
    List.filter_eq_self.mpr fun entry member => decide_eq_true (smaller entry member)
  have dropped : ((mid.turn nickname addr line).1.turns nickname addr after).2.filter
      (fun entry => decide (entry.2.id < mid.msgId)) = [] :=
    List.filter_eq_nil_iff.mpr fun entry member =>
      fun less => absurd (of_decide_eq_true less) (not_lt.mpr (greater entry member).le)
  rw [parts, List.filter_append, List.filter_append, kept, dropped]
  rcases mid.turn_cases nickname addr line with ⟨soon, same⟩ | ⟨late, same⟩
  · rw [same] at beyond ⊢
    refine ⟨⟨fun member => ?_, fun late => absurd soon (not_lt.mpr late)⟩, by simp⟩
    rcases List.mem_append.mp member with early | later
    · exact absurd early out
    · exact absurd later beyond
  · rw [same]
    refine ⟨⟨fun _ => late, fun _ => ?_⟩, by simp [message]⟩
    exact List.mem_append_right _ List.mem_cons_self

end InputLoop

/-- What is promised of the messages that the loop sends: the ids ascend, and each is
the number of its line; a line is sent exactly if half a second has passed since the
message before it was sent; and in no window of time are there more messages than fit. -/
structure Paces (nickname : List UInt8) (addr : Addr) (start : Int) (lines : List TypedLine)
    (sent : List (TypedLine × Message)) : Prop where
  ids : sent.Pairwise fun earlier later => earlier.2.id < later.2.id
  ofLine : ∀ entry ∈ sent, ∃ index, lines[index]? = some entry.1 ∧ entry.2 =
    ⟨addr, defaultTtl, (index : Nat), nickname ++ [58, 32] ++ entry.1.text⟩
  whether : ∀ before line after, lines = before ++ line :: after →
    ((line, ⟨addr, defaultTtl, before.length, nickname ++ [58, 32] ++ line.text⟩) ∈ sent ↔
      ((sent.filter fun entry => decide (entry.2.id < before.length)).getLast?.elim start
        fun entry => entry.1.touched) + patience ≤ line.checked)
  rate : ∀ low high, ∀ part, part.Sublist sent → part ≠ [] →
    (∀ entry ∈ part, low ≤ entry.1.checked ∧ entry.1.checked ≤ high) →
    (part.length - 1) * patience ≤ high - low

/-- The ids are `int`s, so that the promise ends with the line of number `2 ^ 31`. -/
theorem inputLoop_paces (nickname : List UInt8) (addr : Addr) (start : Int)
    (lines : List TypedLine) (few : lines.length ≤ 2 ^ 31)
    (forward : ∀ line ∈ lines, line.checked ≤ line.touched) :
    Paces nickname addr start lines ((InputLoop.mk start 0).turns nickname addr lines).2 := by
  have room : (InputLoop.mk start 0).Room lines := fun _ => ⟨le_rfl, by dsimp only; omega⟩
  constructor
  case ids => exact InputLoop.sent_ids nickname addr room
  case ofLine =>
    intro entry member
    obtain ⟨index, isLine, isMessage⟩ := InputLoop.sent_of_line nickname addr room member
    exact ⟨index, isLine, isMessage.trans (by simp)⟩
  case whether =>
    intro before line after same
    subst same
    obtain ⟨sent, earlier⟩ := InputLoop.sent_iff nickname addr room
    have count := (InputLoop.turns_msgId nickname addr room).1
    have last := (InputLoop.mk start 0).turns_tp nickname addr before
    rw [Int.zero_add] at count
    rw [count] at earlier
    rw [earlier, ← last, ← sent, InputLoop.message, count]
  case rate =>
    intro low high part sublist nonempty within
    have paced := (InputLoop.sent_paced nickname addr ⟨start, 0⟩ forward).2
    have spaced : Spaced patience (part.map fun entry => entry.1.checked) := by
      refine List.pairwise_map.mpr ((paced.sublist sublist).imp_of_mem ?_)
      intro earlier later first _ apart
      obtain ⟨_, isLine, _⟩ := InputLoop.sent_of_line nickname addr room (sublist.subset first)
      have taken := forward earlier.1 (List.mem_of_getElem? isLine)
      omega
    have inside : ∀ instant ∈ part.map fun entry => entry.1.checked,
        low ≤ instant ∧ instant ≤ high := by
      intro instant member
      obtain ⟨entry, isSent, rfl⟩ := List.mem_map.mp member
      exact within entry isSent
    have fits := spaced.length_le inside (by simpa using nonempty)
    simpa using fits

/-- The second of three lines is typed too soon after the first. -/
theorem inputLoop_paces_three :
    let lines : List TypedLine :=
      [⟨[104, 105], 600000000, 600000100⟩, ⟨[33], 900000000, 900000100⟩,
        ⟨[98, 121, 101], 1100000100, 1100000200⟩]
    let sent := ((InputLoop.mk 0 0).turns [98, 111, 98] ⟨2130706433, 8080⟩ lines).2
    (∀ line ∈ lines, line.checked ≤ line.touched) ∧
      Paces [98, 111, 98] ⟨2130706433, 8080⟩ 0 lines sent ∧
      sent.map (fun entry => entry.2.id) = [0, 2] :=
  ⟨by decide, inputLoop_paces _ _ _ _ (by decide) (by decide), by decide⟩

end OsPractices.Chat
