import OsPractices.Chat.Message
import OsPractices.Library.Runs

/-!
# The write pump

The sending half of `Session` (`server.h`) and `Client` (`client.h`). A section
under the mutex is one step; `do_write` is called after the unlock, so a thread
that decided to write is a state of its own. `async_write` reads `wbuff` while
it runs: a transfer puts any number of further bytes of the buffer, as they are
at that moment, on the socket.
-/

set_option autoImplicit false

namespace OsPractices.Chat

open Library

/-- The two classes that own a pump. -/
inductive Endpoint where
  | session
  | client
  deriving DecidableEq, Repr

/-- `posted` are the handlers of `Client::send` that have not run, `starting` the
threads between the unlock and `async_write`, and `writes` the bytes that each
unfinished `async_write` has transferred. -/
structure Pump where
  pending : List Message
  wbuff : List UInt8
  posted : List Message
  starting : List Nat
  writes : List (List UInt8)
  deriving DecidableEq, Repr

inductive PumpAction where
  | send (thread : Nat) (msg : Message)
  | onPost (thread index : Nat)
  | doWrite (thread : Nat)
  | transfer (index amount : Nat)
  | onWrite (thread index : Nat)
  deriving DecidableEq, Repr

/-- A message pushed onto `pending`, bytes put on the socket, and the bytes of a
write whose handler runs. -/
inductive PumpOutput where
  | pushed (msg : Message)
  | bytes (sent : List UInt8)
  | written (frame : List UInt8)
  deriving DecidableEq, Repr

namespace Pump

/-- The constructors clear the buffer. -/
def create : Pump := ⟨[], List.replicate maxBuffSize 0, [], [], []⟩

/-- `strncpy(wbuff, pending.front().serialize().c_str(), MAX_BUFF_SIZE)` -/
def fillFront (pump : Pump) : Pump :=
  match pump.pending with
  | [] => pump
  | front :: _ => { pump with wbuff := strncpy pump.wbuff front.serialize }

/-- The section of `Session::send` and of the handler that `Client::send` posts. -/
def pushBack (pump : Pump) (thread : Nat) (msg : Message) : Pump :=
  let writeInProgress := !pump.pending.isEmpty
  let pump := { pump with pending := pump.pending ++ [msg] }
  if !writeInProgress then
    { pump.fillFront with starting := thread :: pump.starting }
  else
    pump

/-- The section of `on_write`. It is only reached with a message in `pending`,
so `pop_front` is defined. -/
def popFront (pump : Pump) (thread : Nat) : Pump :=
  let pump := { pump with pending := pump.pending.tail }
  if !pump.pending.isEmpty then
    { pump.fillFront with starting := thread :: pump.starting }
  else
    pump

/-- What a thread, or the transport, does next. A thread that is about to call
`do_write` does nothing else. -/
def step (endpoint : Endpoint) (pump : Pump) : PumpAction → Option (Pump × List PumpOutput)
  | .send thread msg =>
      if thread ∈ pump.starting then none
      else
        match endpoint with
        | .session => some (pump.pushBack thread msg, [.pushed msg])
        | .client => some ({ pump with posted := pump.posted ++ [msg] }, [])
  | .onPost thread index =>
      if thread ∈ pump.starting then none
      else
        match pump.posted[index]? with
        | none => none
        | some msg =>
            some ({ pump with posted := pump.posted.eraseIdx index }.pushBack thread msg,
              [.pushed msg])
  | .doWrite thread =>
      if thread ∈ pump.starting then
        some ({ pump with
          starting := pump.starting.erase thread
          writes := pump.writes ++ [[]] }, [])
      else none
  | .transfer index amount =>
      match pump.writes[index]? with
      | none => none
      | some sent =>
          let more := (pump.wbuff.drop sent.length).take amount
          some ({ pump with writes := pump.writes.set index (sent ++ more) }, [.bytes more])
  | .onWrite thread index =>
      if thread ∈ pump.starting then none
      else
        match pump.writes[index]? with
        | none => none
        | some sent =>
            if sent.length = maxBuffSize then
              some ({ pump with writes := pump.writes.eraseIdx index }.popFront thread,
                [.written sent])
            else none

/-- The writes from the decision to start one until its handler has popped. -/
def alive (pump : Pump) : Nat := pump.starting.length + pump.writes.length

end Pump

/-! ## What a pump is for -/

/-- The frame of a message. -/
def frameOf (msg : Message) : List UInt8 :=
  strncpy (List.replicate maxBuffSize 0) msg.serialize

def pushedOf (outputs : List PumpOutput) : List Message :=
  outputs.filterMap fun
    | .pushed msg => some msg
    | _ => none

def writtenOf (outputs : List PumpOutput) : List (List UInt8) :=
  outputs.filterMap fun
    | .written frame => some frame
    | _ => none

/-- All bytes on the socket. -/
def wireOf (outputs : List PumpOutput) : List UInt8 :=
  outputs.flatMap fun
    | .bytes sent => sent
    | _ => []

/-- One write at a time, of the message at the front; the frames on the socket
are those of the messages pushed, in order. -/
structure Pump.Orderly (endpoint : Endpoint) (pump : Pump) (outputs : List PumpOutput) : Prop where
  single : pump.alive ≤ 1
  busy : pump.alive = 1 ↔ pump.pending ≠ []
  stable : ∀ action next more, pump.step endpoint action = some (next, more) → pump.alive = 1 →
    (∀ thread index, action ≠ .onWrite thread index) → next.wbuff = pump.wbuff
  order : ∃ done, pushedOf outputs = done ++ pump.pending ∧
    writtenOf outputs = done.map frameOf ∧
    wireOf outputs = done.flatMap frameOf ++ pump.writes.flatten
  front : ∀ sent ∈ pump.writes, ∃ msg rest, pump.pending = msg :: rest ∧ sent <+: frameOf msg

/-! ## The phases -/

section

variable {pump : Pump}

theorem length_strncpy {buffer : List UInt8} (size : buffer.length = maxBuffSize)
    (str : List UInt8) : (strncpy buffer str).length = maxBuffSize := by
  simp only [strncpy, List.length_append, List.length_replicate, List.length_drop, size]
  have copied : ((str.takeWhile (· ≠ 0)).take maxBuffSize).length ≤ maxBuffSize :=
    List.length_take_le _ _
  omega

/-- The whole buffer is written, so that its old bytes do not matter. -/
theorem strncpy_eq_frameOf {buffer : List UInt8} (size : buffer.length = maxBuffSize)
    (msg : Message) : strncpy buffer msg.serialize = frameOf msg := by
  simp only [frameOf, strncpy, List.drop_eq_nil_of_le size.le, List.drop_replicate, Nat.sub_self,
    List.replicate_zero]

theorem length_frameOf (msg : Message) : (frameOf msg).length = maxBuffSize :=
  length_strncpy (List.length_replicate) _

/-- A pump is idle, or a thread is about to write the front message, or one write
of it is under way. -/
inductive Pump.Phase (pump : Pump) : Prop where
  | idle : pump.pending = [] → pump.starting = [] → pump.writes = [] → Phase pump
  | started {msg : Message} {rest : List Message} {thread : Nat} :
      pump.pending = msg :: rest → pump.starting = [thread] → pump.writes = [] →
      pump.wbuff = frameOf msg → Phase pump
  | writing {msg : Message} {rest : List Message} {sent : List UInt8} :
      pump.pending = msg :: rest → pump.starting = [] → pump.writes = [sent] →
      pump.wbuff = frameOf msg → sent <+: frameOf msg → Phase pump

/-! ### The two sections -/

theorem Pump.pushBack_idle (empty : pump.pending = []) (thread : Nat) (msg : Message) :
    pump.pushBack thread msg =
      { pump with
        pending := [msg]
        wbuff := strncpy pump.wbuff msg.serialize
        starting := thread :: pump.starting } := by
  simp [pushBack, empty, fillFront]

theorem Pump.pushBack_busy (waiting : pump.pending ≠ []) (thread : Nat) (msg : Message) :
    pump.pushBack thread msg = { pump with pending := pump.pending ++ [msg] } := by
  simp [pushBack, waiting]

theorem Pump.popFront_last {msg : Message} (last : pump.pending = [msg]) (thread : Nat) :
    pump.popFront thread = { pump with pending := [] } := by
  simp [popFront, last]

theorem Pump.popFront_next {msg next : Message} {rest : List Message}
    (more : pump.pending = msg :: next :: rest) (thread : Nat) :
    pump.popFront thread =
      { pump with
        pending := next :: rest
        wbuff := strncpy pump.wbuff next.serialize
        starting := thread :: pump.starting } := by
  simp [popFront, more, fillFront]

/-- A push appends to the queue and leaves the writes alone; it leaves the buffer
alone while a message waits. -/
theorem Pump.pushBack_fields (pump : Pump) (thread : Nat) (msg : Message) :
    (pump.pushBack thread msg).pending = pump.pending ++ [msg] ∧
      (pump.pushBack thread msg).writes = pump.writes ∧
      (pump.pending ≠ [] → (pump.pushBack thread msg).wbuff = pump.wbuff) := by
  by_cases empty : pump.pending = []
  · rw [pushBack_idle empty, empty]
    exact ⟨rfl, rfl, fun waiting => absurd rfl waiting⟩
  · rw [pushBack_busy empty]
    exact ⟨rfl, rfl, fun _ => rfl⟩

/-! ### Steps -/

/-- What a step does. -/
inductive Pump.Stepped (pump : Pump) : PumpAction → Pump → List PumpOutput → Prop where
  | posted {thread : Nat} {msg : Message} :
      Stepped pump (.send thread msg) { pump with posted := pump.posted ++ [msg] } []
  | sent {thread : Nat} {msg : Message} :
      Stepped pump (.send thread msg) (pump.pushBack thread msg) [.pushed msg]
  | onPost {thread index : Nat} {msg : Message} :
      Stepped pump (.onPost thread index)
        ({ pump with posted := pump.posted.eraseIdx index }.pushBack thread msg) [.pushed msg]
  | doWrite {thread : Nat} : thread ∈ pump.starting →
      Stepped pump (.doWrite thread)
        { pump with
          starting := pump.starting.erase thread
          writes := pump.writes ++ [[]] } []
  | transfer {index amount : Nat} {sent : List UInt8} : pump.writes[index]? = some sent →
      Stepped pump (.transfer index amount)
        { pump with
          writes := pump.writes.set index (sent ++ (pump.wbuff.drop sent.length).take amount) }
        [.bytes ((pump.wbuff.drop sent.length).take amount)]
  | onWrite {thread index : Nat} {sent : List UInt8} : pump.writes[index]? = some sent →
      sent.length = maxBuffSize →
      Stepped pump (.onWrite thread index)
        ({ pump with writes := pump.writes.eraseIdx index }.popFront thread) [.written sent]

theorem Pump.step_cases {endpoint : Endpoint} {action : PumpAction} {next : Pump}
    {outputs : List PumpOutput} (stepped : pump.step endpoint action = some (next, outputs)) :
    pump.Stepped action next outputs := by
  cases action with
  | send thread msg =>
      simp only [step] at stepped
      split at stepped
      case isTrue => cases stepped
      case isFalse =>
        cases endpoint with
        | session =>
            cases stepped
            exact .sent
        | client =>
            cases stepped
            exact .posted
  | onPost thread index =>
      simp only [step] at stepped
      split at stepped
      case isTrue => cases stepped
      case isFalse =>
        split at stepped
        case h_1 => cases stepped
        case h_2 =>
          cases stepped
          exact .onPost
  | doWrite thread =>
      simp only [step] at stepped
      split at stepped
      case isTrue decided =>
        cases stepped
        exact .doWrite decided
      case isFalse => cases stepped
  | transfer index amount =>
      simp only [step] at stepped
      split at stepped
      case h_1 => cases stepped
      case h_2 found =>
        cases stepped
        exact .transfer found
  | onWrite thread index =>
      simp only [step] at stepped
      split at stepped
      case isTrue => cases stepped
      case isFalse =>
        split at stepped
        case h_1 => cases stepped
        case h_2 found =>
          split at stepped
          case isTrue whole =>
            cases stepped
            exact .onWrite found whole
          case isFalse => cases stepped

end

/-! ## Every run -/

@[simp] theorem pushedOf_append (outputs more : List PumpOutput) :
    pushedOf (outputs ++ more) = pushedOf outputs ++ pushedOf more :=
  List.filterMap_append

@[simp] theorem writtenOf_append (outputs more : List PumpOutput) :
    writtenOf (outputs ++ more) = writtenOf outputs ++ writtenOf more :=
  List.filterMap_append

@[simp] theorem wireOf_append (outputs more : List PumpOutput) :
    wireOf (outputs ++ more) = wireOf outputs ++ wireOf more :=
  List.flatMap_append

/-- `done` are the messages whose write has completed. -/
structure Pump.Accounts (pump : Pump) (outputs : List PumpOutput) (done : List Message) : Prop where
  pushed : pushedOf outputs = done ++ pump.pending
  written : writtenOf outputs = done.map frameOf
  wire : wireOf outputs = done.flatMap frameOf ++ pump.writes.flatten

/-- The invariant of a pump and of what it has put out. -/
structure Pump.Kept (pump : Pump) (outputs : List PumpOutput) : Prop where
  size : pump.wbuff.length = maxBuffSize
  phase : pump.Phase
  order : ∃ done, pump.Accounts outputs done

namespace Pump.Kept

variable {pump : Pump} {outputs : List PumpOutput}

theorem pushBack (kept : pump.Kept outputs) (thread : Nat) (msg : Message) :
    (pump.pushBack thread msg).Kept (outputs ++ [.pushed msg]) := by
  obtain ⟨size, phase, done, accounts⟩ := kept
  obtain ⟨pending, writes, buffer⟩ := pump.pushBack_fields thread msg
  have later : (pump.pushBack thread msg).Accounts (outputs ++ [.pushed msg]) done := by
    constructor
    case pushed =>
      rw [pushedOf_append, accounts.pushed, pending, List.append_assoc]
      rfl
    case written =>
      rw [writtenOf_append, accounts.written]
      exact List.append_nil _
    case wire =>
      rw [wireOf_append, accounts.wire, writes]
      exact List.append_nil _
  cases phase with
  | idle empty noThread noWrite =>
      refine ⟨?_, ?_, done, later⟩
      · rw [pushBack_idle empty]
        exact length_strncpy size _
      · rw [pushBack_idle empty, noThread]
        exact .started rfl rfl noWrite (strncpy_eq_frameOf size msg)
  | started waiting thread noWrite filled =>
      have busy : pump.pending ≠ [] := by simp [waiting]
      refine ⟨(buffer busy).symm ▸ size, ?_, done, later⟩
      rw [pushBack_busy busy, waiting]
      exact .started rfl thread noWrite filled
  | writing waiting noThread write filled begun =>
      have busy : pump.pending ≠ [] := by simp [waiting]
      refine ⟨(buffer busy).symm ▸ size, ?_, done, later⟩
      rw [pushBack_busy busy, waiting]
      exact .writing rfl noThread write filled begun

theorem setPosted (kept : pump.Kept outputs) (posted : List Message) :
    ({ pump with posted := posted } : Pump).Kept outputs := by
  obtain ⟨size, phase, done, pushed, written, wire⟩ := kept
  refine ⟨size, ?_, done, pushed, written, wire⟩
  cases phase with
  | idle empty noThread noWrite => exact .idle empty noThread noWrite
  | started waiting thread noWrite filled => exact .started waiting thread noWrite filled
  | writing waiting noThread write filled begun => exact .writing waiting noThread write filled begun

/-- The thread that decided issues the only write. -/
theorem doWrite (kept : pump.Kept outputs) {thread : Nat} (decided : thread ∈ pump.starting) :
    ({ pump with
      starting := pump.starting.erase thread
      writes := pump.writes ++ [[]] } : Pump).Kept outputs := by
  obtain ⟨size, phase, done, accounts⟩ := kept
  cases phase with
  | idle empty noThread noWrite =>
      rw [noThread] at decided
      cases decided
  | @started msg rest other waiting isOther noWrite filled =>
      rw [isOther, List.mem_singleton] at decided
      subst decided
      have wire := accounts.wire
      refine ⟨size, ?_, done, accounts.pushed, accounts.written, ?_⟩
      · rw [isOther, noWrite, List.erase_cons_head]
        exact .writing waiting rfl rfl filled List.nil_prefix
      · rw [wire, noWrite]
        rfl
  | writing waiting noThread write filled begun =>
      rw [noThread] at decided
      cases decided

/-- An unfinished write is the only one, and is of the front message. -/
theorem only_write (kept : pump.Kept outputs) {index : Nat} {sent : List UInt8}
    (found : pump.writes[index]? = some sent) :
    ∃ msg rest, index = 0 ∧ pump.writes = [sent] ∧ pump.starting = [] ∧
      pump.pending = msg :: rest ∧ pump.wbuff = frameOf msg ∧ sent <+: frameOf msg := by
  cases kept.phase with
  | idle empty noThread noWrite =>
      rw [noWrite] at found
      cases found
  | started waiting thread noWrite filled =>
      rw [noWrite] at found
      cases found
  | @writing msg rest other waiting noThread write filled begun =>
      rw [write] at found
      cases index with
      | zero =>
          cases found
          exact ⟨msg, rest, rfl, write, noThread, waiting, filled, begun⟩
      | succ index => cases found

/-- A transfer sends the next bytes of the front message's frame. -/
theorem transfer (kept : pump.Kept outputs) {index amount : Nat} {sent : List UInt8}
    (found : pump.writes[index]? = some sent) :
    ({ pump with
      writes := pump.writes.set index (sent ++ (pump.wbuff.drop sent.length).take amount) } :
        Pump).Kept (outputs ++ [PumpOutput.bytes ((pump.wbuff.drop sent.length).take amount)]) := by
  obtain ⟨msg, rest, rfl, write, noThread, waiting, filled, begun⟩ := kept.only_write found
  obtain ⟨size, -, done, accounts⟩ := kept
  have longer : sent ++ (pump.wbuff.drop sent.length).take amount =
      (frameOf msg).take (sent.length + amount) := by
    rw [filled, List.take_add, ← List.prefix_iff_eq_take.mp begun]
  refine ⟨size, ?_, done, ?_⟩
  · rw [write, List.set_cons_zero, longer]
    exact .writing waiting noThread rfl filled (List.take_prefix _ _)
  · constructor
    case pushed =>
      rw [pushedOf_append, accounts.pushed]
      exact List.append_nil _
    case written =>
      rw [writtenOf_append, accounts.written]
      exact List.append_nil _
    case wire =>
      rw [wireOf_append, accounts.wire, write, List.set_cons_zero]
      simp [wireOf]

/-- The handler pops the message whose frame has been sent. -/
theorem onWrite (kept : pump.Kept outputs) {thread index : Nat} {sent : List UInt8}
    (found : pump.writes[index]? = some sent) (whole : sent.length = maxBuffSize) :
    ({ pump with writes := pump.writes.eraseIdx index }.popFront thread).Kept
      (outputs ++ [PumpOutput.written sent]) := by
  obtain ⟨msg, rest, rfl, write, noThread, waiting, filled, begun⟩ := kept.only_write found
  obtain ⟨size, -, done, accounts⟩ := kept
  have frame : sent = frameOf msg := by
    apply begun.eq_of_length
    rw [whole, length_frameOf]
  have pushed := accounts.pushed
  have wire := accounts.wire
  rw [waiting] at pushed
  rw [write, frame] at wire
  -- whatever is popped next, the message at the front is done
  have later : ∀ next : Pump, next.pending = rest → next.writes = [] →
      next.Accounts (outputs ++ [PumpOutput.written sent]) (done ++ [msg]) := by
    intro next popped noWrite
    constructor
    case pushed =>
      rw [pushedOf_append, pushed, popped]
      simp [pushedOf]
    case written =>
      rw [writtenOf_append, accounts.written, frame]
      simp [writtenOf]
    case wire =>
      rw [wireOf_append, wire, noWrite]
      simp [wireOf]
  rw [write, List.eraseIdx_cons_zero]
  cases rest with
  | nil =>
      rw [@popFront_last { pump with writes := [] } msg waiting]
      exact ⟨size, .idle rfl noThread rfl, done ++ [msg], later _ rfl rfl⟩
  | cons following rest =>
      rw [@popFront_next { pump with writes := [] } msg following rest waiting]
      refine ⟨length_strncpy size _, ?_, done ++ [msg], later _ rfl rfl⟩
      rw [noThread]
      exact .started rfl rfl rfl (strncpy_eq_frameOf size following)

theorem step (kept : pump.Kept outputs) {endpoint : Endpoint} {action : PumpAction} {next : Pump}
    {more : List PumpOutput} (stepped : pump.step endpoint action = some (next, more)) :
    next.Kept (outputs ++ more) := by
  cases step_cases stepped with
  | posted =>
      rw [List.append_nil]
      exact kept.setPosted _
  | sent => exact kept.pushBack _ _
  | onPost => exact (kept.setPosted _).pushBack _ _
  | doWrite decided =>
      rw [List.append_nil]
      exact kept.doWrite decided
  | transfer found => exact kept.transfer found
  | onWrite found whole => exact kept.onWrite found whole

theorem create : Pump.create.Kept [] :=
  ⟨List.length_replicate, .idle rfl rfl rfl, [], rfl, rfl, rfl⟩

theorem alive_cases (kept : pump.Kept outputs) :
    pump.pending = [] ∧ pump.alive = 0 ∨ pump.pending ≠ [] ∧ pump.alive = 1 := by
  cases kept.phase with
  | idle empty noThread noWrite => exact .inl ⟨empty, by simp [alive, noThread, noWrite]⟩
  | started waiting thread noWrite filled =>
      exact .inr ⟨by simp [waiting], by simp [alive, thread, noWrite]⟩
  | writing waiting noThread write filled begun =>
      exact .inr ⟨by simp [waiting], by simp [alive, noThread, write]⟩

theorem orderly (kept : pump.Kept outputs) (endpoint : Endpoint) :
    pump.Orderly endpoint outputs := by
  have alive := kept.alive_cases
  constructor
  case single => omega
  case busy =>
    cases alive with
    | inl idle => exact iff_of_false (by omega) (not_not.mpr idle.1)
    | inr busy => exact iff_of_true busy.2 busy.1
  case stable =>
    intro action next more stepped writing notHandler
    have waiting : pump.pending ≠ [] := by
      cases alive with
      | inl idle => omega
      | inr busy => exact busy.1
    cases step_cases stepped with
    | posted => rfl
    | sent => exact (pump.pushBack_fields _ _).2.2 waiting
    | @onPost thread index msg =>
        exact (Pump.pushBack_fields { pump with posted := pump.posted.eraseIdx index } _ _).2.2
          waiting
    | doWrite decided => rfl
    | transfer found => rfl
    | onWrite found whole => exact absurd rfl (notHandler _ _)
  case order =>
    obtain ⟨done, accounts⟩ := kept.order
    exact ⟨done, accounts.pushed, accounts.written, accounts.wire⟩
  case front =>
    intro sent member
    obtain ⟨index, found⟩ := List.mem_iff_getElem?.mp member
    obtain ⟨msg, rest, -, -, -, waiting, -, begun⟩ := kept.only_write found
    exact ⟨msg, rest, waiting, begun⟩

end Pump.Kept

/-- The write pump, for any threads and any interleaving of their sections with
the writes. -/
theorem write_pump (endpoint : Endpoint) {actions : List PumpAction} {outputs : List PumpOutput}
    {pump : Pump}
    (run : Run (Pump.step endpoint) (fun _ _ => True) Pump.create actions outputs pump) :
    pump.Orderly endpoint outputs := by
  have kept : pump.Kept outputs :=
    run.invariant Pump.Kept.create fun before _ stepped => before.step stepped
  exact kept.orderly endpoint

/-- Two lines are typed; the handlers of the client run in the other order, and
the second one finds a write in progress. -/
theorem write_pump_two_lines :
    ∃ outputs pump, Run (Pump.step .client) (fun _ _ => True) Pump.create
        [.send 1 ⟨⟨0, 1⟩, 10, 0, [65]⟩, .send 1 ⟨⟨0, 1⟩, 10, 1, [66]⟩, .onPost 2 1, .onPost 3 0,
          .doWrite 2, .transfer 0 1000, .transfer 0 1000, .onWrite 3 0, .doWrite 3]
        outputs pump ∧ pump.Orderly .client outputs := by
  have executes : (Run.exec (Pump.step .client) Pump.create
      [.send 1 ⟨⟨0, 1⟩, 10, 0, [65]⟩, .send 1 ⟨⟨0, 1⟩, 10, 1, [66]⟩, .onPost 2 1, .onPost 3 0,
        .doWrite 2, .transfer 0 1000, .transfer 0 1000, .onWrite 3 0, .doWrite 3]).isSome = true := by
    decide +kernel
  obtain ⟨⟨pump, outputs⟩, executed⟩ := Option.isSome_iff_exists.mp executes
  have run := Run.of_exec executed
  exact ⟨outputs, pump, run, write_pump .client run⟩

end OsPractices.Chat
