import OsPractices.Coroutine.Code
import OsPractices.Library.Fallible

/-!
# The entry points

The calls of `coroutine.h`, each up to where other threads may come in between.
A pointer that is `NULL` or an index that is out of bounds is a fault where it
is used.
-/

set_option autoImplicit false

namespace OsPractices.Coroutine

/-- `_co_scheduler` or the record of the thread is missing, `_cinfo` is indexed
beyond its length, a parent points to no coroutine, or a loop took more turns
than it was given. -/
inductive Fault where
  | noScheduler
  | noRecord
  | outOfBounds (index : Int)
  | badParent
  | unending
  deriving DecidableEq, Repr

def unauthorized : Int := -1

def Status.code : Status → Int
  | .running => 1
  | .finished => 2

def idOf : Option Nat → Int
  | some cid => cid
  | none => -1

def arrayGet (cinfo : List Coro) (index : Int) : Except Fault Coro :=
  if index < 0 then .error (.outOfBounds index)
  else
    match cinfo[index.toNat]? with
    | some coro => .ok coro
    | none => .error (.outOfBounds index)

namespace World

/-- `_co_getmeta`; `none` is `NULL`. -/
def getmeta (world : World) (tid : Nat) : Option ThreadInfo := (world.threads tid).info

def getid (world : World) (tid : Nat) : Except Fault Int :=
  match world.getmeta tid with
  | none => .error .noRecord
  | some info => .ok (idOf info.running)

/-- The loop of `co_status`: whether `running` is met on the way from a routine
to its ancestors. -/
def walk (cinfo : List Coro) (running : Nat) : Nat → Option Nat → Except Fault Bool
  | 0, _ => .error .unending
  | _ + 1, none => .ok false
  | fuel + 1, some cid =>
      if cid = running then .ok true
      else
        match cinfo[cid]? with
        | some coro => walk cinfo running fuel coro.parent
        | none => .error .badParent

def status (world : World) (fuel tid : Nat) (cid : Int) : Except Fault Int :=
  let info := world.getmeta tid
  if cid < 0 ∨ (world.cinfo.length : Int) < cid then .ok unauthorized
  else do
    let qcoro ← arrayGet world.cinfo cid
    match info with
    | none => .ok unauthorized
    | some info =>
        if qcoro.tid = tid then
          match info.running with
          | none => .ok qcoro.status.code
          | some running => do
              let met ← walk world.cinfo running fuel (some cid.toNat)
              .ok (if met then qcoro.status.code else unauthorized)
        else .ok unauthorized

/-- The loop of `co_yield` over `_cinfo`, with the turns that are left. -/
def search (world : World) (tid : Nat) : Nat → Nat → Except Fault (Option Nat)
  | 0, _ => .ok none
  | left + 1, index => do
      let tmp ← arrayGet world.cinfo index
      if tmp.tid = tid ∧ tmp.status = .running then .ok (some index)
      else world.search tid left (index + 1)

/-- `co_yield`, where `swapcontext` does what `coYield` says. -/
def yield (world : World) (tid : Nat) (poll : Option Poll) :
    Except Fault (Option (World × List Event)) :=
  match world.getmeta tid with
  | none => .ok (some (world.setDoing tid (Point.afterYield poll).doing, []))
  | some info => do
      let bound := lowerBound info.running
      let next ← world.search tid (world.cinfo.length - bound) bound
      let world := world.setInfo tid { info with running := next }
      .ok (if info.running = next then
          some (world.setDoing tid (Point.afterYield poll).doing, [])
        else world.swap tid info.running (.afterYield poll) next)

def scanTurn (world : World) (tid index : Nat) : Except Fault (World × List Event) :=
  if index < world.cinfo.length then do
    let tmp ← arrayGet world.cinfo index
    .ok (if tmp.status = .finished then (world.setDoing tid (.scanning (index + 1)), [])
      else ({ world with readers := world.readers.erase tid }.setDoing tid (.yielding .waitall),
        []))
  else
    .ok ({ world with readers := world.readers.erase tid }.setDoing tid .user,
      [.result tid .waitall 0])

end World

/-- `coroutine.c` with its static pointer: whether `_co_scheduler` is set, and
what it points to. -/
structure Process where
  scheduler : Bool
  world : World

inductive Request where
  | getid
  | yield
  | status (cid : Int)
  | getret (cid : Int)
  | wait (cid : Int)
  | waitall
  deriving DecidableEq, Repr

/-- A routine calls, or goes on with what it is at; it may also start a
coroutine, or return. -/
inductive ProcessAction where
  | call (request : Request)
  | goOn (call : Call)
  deriving DecidableEq, Repr

inductive ProcessOutput where
  | event (event : Event)
  | value (tid : Nat) (request : Request) (value : Int)
  deriving DecidableEq, Repr

namespace Process

def create : Process := ⟨false, World.create⟩

def init (process : Process) : Process := { process with scheduler := true }

def deref (process : Process) : Except Fault World :=
  if process.scheduler then .ok process.world else .error .noScheduler

def entered (process : Process) :
    World × List Event → Process × List ProcessOutput
  | (world, events) => ({ process with world := world }, events.map .event)

/-- The first piece of `co_getret` and of `co_wait`. -/
def waitFor (process : Process) (tid : Nat) (cid : Int) (poll : Nat → Poll) :
    Except Fault (Option (Process × List ProcessOutput)) := do
  let process := process.init
  let world ← process.deref
  let _ ← arrayGet world.cinfo cid
  .ok (some (process.entered (world.setDoing tid (.checking (poll cid.toNat)), [])))

/-- The first piece of a call. The loop of `co_status` has a turn for each
coroutine and one more. -/
def request (process : Process) (tid : Nat) :
    Request → Except Fault (Option (Process × List ProcessOutput))
  | .getid => do
      let world ← process.deref
      let id ← world.getid tid
      .ok (some (process, [.value tid .getid id]))
  | .yield => do
      let process := process.init
      let world ← process.deref
      let next ← world.yield tid none
      .ok (next.map process.entered)
  | .status cid => do
      let process := process.init
      let world ← process.deref
      let status ← world.status (world.cinfo.length + 1) tid cid
      .ok (some (process, [.value tid (.status cid) status]))
  | .getret cid => process.waitFor tid cid .getret
  | .wait cid => process.waitFor tid cid .wait
  | .waitall => do
      let process := process.init
      let world ← process.deref
      .ok (some (process.entered (world.setDoing tid (.checking .waitall), [])))

def goOn (process : Process) (tid : Nat) :
    Call → Except Fault (Option (Process × List ProcessOutput))
  | .start =>
      let process := process.init
      .ok ((process.world.step (tid, .start)).map process.entered)
  | .yieldInPoll =>
      match (process.world.threads tid).doing with
      | .yielding poll => do
          let process := process.init
          let world ← process.deref
          let next ← world.yield tid (some poll)
          .ok (next.map process.entered)
      | _ => .ok none
  | .scan =>
      match (process.world.threads tid).doing with
      | .scanning index => do
          let world ← process.deref
          let next ← world.scanTurn tid index
          .ok (some (process.entered next))
      | _ => .ok none
  | .launch => .ok ((process.world.step (tid, .launch)).map process.entered)
  | .check =>
      match (process.world.threads tid).doing with
      | .checking .waitall => do
          let world ← process.deref
          .ok ((world.step (tid, .check)).map process.entered)
      | _ => .ok ((process.world.step (tid, .check)).map process.entered)
  | .finish ret =>
      match (process.world.threads tid).executing with
      | some _ => do
          let world ← process.deref
          .ok ((world.step (tid, .finish ret)).map process.entered)
      | none => .ok none
  | .coYield | .poll _ => .ok none

def act (process : Process) : Nat × ProcessAction →
    Except Fault (Option (Process × List ProcessOutput))
  | (tid, .call request) =>
      if (process.world.threads tid).doing = .user then process.request tid request else .ok none
  | (tid, .goOn call) => process.goOn tid call

def step (process : Process) (action : Nat × ProcessAction) :
    Option (Process × List ProcessOutput) :=
  (process.act action).toOption.join

end Process

end OsPractices.Coroutine
