import Mathlib.Logic.Function.Basic
import OsPractices.Library.Runs

/-!
# Coroutines

`coroutine.c`, for any number of threads. A coroutine is known by its index in
`_cinfo`, which is its `cid`, and a thread's main routine by `none`. Each step is
one lock-protected section, with the code of its own thread that follows it.
What a routine does between its calls is not modelled: it may call anything.
-/

set_option autoImplicit false

namespace OsPractices.Coroutine

inductive Status where
  | running
  | finished
  deriving DecidableEq, Repr

/-- The calls that go on with `co_yield` until they may return. -/
inductive Poll where
  | getret (cid : Nat)
  | wait (cid : Nat)
  | waitall
  deriving DecidableEq, Repr

/-- Where a saved context continues: at the entry of the routine, behind the
`swapcontext` of `co_start`, or behind that of `co_yield`, called by the routine
or in the loop of a poll. -/
inductive Point where
  | entry
  | afterStart
  | afterYield (poll : Option Poll)
  deriving DecidableEq, Repr

/-- A `ucontext_t`, with the routine whose code continues. -/
structure Context where
  owner : Option Nat
  point : Point
  deriving DecidableEq, Repr

/-- `co_struct_t`. `link` is the routine whose context `uc_link` points to. -/
structure Coro where
  tid : Nat
  parent : Option Nat
  link : Option Nat
  uc : Context
  status : Status
  ret : Int
  deriving DecidableEq, Repr

/-- `co_meta_t`, the entry of `_tinfo` for a thread. -/
structure ThreadInfo where
  running : Option Nat
  mainUc : Context
  deriving DecidableEq, Repr

/-- What the code that a thread executes is at: code of the user; `co_start`
behind its locked section; a poll before it reads a status, inside the loop of
`co_waitall` over `_cinfo`, or before its `co_yield`. -/
inductive Doing where
  | user
  | starting (cid : Nat)
  | checking (poll : Poll)
  | scanning (index : Nat)
  | yielding (poll : Poll)
  deriving DecidableEq, Repr

structure Thread where
  info : Option ThreadInfo
  executing : Option Nat
  doing : Doing
  deriving DecidableEq, Repr

/-- The shared memory and the threads. `readers` are the threads that hold the
lock of `_cinfo` for reading from one step to the next. -/
structure World where
  cinfo : List Coro
  readers : List Nat
  threads : Nat → Thread

inductive Call where
  | start
  | launch
  | coYield
  | poll (poll : Poll)
  | check
  | scan
  | yieldInPoll
  | finish (ret : Int)
  deriving DecidableEq, Repr

/-- A `co_start` got its id, a routine's body began, a saved context was
resumed, a routine returned, a poll returned. -/
inductive Event where
  | assigned (tid cid : Nat)
  | entered (cid : Nat)
  | resumed (tid : Nat) (owner : Option Nat)
  | returned (cid : Nat) (ret : Int)
  | result (tid : Nat) (poll : Poll) (value : Int)
  deriving DecidableEq, Repr

/-- What the resumed code does first. -/
def Point.doing : Point → Doing
  | .entry => .user
  | .afterStart => .user
  | .afterYield none => .user
  | .afterYield (some poll) => .checking poll

def Context.event (tid : Nat) : Context → Event
  | ⟨some cid, .entry⟩ => .entered cid
  | ⟨owner, _⟩ => .resumed tid owner

namespace World

/-- Before the first `co_start`. -/
def create : World := ⟨[], [], fun _ => ⟨none, none, .user⟩⟩

def setThread (world : World) (tid : Nat) (thread : Thread) : World :=
  { world with threads := Function.update world.threads tid thread }

def setDoing (world : World) (tid : Nat) (doing : Doing) : World :=
  world.setThread tid { world.threads tid with doing := doing }

def setInfo (world : World) (tid : Nat) (info : ThreadInfo) : World :=
  world.setThread tid { world.threads tid with info := some info }

/-- The context in the record of a routine. -/
def context (world : World) (tid : Nat) : Option Nat → Option Context
  | none => (world.threads tid).info.map ThreadInfo.mainUc
  | some cid => world.cinfo[cid]?.map Coro.uc

def saveContext (world : World) (tid : Nat) (context : Context) : Option Nat → World
  | none =>
      match (world.threads tid).info with
      | none => world
      | some info => world.setInfo tid { info with mainUc := context }
  | some cid =>
      { world with cinfo := world.cinfo.modify cid fun coro => { coro with uc := context } }

/-- `setcontext`. -/
def resume (world : World) (tid : Nat) (context : Context) : World × List Event :=
  (world.setThread tid
    { world.threads tid with executing := context.owner, doing := context.point.doing },
    [context.event tid])

/-- `swapcontext`, by the records that the contexts are in. -/
def swap (world : World) (tid : Nat) (suspend : Option Nat) (point : Point)
    (next : Option Nat) : Option (World × List Event) :=
  let saved := world.saveContext tid ⟨(world.threads tid).executing, point⟩ suspend
  (saved.context tid next).map (saved.resume tid)

/-- The section of `co_start` under the write locks. -/
def start (world : World) (tid : Nat) : World × List Event :=
  let cid := world.cinfo.length
  let thread := world.threads tid
  let info : ThreadInfo := thread.info.getD ⟨none, ⟨none, .entry⟩⟩
  let coro : Coro := ⟨tid, none, none, ⟨some cid, .entry⟩, .running, -1⟩
  ({ world with cinfo := world.cinfo ++ [coro] }.setThread tid
      { thread with info := some info, doing := .starting cid },
    [.assigned tid cid])

/-- The rest of `co_start`, up to the entry of the routine. -/
def launch (world : World) (tid cid : Nat) (info : ThreadInfo) : Option (World × List Event) :=
  let cinfo := world.cinfo.modify cid fun coro =>
    { coro with parent := info.running, link := info.running, uc := ⟨some cid, .entry⟩ }
  ({ world with cinfo := cinfo }.setInfo tid { info with running := some cid }).swap tid
    info.running .afterStart (some cid)

/-- The search of `co_yield`, from a lower bound on. -/
def nextRunning (world : World) (tid lowerBound : Nat) : Option Nat :=
  (List.range' lowerBound (world.cinfo.length - lowerBound)).find? fun cid =>
    world.cinfo[cid]?.any fun coro => coro.tid = tid ∧ coro.status = .running

def lowerBound : Option Nat → Nat
  | none => 0
  | some cid => cid + 1

def coYield (world : World) (tid : Nat) (poll : Option Poll) : Option (World × List Event) :=
  match (world.threads tid).info with
  | none => some (world.setDoing tid (Point.afterYield poll).doing, [])
  | some info =>
      let next := world.nextRunning tid (lowerBound info.running)
      let world := world.setInfo tid { info with running := next }
      if info.running = next then
        some (world.setDoing tid (Point.afterYield poll).doing, [])
      else world.swap tid info.running (.afterYield poll) next

/-- `_co_func_wrapper` behind the routine, and its return to `uc_link`. -/
def finish (world : World) (tid cid : Nat) (ret : Int) : Option (World × List Event) :=
  match world.cinfo[cid]?, (world.threads tid).info with
  | some coro, some info =>
      let cinfo := world.cinfo.modify cid fun coro =>
        { coro with status := .finished, ret := ret }
      let world := { world with cinfo := cinfo }.setInfo tid { info with running := coro.parent }
      (world.context tid coro.link).map fun context =>
        let (world, events) := world.resume tid context
        (world, .returned cid ret :: events)
  | _, _ => none

/-- The section of a poll that reads a status; `co_waitall` takes the lock of
`_cinfo`. Out of bounds the behaviour is undefined. -/
def check (world : World) (tid : Nat) : Poll → Option (World × List Event)
  | .getret cid =>
      world.cinfo[cid]?.map fun coro =>
        if coro.status = .finished then
          (world.setDoing tid .user, [.result tid (.getret cid) coro.ret])
        else (world.setDoing tid (.yielding (.getret cid)), [])
  | .wait cid =>
      world.cinfo[cid]?.map fun coro =>
        if coro.status = .finished then
          (world.setDoing tid .user, [.result tid (.wait cid) 0])
        else (world.setDoing tid (.yielding (.wait cid)), [])
  | .waitall =>
      some ({ world with readers := tid :: world.readers }.setDoing tid (.scanning 0), [])

/-- One turn of the loop of `co_waitall` over `_cinfo`, or its end. -/
def scan (world : World) (tid index : Nat) : World × List Event :=
  match world.cinfo[index]? with
  | some coro =>
      if coro.status = .finished then (world.setDoing tid (.scanning (index + 1)), [])
      else
        ({ world with readers := world.readers.erase tid }.setDoing tid (.yielding .waitall), [])
  | none =>
      ({ world with readers := world.readers.erase tid }.setDoing tid .user,
        [.result tid .waitall 0])

/-- The next piece of a thread; `none` where the thread is at something else. -/
def step (world : World) : Nat × Call → Option (World × List Event)
  | (tid, call) =>
      let thread := world.threads tid
      match call, thread.doing with
      | .start, .user => if world.readers = [] then some (world.start tid) else none
      | .launch, .starting cid => thread.info.bind (world.launch tid cid)
      | .coYield, .user => world.coYield tid none
      | .poll poll, .user => some (world.setDoing tid (.checking poll), [])
      | .check, .checking poll => world.check tid poll
      | .scan, .scanning index => some (world.scan tid index)
      | .yieldInPoll, .yielding poll => world.coYield tid (some poll)
      | .finish ret, .user => thread.executing.bind fun cid => world.finish tid cid ret
      | _, _ => none

end World

end OsPractices.Coroutine
