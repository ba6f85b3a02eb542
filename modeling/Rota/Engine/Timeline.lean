import Rota.Engine.Execution
import Rota.Engine.Scheduler
/-! The passing of time.
Time passes only when nothing can be done at the present instant, and then up to the next moment
at which something is due. Whoever waits for something that does not come gives up at a limit. -/
namespace Rota

def Handover.backlog (h : Handover) : Nat := 2 * h.work.length + 1

def Execution.backlog (x : Execution) : Nat := 2 * x.waiting.length + 2

namespace Engine

def work? (e : Engine) : Option Engine :=
  match e.saveResult? with
  | some e => some e
  | none =>
    match e.takeWork? with
    | some e => some e
    | none => e.finishNext?

/-- More pieces of background work than are left if nothing is added. -/
def backlog (e : Engine) : Nat :=
  let sent := e.pool.channel ++ e.pool.waiting.map (·.2)
  sent.foldr (fun h n => h.backlog + n) 0 +
    e.pool.executing.foldr (fun x n => x.backlog + n) 0 + e.pool.unsaved.length

def nextDue? (e : Engine) : Option Nat := (e.pool.executing.map Execution.dueAt).min?

def advanceTo (e : Engine) (time : Nat) : Engine := e.advance (time - e.time)

/-- Lets background work and time go on until `done` holds or the limit is reached. -/
def passUntil (done : Engine → Bool) (limit : Nat) : Nat → Engine → Engine
  | 0, e => e
  | fuel + 1, e =>
    if done e then e
    else
      match e.work? with
      | some e => passUntil done limit fuel e
      | none =>
        if limit ≤ e.time then e
        else passUntil done limit fuel (e.advanceTo (min (e.nextDue?.getD limit) limit))

def await (e : Engine) (done : Engine → Bool) (limit : Nat) : Engine :=
  passUntil done limit (2 * e.backlog + 2) e

def elapse (e : Engine) (millis : Nat) : Engine :=
  e.await (fun _ => false) (e.time + millis)

/-! ### Waiting for room -/

/-- Goes on with a tick until it is done. It is still paused when it has been given up at the
limit; the work that waited is lost then. -/
def completeTick (limit : Nat) : Nat → Engine → TickState → Engine × TickState
  | fuel + 1, e, .paused ticket count due =>
    let e := e.await (fun e => !e.pool.isWaiting ticket) limit
    if e.pool.isWaiting ticket then
      ({ e with pool := e.pool.abandon ticket }, .paused ticket count due)
    else
      let (e, t) := e.resumeTick (.paused ticket count due)
      completeTick limit fuel e t
  | _, e, t => (e, t)

def runTick (e : Engine) (tick : Engine → Engine × TickState) (limit : Nat) :
    Engine × TickState :=
  match tick e with
  | (e, .paused ticket count due) =>
    completeTick limit (due.length + 1) e (.paused ticket count due)
  | (e, t) => (e, t)

def dispatch (e : Engine) (h : Handover) (limit : Nat) : Engine × Sent :=
  match e.pool.send h with
  | (pool, .waiting ticket) =>
    let e := { e with pool := pool }.await (fun e => !e.pool.isWaiting ticket) limit
    if e.pool.isWaiting ticket then ({ e with pool := e.pool.abandon ticket }, .waiting ticket)
    else (e, .accepted)
  | (pool, sent) => ({ e with pool := pool }, sent)

/-! ### Waiting for workers -/

/-- Stops the pool and waits until every work that it has accepted is executed. -/
def stop (e : Engine) (limit : Nat) : Engine :=
  let mustWait := e.pool.isUnjoined
  let e := { e with pool := { e.pool with isAccepting := false, isUnjoined := false } }
  if mustWait then e.await (fun e => e.pool.isDrained) limit else e

/-- Executes a work for a caller, whose token fires after some milliseconds. An execution that has
not returned at the limit is given up. -/
def execute (e : Engine) (w : Work) (cancelAfter : Option Nat) (limit : Nat) : Engine :=
  let hasReturned (e : Engine) : Bool := e.returned.isSome
  let e := match cancelAfter with
    | none => e.beginForCaller false w
    | some 0 => e.beginForCaller true w
    | some (n + 1) =>
      let e := (e.beginForCaller false w).await hasReturned (e.time + (n + 1))
      if hasReturned e then e else e.cancelCaller
  let e := e.await hasReturned limit
  { e with pool := { e.pool with
    executing := e.pool.executing.filter fun x => x.executor = .worker } }

/-! ### Polling loops -/

structure Polling where
  tick : Engine → Engine × TickState
  every : Nat
  nextAt : Nat
  /-- The last tick; the loop is busy while it is paused. -/
  last : TickState

namespace Polling

def start (tick : Engine → Engine × TickState) (every : Nat) (time : Nat) : Polling :=
  ⟨tick, every, time, .done 0⟩

def isBusy (p : Polling) : Bool :=
  match p.last with
  | .paused _ _ _ => true
  | _ => false

def hasOverflowed (p : Polling) : Bool :=
  match p.last with
  | .overflow => true
  | _ => false

def move? (p : Polling) (stopAt : Nat) (e : Engine) : Option (Engine × Polling) :=
  match p.last with
  | .paused ticket _ _ =>
    if e.pool.isWaiting ticket then none
    else
      let (e, t) := e.resumeTick p.last
      some (e, { p with last := t })
  | _ =>
    if p.nextAt ≤ e.time && e.time < stopAt then
      let (e, t) := p.tick e
      some (e, { p with last := t, nextAt := p.nextAt + p.every })
    else none

end Polling

def moveFirst? (stopAt : Nat) (e : Engine) : List Polling → Option (Engine × List Polling)
  | [] => none
  | p :: rest =>
    match p.move? stopAt e with
    | some (e, p) => some (e, p :: rest)
    | none => (moveFirst? stopAt e rest).map fun (e, rest) => (e, p :: rest)

def nextPoll (stopAt limit : Nat) (e : Engine) (loops : List Polling) : Nat :=
  let ticks := (loops.filter fun p => !p.isBusy).map (·.nextAt)
  ((limit :: stopAt :: e.nextDue?.toList ++ ticks).filter (e.time < ·)).min?.getD limit

def poll (stopAt limit : Nat) : Nat → List Polling → Engine → Engine × List Polling
  | 0, loops, e => (e, loops)
  | fuel + 1, loops, e =>
    if loops.any Polling.hasOverflowed then (e, loops)
    else
      match moveFirst? stopAt e loops with
      | some (e, loops) => poll stopAt limit fuel loops e
      | none =>
        if stopAt ≤ e.time && !loops.any Polling.isBusy then (e, loops)
        else
          match e.work? with
          | some e => poll stopAt limit fuel loops e
          | none =>
            if limit ≤ e.time then (e, loops)
            else poll stopAt limit fuel loops (e.advanceTo (nextPoll stopAt limit e loops))

def ticksWithin (millis : Nat) (loops : List Polling) : Nat :=
  loops.foldr (fun p n => millis / p.every + 1 + n) 0

inductive PollEnd where
  | stopped
  | crashed
  /-- A tick has been given up. -/
  | givenUp

/-- More steps than loops make within so many milliseconds: each tick submits at most the stored
jobs, and each of these is at most a chain of all of them. -/
def pollSteps (e : Engine) (loops : List Polling) (millis : Nat) : Nat :=
  let jobs := e.store.jobs.rows.length
  2 * (ticksWithin millis loops + 1) * (jobs + 1) * (2 * jobs + 4) + 2 * e.backlog

def continueLoops (e : Engine) (loops : List Polling) (millis : Nat) : Engine × List Polling :=
  let stopAt := e.time + millis
  poll stopAt stopAt (e.pollSteps loops millis) loops e

def runLoops (e : Engine) (loops : List Polling) (millis limit : Nat) : Engine × PollEnd :=
  if loops.any (·.every = 0) then (e, .crashed)
  else
    let (e, loops) := poll (e.time + millis) limit (e.pollSteps loops millis) loops e
    let tickets := loops.filterMap fun p =>
      match p.last with
      | .paused ticket _ _ => some ticket
      | _ => none
    let e := { e with pool := tickets.foldl Pool.abandon e.pool }
    if loops.any Polling.hasOverflowed then (e, .crashed)
    else if tickets.isEmpty then (e, .stopped)
    else (e, .givenUp)

end Engine

end Rota
