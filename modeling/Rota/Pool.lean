import Rota.JobQueue
import Rota.Work
/-! The worker pool: a channel of limited capacity and the workers that take works from it.
Works are taken in the order in which they were sent. A work for which the channel has no room
waits with a ticket until a worker makes room. A stopped pool accepts no new work but executes
what it has. -/
namespace Rota

structure Handover where
  work : Work
  /-- Whether the results are stored in the background. -/
  isSaved : Bool

structure Pool where
  unit : TimeUnit
  workers : Nat
  capacity : Nat
  isAccepting : Bool
  isStarted : Bool
  /-- Whether workers run that nobody has waited for yet. -/
  isUnjoined : Bool
  isCancelled : Bool
  channel : List Handover
  /-- Works that wait for room, with their tickets, in order. -/
  waiting : List (Nat × Handover)
  nextTicket : Nat
  /-- In the order in which their running jobs were started. -/
  executing : List Execution
  /-- Results that have been sent but not stored yet, in order. -/
  unsaved : List JobResult

inductive Sent where
  | refused
  | accepted
  | waiting (ticket : Nat)
deriving DecidableEq

namespace Pool

/-- A pool that is not started; at least one worker and room for at least one work. None for a
capacity above the largest. -/
def new? (unit : TimeUnit) (workers capacity : Nat) : Option Pool :=
  if max capacity 1 ≤ JobQueue.maxCapacity then
    some ⟨unit, max workers 1, max capacity 1, true, false, false, false, [], [], 0, [], []⟩
  else none

def start (p : Pool) : Pool :=
  if p.isStarted then p else { p with isStarted := true, isUnjoined := true }

def cancel (p : Pool) : Pool := { p with isCancelled := true }

def hasRoom (p : Pool) : Bool := p.waiting.isEmpty && p.channel.length < p.capacity

def send (p : Pool) (h : Handover) : Pool × Sent :=
  if !p.isAccepting then (p, .refused)
  else if p.hasRoom then ({ p with channel := p.channel ++ [h] }, .accepted)
  else
    ({ p with waiting := p.waiting ++ [(p.nextTicket, h)], nextTicket := p.nextTicket + 1 },
      .waiting p.nextTicket)

def isWaiting (p : Pool) (ticket : Nat) : Bool := p.waiting.any fun w => w.1 = ticket

def abandon (p : Pool) (ticket : Nat) : Pool :=
  { p with waiting := p.waiting.filter fun w => w.1 ≠ ticket }

def take? (p : Pool) : Option (Handover × Pool) :=
  match p.channel, p.waiting with
  | [], _ => none
  | h :: rest, [] => some (h, { p with channel := rest })
  | h :: rest, (_, w) :: later => some (h, { p with channel := rest ++ [w], waiting := later })

def busyWorkers (p : Pool) : Nat := (p.executing.filter fun x => x.executor = .worker).length

def hasIdleWorker (p : Pool) : Bool := p.isStarted && p.busyWorkers < p.workers

def isDrained (p : Pool) : Bool :=
  p.channel.isEmpty && p.waiting.isEmpty && p.busyWorkers = 0

/-- Whether the token that governs an execution has fired. -/
def isCancelledFor (p : Pool) (x : Execution) : Bool :=
  match x.executor with
  | .worker => p.isCancelled
  | .caller isCancelled => isCancelled

end Pool

end Rota
