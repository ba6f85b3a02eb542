import Rota.Job
/-! The job queue: jobs that are to run right away, first in first out.
The queue holds a limited number of jobs. A closed queue takes and hands out nothing. -/
namespace Rota
open Rota.Text

inductive QueueError where
  | full (capacity : Nat)
  | closed
deriving DecidableEq

def QueueError.message : QueueError → String
  | .full capacity => "job queue is full (capacity " ++ natText capacity ++ ")"
  | .closed => "job queue is closed"

structure JobQueue where
  capacity : Nat
  jobs : List Job
  isClosed : Bool

namespace JobQueue

/-- The largest number of items that a queue or channel can be made for: 2^61 - 1. -/
def maxCapacity : Nat := 2305843009213693951

def new? (capacity : Nat) : Option JobQueue :=
  if 0 < capacity ∧ capacity ≤ maxCapacity then some ⟨capacity, [], false⟩ else none

def length (q : JobQueue) : Nat := q.jobs.length

def push (q : JobQueue) (j : Job) : Except QueueError JobQueue :=
  if q.isClosed then .error .closed
  else if q.length < q.capacity then .ok { q with jobs := q.jobs ++ [j] }
  else .error (.full q.capacity)

def pop (q : JobQueue) : Option Job × JobQueue :=
  if q.isClosed then (none, q)
  else
    match q.jobs with
    | [] => (none, q)
    | j :: rest => (some j, { q with jobs := rest })

def close (q : JobQueue) : JobQueue := { q with isClosed := true }

end JobQueue

end Rota
