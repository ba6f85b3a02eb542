import Rota.Chain
import Rota.Pipeline
import Rota.Task
import Rota.TimeUnit
/-! Work: what is handed to the pool.
A work is a single job or the chain of a pipeline. An execution is a work on its way: one of its
jobs runs, and the others wait behind it. -/
namespace Rota

inductive Work where
  | task (job : Job)
  | pipeline (pipelineId : Id) (jobs : List Job)

namespace Work

def jobs : Work → List Job
  | task job => [job]
  | pipeline _ jobs => jobs

def length (w : Work) : Nat := w.jobs.length

def isEmpty (w : Work) : Bool := w.length = 0

def head? (w : Work) : Option Job := w.jobs.head?

def resultCapacity (w : Work) : Nat := max w.length 1

/-- The work of a chain. The head of a chain of several jobs has to belong to a pipeline; if it
does not, its identifier is the error. -/
def ofChain (c : Chain) : Except Id Work :=
  match c.toList with
  | [job] => .ok (task job)
  | jobs =>
    match c.head.pipelineId with
    | some id => .ok (pipeline id jobs)
    | none => .error c.head.id

end Work

namespace Job

def defaultTimeout : Nat := 300000

/-- The deadline in milliseconds; timeouts are counted up to 2^32 - 1 units. -/
def deadline (j : Job) (unit : TimeUnit) : Nat :=
  if j.timeout = 0 then defaultTimeout else min j.timeout.toNat 4294967295 * unit.millis

end Job

inductive Executor where
  | worker
  /-- A caller with a token of its own, and whether that token has fired. -/
  | caller (isCancelled : Bool)
deriving DecidableEq

structure Execution where
  executor : Executor
  /-- Whether the results are stored in the background; else they are kept in `results`. -/
  isSaved : Bool
  /-- The record of the pipeline that is executed, if it is one. -/
  pipeline : Option Pipeline
  /-- The job whose task runs. -/
  current : Job
  waiting : List Job
  /-- When the task was started, in milliseconds of the engine's time. -/
  startedAt : Nat
  run : TaskRun
  /-- The deadline of the job, in milliseconds from its start. -/
  limit : Nat
  results : List JobResult

namespace Execution

/-- Milliseconds after which the task is stopped: a timer waits for the deadline. -/
def expiry (x : Execution) : Nat := Timer.wait x.limit

/-- The result of the running job at `time`, if there is one yet. The deadline counts before an
answer at the same instant, and cancellation before both. -/
def verdict? (x : Execution) (isCancelled : Bool) (time : Nat) : Option JobResult :=
  if isCancelled then some (.failure x.current.id "execution cancelled")
  else if x.expiry ≤ x.run.delay then
    if x.startedAt + x.expiry ≤ time then
      some (.failure x.current.id ("deadline exceeded after " ++ spanText x.limit))
    else none
  else if x.startedAt + x.run.delay ≤ time then some (x.run.outcome.result x.current.id)
  else none

def dueAt (x : Execution) : Nat := x.startedAt + min x.expiry x.run.delay

end Execution

end Rota
