import Rota.Id
import Rota.Json
import Rota.Sort
import Rota.Status
/-! Jobs: single units of work that run a task.
A job goes from pending over scheduled and in progress to completed or failed. A job with an
interval recurs: when it has finished it is armed again for its next run. -/
namespace Rota
open Rota.Text

abbrev Params := List (String × Json)

structure JobOptions where
  /-- The job recurs when this interval expression is not blank. -/
  runOnInterval : Option String
  onErrorRetry : Bool
deriving DecidableEq

def JobOptions.default : JobOptions := ⟨none, false⟩

structure Job where
  id : Id
  name : String
  description : Option String
  disable : Bool
  runCount : UInt32
  failCount : UInt32
  options : JobOptions
  pipelineId : Option Id
  nextJobId : Option Id
  /-- The position in the pipeline. -/
  sequence : UInt32
  usePreviousResults : Bool
  taskName : String
  taskParams : Params
  /-- In time units of the pool; zero stands for five minutes. -/
  timeout : UInt64
  status : Status
  failureReason : Option String
  runAt : Option Instant
  scheduledAt : Option Instant
  createdAt : Option Instant
  startedAt : Option Instant
  completedAt : Option Instant
  /-- Milliseconds from start to completion. -/
  duration : Option Binary64

/-- Milliseconds, with three decimals, from `start` to `finish`. -/
def millisBetween (start finish : Instant) : Binary64 :=
  Binary64.millisOfNanos (Instant.nanosBetween start finish)

def durationOf (status : Status) (started completed : Option Instant)
    (current : Option Binary64) : Option Binary64 :=
  match status.isTerminal, started, completed with
  | true, some s, some c => some (millisBetween s c)
  | _, _, _ => current

namespace Job

def new (id : Id) (name taskName : String) (params : Params) (createdAt : Option Instant) :
    Job where
  id := id
  name := name
  description := none
  disable := false
  runCount := 0
  failCount := 0
  options := .default
  pipelineId := none
  nextJobId := none
  sequence := 0
  usePreviousResults := false
  taskName := taskName
  taskParams := params
  timeout := 0
  status := .pending
  failureReason := none
  runAt := none
  scheduledAt := none
  createdAt := createdAt
  startedAt := none
  completedAt := none
  duration := none

def markPending (j : Job) : Job := { j with status := .pending }

def markScheduled (j : Job) (t : Instant) : Job :=
  { j with status := .scheduled, scheduledAt := some t }

def markStarted (j : Job) (t : Instant) : Job :=
  { j with status := .inProgress, startedAt := some t, failureReason := none }

def setDuration (j : Job) : Job :=
  { j with duration := durationOf j.status j.startedAt j.completedAt j.duration }

def markCompleted (j : Job) (t : Instant) : Job :=
  setDuration { j with status := .completed, completedAt := some t }

def markFailed (j : Job) (t : Instant) (reason : String) : Job :=
  setDuration { j with status := .failed, failureReason := some reason, completedAt := some t }

def isScheduled (j : Job) : Bool := j.runAt.isSome

def hasNext (j : Job) : Bool := j.nextJobId.isSome

def belongsToPipeline (j : Job) : Bool := j.pipelineId.isSome

def intervalEnabled (j : Job) : Bool :=
  match j.options.runOnInterval with
  | some expression => !isBlankText expression
  | none => false

def interval (j : Job) : Except ScheduleError (Option Interval) :=
  Interval.parseOptional j.options.runOnInterval

def sortNames (names : List String) : List String :=
  sortBy (fun a b => !(b < a)) names

def validateTask (j : Job) (tasks : List String) : Except ValidationError Unit :=
  if tasks.contains j.taskName then .ok () else .error (.unknownTask j.taskName (sortNames tasks))

def missingFields (j : Job) : List String :=
  (if isBlankText j.name then ["name"] else []) ++
    (if isBlankText j.taskName then ["task_name"] else [])

def validate (j : Job) (tasks : List String) : Except ValidationError Unit := do
  if j.missingFields = [] then .ok () else .error (.missingFields j.missingFields)
  j.validateTask tasks
  validateInterval j.options.runOnInterval

def reset (j : Job) (runAt : Option Instant) : Job :=
  { j with
    status := .pending
    runAt := runAt
    scheduledAt := none
    startedAt := none
    completedAt := none
    duration := none }

/-- Counts a finished run; the counters start again at zero behind 2^32 - 1. -/
def countRun (j : Job) : Job :=
  match j.status with
  | .completed => { j with runCount := j.runCount + 1 }
  | .failed => { j with runCount := j.runCount + 1, failCount := j.failCount + 1 }
  | _ => j

/-- Arms a job for its next run, one interval after it completed or, failing that, after `now`. -/
def recycle (j : Job) (interval : Interval) (now : Instant) : Except ScheduleError Job := do
  let next ← interval.adjust (j.completedAt.getD now)
  .ok (j.countRun.reset (some next))

end Job

end Rota
