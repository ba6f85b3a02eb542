import Rota.Chain
/-! Pipelines: jobs that run one after the other.
The jobs of a pipeline are a copy of their records. A pipeline is armed again as a whole: its
first job after the interval and each further job a delay later. -/
namespace Rota
open Rota.Text

structure PipelineOptions where
  runOnInterval : Option String
  /-- Seconds between the run times of two neighbours when the pipeline is armed again. -/
  delayBetweenTask : UInt64
  cancelOnFailure : Bool
deriving DecidableEq

def PipelineOptions.default : PipelineOptions := ⟨none, 0, false⟩

structure Pipeline where
  id : Id
  name : String
  description : Option String
  disable : Bool
  options : PipelineOptions
  jobs : List Job
  status : Status
  runAt : Option Instant
  createdAt : Option Instant
  startedAt : Option Instant
  completedAt : Option Instant
  duration : Option Binary64

/-- Why a computation on dates stopped: with an error, or because a date left the supported
years where no error is foreseen. -/
inductive Stop (ε : Type) where
  | error (e : ε)
  | overflow
deriving DecidableEq

namespace Pipeline

def new (id : Id) (name : String) (jobs : List Job) (createdAt : Option Instant) : Pipeline where
  id := id
  name := name
  description := none
  disable := false
  options := .default
  jobs := jobs
  status := .pending
  runAt := none
  createdAt := createdAt
  startedAt := none
  completedAt := none
  duration := none

def markStarted (p : Pipeline) (t : Instant) : Pipeline :=
  { p with status := .inProgress, startedAt := some t }

def setDuration (p : Pipeline) : Pipeline :=
  { p with duration := durationOf p.status p.startedAt p.completedAt p.duration }

def markCompleted (p : Pipeline) (t : Instant) : Pipeline :=
  setDuration { p with status := .completed, completedAt := some t }

def markFailed (p : Pipeline) (t : Instant) : Pipeline :=
  setDuration { p with status := .failed, completedAt := some t }

def isScheduled (p : Pipeline) : Bool := p.runAt.isSome

def headId (p : Pipeline) : Option Id := p.jobs.head?.map (·.id)

def interval (p : Pipeline) : Except ScheduleError (Option Interval) :=
  Interval.parseOptional p.options.runOnInterval

def missingFields (p : Pipeline) : List String :=
  (if isBlankText p.name then ["name"] else []) ++ (if p.jobs = [] then ["jobs"] else [])

def brokenLink? (position : Nat) : List Job → Option Nat
  | [] => none
  | [last] => if last.hasNext then some position else none
  | a :: b :: rest =>
    if a.nextJobId = some b.id then brokenLink? (position + 1) (b :: rest) else some position

def validate (p : Pipeline) : Except ValidationError Unit := do
  if p.missingFields = [] then .ok () else .error (.missingFields p.missingFields)
  if p.jobs.length < 2 then .error (.tooFewJobs p.jobs.length) else .ok ()
  match brokenLink? 0 p.jobs with
  | some i => .error (.brokenLink i)
  | none => .ok ()
  validateInterval p.options.runOnInterval

/-- The delay between two jobs in seconds, at least one. -/
def delay (p : Pipeline) : UInt64 := max p.options.delayBetweenTask 1

/-- Seconds by which the job at `position` runs after the first; the product is taken in 64 bits
and its upper half stands for negative numbers. -/
def stagger (delay : UInt64) (position : Nat) : Int :=
  (delay * UInt64.ofNat position).toNat.toInt64.toInt

def maxSpan : Int := 9223372036854775

/-- Arms the jobs from `position` on. Where a stagger is no span of time or the date of a run is
not supported it stops, and the jobs before are armed already. -/
def recycleJobs (base : Instant) (delay : UInt64) (position : Nat) :
    List Job → List Job × Except (Stop ScheduleError) Unit
  | [] => ([], .ok ())
  | job :: rest =>
    let seconds := stagger delay position
    if seconds < -maxSpan || maxSpan < seconds then
      (job :: rest, .error (.error (.outOfRange (natText delay.toNat ++ " sec"))))
    else
      match base.addSeconds? seconds with
      | none => (job :: rest, .error .overflow)
      | some t =>
        let (rest, result) := recycleJobs base delay (position + 1) rest
        (job.reset (some t) :: rest, result)

/-- Arms the pipeline and its jobs for the next run, one interval after `now`, or one second if it
has none. Gives the pipeline as it is when this succeeds or stops. -/
def recycle (p : Pipeline) (now : Instant) : Pipeline × Except (Stop ScheduleError) Unit :=
  let base := do
    let interval ← p.interval
    (interval.getD ⟨1, .second⟩).adjust now
  match base with
  | .error e => (p, .error (.error e))
  | .ok base =>
    match recycleJobs base p.delay 0 p.jobs with
    | (jobs, .error stop) => ({ p with jobs := jobs }, .error stop)
    | (jobs, .ok ()) =>
      ({ p with
        jobs := jobs
        status := .pending
        runAt := jobs.head?.bind (·.runAt)
        startedAt := none
        completedAt := none
        duration := none }, .ok ())

end Pipeline

/-- A pipeline with the chains that hang behind its jobs for a run. -/
structure LinkedPipeline where
  pipeline : Pipeline
  /-- In the order of the jobs. -/
  behind : List (Option Chain)

namespace LinkedPipeline

def ofPipeline (p : Pipeline) : LinkedPipeline := ⟨p, p.jobs.map fun _ => none⟩

def chains (l : LinkedPipeline) : List Chain := l.pipeline.jobs.zipWith Chain.ofNext l.behind

def merge (l : LinkedPipeline) : LinkedPipeline :=
  { l with behind := (Chain.linkAll l.chains).map Chain.next? }

def unmerge (l : LinkedPipeline) : LinkedPipeline := ofPipeline l.pipeline

end LinkedPipeline

end Rota
