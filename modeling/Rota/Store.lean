import Rota.Json.Numeral
import Rota.Pipeline
import Rota.Table
import Rota.Transaction
/-! The store: jobs, pipelines, results and transactions.
Records are written as text, and a read hands out what that text says: numbers that are not
integers are read anew, and a record that nests more than 127 arrays and objects cannot be read.
Once the store is closed, every access to a record fails. -/
namespace Rota

inductive Resource where
  | job
  | pipeline
  | jobResult
deriving DecidableEq

def Resource.text : Resource → String
  | .job => "job"
  | .pipeline => "pipeline"
  | .jobResult => "job result"

inductive StoreError where
  | notFound (resource : Resource) (id : Id)
  /-- The record is nested too deeply to be read. -/
  | unreadable
  | schedule (error : ScheduleError)
  | closed
deriving DecidableEq

namespace StoreError

def message : StoreError → String
  | notFound resource id => resource.text ++ " " ++ id.text ++ " not found"
  | unreadable => "failed to (de)serialize record: recursion limit exceeded"
  | schedule e => "invalid schedule: " ++ e.message
  | closed => "storage is closed"

def isNotFound : StoreError → Bool
  | notFound _ _ => true
  | _ => false

end StoreError

/-- A pipeline without its jobs, and the identifiers of these. -/
structure PipelineRow where
  record : Pipeline
  jobIds : List Id

structure Store where
  jobs : Table Job
  pipelines : Table PipelineRow
  results : Table JobResult
  transactions : Table Transaction
  isClosed : Bool

/-! ### What a record's text says -/

/-- The most arrays and objects that may lie inside each other in a text that is read. -/
def maxDepth : Nat := 127

def Json.reread : Json → Json := mapReals Binary64.reread

def Job.depth (j : Job) : Nat := Json.depthOfFields j.taskParams + 2

def Job.reread (j : Job) : Except StoreError Job :=
  if j.depth ≤ maxDepth then
    .ok { j with
      taskParams := Json.mapRealsOfFields Binary64.reread j.taskParams
      duration := j.duration.map Binary64.reread }
  else .error .unreadable

def Pipeline.reread (p : Pipeline) : Pipeline :=
  { p with duration := p.duration.map Binary64.reread }

def JobResult.depth (r : JobResult) : Nat :=
  match r.metadata with
  | some v => v.depth + 1
  | none => 1

/-- Null and no metadata are the same in a text. -/
def JobResult.reread (r : JobResult) : Except StoreError JobResult :=
  if r.depth ≤ maxDepth then
    .ok { r with metadata := match r.metadata with
      | some .null => none
      | some v => some v.reread
      | none => none }
  else .error .unreadable

def Transaction.reread (t : Transaction) : Transaction :=
  { t with duration := t.duration.map Binary64.reread }

/-! ### Orders of lists -/

/-- Order of optional instants; none comes first. -/
def optionalLe : Option Instant → Option Instant → Bool
  | none, _ => true
  | some _, none => false
  | some a, some b => a.le b

def Job.createdLe (a b : Job) : Bool := optionalLe a.createdAt b.createdAt

def Job.sequenceLe (a b : Job) : Bool := a.sequence ≤ b.sequence

/-- By run time, and by position in the pipeline where run times are equal. -/
def Job.dueLe (a b : Job) : Bool :=
  if a.runAt = b.runAt then a.sequence ≤ b.sequence else optionalLe a.runAt b.runAt

def Job.isDue (j : Job) (now : Instant) : Bool :=
  j.status = .pending && match j.runAt with
    | some t => t.le now
    | none => false

namespace Store

def empty : Store := ⟨.empty, .empty, .empty, .empty, false⟩

def ensureOpen (s : Store) : Except StoreError Unit :=
  if s.isClosed then .error .closed else .ok ()

def close (s : Store) : Store := { s with isClosed := true }

def isHealthy (s : Store) : Bool := !s.isClosed

/-! ### Jobs -/

def createJob (s : Store) (j : Job) : Except StoreError Store := do
  s.ensureOpen
  .ok { s with jobs := s.jobs.put j.id j }

def getJob (s : Store) (id : Id) : Except StoreError Job := do
  s.ensureOpen
  match s.jobs.get? id with
  | some j => j.reread
  | none => .error (.notFound .job id)

def readJobs (s : Store) : Except StoreError (List Job) := do
  s.ensureOpen
  s.jobs.values.mapM Job.reread

def getJobs (s : Store) (status : Status) : Except StoreError (List Job) := do
  .ok (sortBy Job.createdLe ((← s.readJobs).filter fun j => status.passes j.status))

def getDueJobs (s : Store) (now : Instant) : Except StoreError (List Job) := do
  .ok (sortBy Job.dueLe ((← s.readJobs).filter fun j => j.isDue now))

def updateJob (s : Store) (j : Job) : Except StoreError Store := do
  s.ensureOpen
  if s.jobs.contains j.id then .ok { s with jobs := s.jobs.put j.id j }
  else .error (.notFound .job j.id)

/-- Deletes a job with its result and its transactions. -/
def deleteJob (s : Store) (id : Id) : Except StoreError Store := do
  s.ensureOpen
  if s.jobs.contains id then
    .ok { s with
      jobs := s.jobs.erase id
      results := s.results.erase id
      transactions := s.transactions.eraseIf fun t => t.jobId = id }
  else .error (.notFound .job id)

def getJobsByPipeline (s : Store) (pipelineId : Id) : Except StoreError (List Job) := do
  .ok (sortBy Job.sequenceLe ((← s.readJobs).filter fun j => j.pipelineId = some pipelineId))

/-! ### Pipelines -/

def putJobs (t : Table Job) (jobs : List Job) : Table Job :=
  jobs.foldl (fun t j => t.put j.id j) t

def createPipeline (s : Store) (p : Pipeline) : Except StoreError Store := do
  s.ensureOpen
  .ok { s with
    jobs := putJobs s.jobs p.jobs
    pipelines := s.pipelines.put p.id ⟨{ p with jobs := [] }, p.jobs.map (·.id)⟩ }

/-- A pipeline with the jobs it names, as far as they exist, in their sequence. -/
def loadPipeline (s : Store) (row : PipelineRow) : Except StoreError Pipeline := do
  let jobs ← (row.jobIds.filterMap s.jobs.get?).mapM Job.reread
  .ok { row.record.reread with jobs := sortBy Job.sequenceLe jobs }

def getPipeline (s : Store) (id : Id) : Except StoreError Pipeline := do
  s.ensureOpen
  match s.pipelines.get? id with
  | some row => s.loadPipeline row
  | none => .error (.notFound .pipeline id)

def pipelineLe (a b : Pipeline) : Bool := optionalLe a.createdAt b.createdAt

def getPipelines (s : Store) (status : Status) : Except StoreError (List Pipeline) := do
  s.ensureOpen
  let pipelines ← s.pipelines.values.mapM s.loadPipeline
  .ok (sortBy pipelineLe (pipelines.filter fun p => status.passes p.status))

def updatePipeline (s : Store) (p : Pipeline) : Except StoreError Store := do
  s.ensureOpen
  match s.pipelines.get? p.id with
  | some row =>
    .ok { s with pipelines := s.pipelines.put p.id { row with record := { p with jobs := [] } } }
  | none => .error (.notFound .pipeline p.id)

def deletePipeline (s : Store) (id : Id) : Except StoreError Store := do
  s.ensureOpen
  match s.pipelines.get? id with
  | some row =>
    .ok { s with
      pipelines := s.pipelines.erase id
      jobs := row.jobIds.foldl Table.erase s.jobs
      results := row.jobIds.foldl Table.erase s.results }
  | none => .error (.notFound .pipeline id)

/-! ### Results and transactions -/

def createResult (s : Store) (r : JobResult) : Except StoreError Store := do
  s.ensureOpen
  .ok { s with results := s.results.put r.jobId r }

def getResult (s : Store) (jobId : Id) : Except StoreError JobResult := do
  s.ensureOpen
  match s.results.get? jobId with
  | some r => r.reread
  | none => .error (.notFound .jobResult jobId)

def updateResult (s : Store) (r : JobResult) : Except StoreError Store := do
  s.ensureOpen
  if s.results.contains r.jobId then .ok { s with results := s.results.put r.jobId r }
  else .error (.notFound .jobResult r.jobId)

def deleteResult (s : Store) (jobId : Id) : Except StoreError Store := do
  s.ensureOpen
  if s.results.contains jobId then .ok { s with results := s.results.erase jobId }
  else .error (.notFound .jobResult jobId)

def createTransaction (s : Store) (t : Transaction) : Except StoreError Store := do
  s.ensureOpen
  .ok { s with transactions := s.transactions.put t.id t }

def transactionLe (a b : Transaction) : Bool := a.createdAt.le b.createdAt

def getTransactions (s : Store) (status : Status) : Except StoreError (List Transaction) := do
  s.ensureOpen
  .ok (sortBy transactionLe ((s.transactions.values.map Transaction.reread).filter fun t =>
    status.passes t.status))

def getTransactionsByJob (s : Store) (jobId : Id) : Except StoreError (List Transaction) := do
  s.ensureOpen
  .ok (sortBy transactionLe ((s.transactions.values.map Transaction.reread).filter fun t =>
    t.jobId = jobId))

/-! ### Arming again -/

/-- Arms a job for its next run and stores it. A job without an interval is parked: it is pending
and has no run time. -/
def recycleJob (s : Store) (j : Job) (now : Instant) : Except StoreError (Store × Job) := do
  let interval ← j.interval.mapError .schedule
  let j ← match interval with
    | some i => (j.recycle i now).mapError .schedule
    | none => .ok (j.reset none)
  .ok (← s.updateJob j, j)

/-- Stores jobs one after the other, up to the first that cannot be stored. -/
def updateJobs (s : Store) : List Job → Store × Except StoreError Unit
  | [] => (s, .ok ())
  | j :: rest =>
    match s.updateJob j with
    | .ok s => updateJobs s rest
    | .error e => (s, .error e)

def recyclePipeline (s : Store) (p : Pipeline) (now : Instant) :
    Store × Pipeline × Except (Stop StoreError) Unit :=
  match p.recycle now with
  | (p, .error (.error e)) => (s, p, .error (.error (.schedule e)))
  | (p, .error .overflow) => (s, p, .error .overflow)
  | (p, .ok ()) =>
    match s.updateJobs p.jobs with
    | (s, .error e) => (s, p, .error (.error e))
    | (s, .ok ()) =>
      match s.updatePipeline p with
      | .ok s => (s, p, .ok ())
      | .error e => (s, p, .error (.error e))

end Store

end Rota
