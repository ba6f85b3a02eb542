import Rota.Engine
import Rota.Request
/-! Admission and management of jobs and pipelines.
What a request asks for is checked before anything is stored. A job or pipeline that is to run at
once is put into the job queue and is not kept when the queue does not take it. -/
namespace Rota

inductive AdmissionError where
  | validation (error : ValidationError)
  | store (error : StoreError)
  | queueFull (capacity : Nat)
  | queueClosed
  /-- The job is deleted with its pipeline only. -/
  | pipelineJob (id : Id)
deriving DecidableEq

namespace AdmissionError

def message : AdmissionError → String
  | validation e => e.message
  | store e => e.message
  | queueFull capacity => "job queue is full (capacity " ++ Text.natText capacity ++
      "), try again later"
  | queueClosed => "job queue is closed"
  | pipelineJob id => "job " ++ id.text ++ " belongs to a pipeline, delete the pipeline instead"

def ofQueue : QueueError → AdmissionError
  | .full capacity => queueFull capacity
  | .closed => queueClosed

def isNotFound : AdmissionError → Bool
  | store e => e.isNotFound
  | _ => false

end AdmissionError

namespace Engine

def firstRunAt (runNow : Bool) (runAt : Option String) (now : Instant) :
    Except ValidationError (Option Instant) :=
  if runNow then .ok none
  else
    match parseRunAt (runAt.getD "") now with
    | .ok t => .ok (some (t.getD now))
    | .error e => .error (.schedule e)

/-! ### Jobs -/

def jobOfRequest (id : Id) (r : CreateJob) (now : Instant) : Job :=
  { Job.new id r.name r.taskName r.taskParams (some now) with
    description := r.description
    timeout := r.timeout
    disable := r.disable
    options := r.options }

/-- Puts a new job into the queue, or deletes it again. -/
def enqueueNew (e : Engine) (j : Job) (drop : Store → Except StoreError Store) :
    Engine × Except AdmissionError Unit :=
  match e.queue.push j with
  | .ok queue => ({ e with queue := queue }, .ok ())
  | .error err =>
    match drop e.store with
    | .ok s => (e.withStore s, .error (.ofQueue err))
    | .error e' => (e, .error (.store e'))

def createJob (e : Engine) (r : CreateJob) : Engine × Except AdmissionError Job :=
  let (id, e) := e.issueId
  let checked : Except AdmissionError (Job × Store) := do
    let runAt ← (firstRunAt r.runNow r.runAt e.now).mapError .validation
    let j := { jobOfRequest id r e.now with runAt := runAt }
    (j.validate e.registry.names).mapError .validation
    .ok (j, ← (e.store.createJob j).mapError .store)
  match checked with
  | .error err => (e, .error err)
  | .ok (j, s) =>
    let e := e.withStore s
    if r.runNow then
      match e.enqueueNew j fun s => s.deleteJob j.id with
      | (e, .ok ()) => (e, .ok j)
      | (e, .error err) => (e, .error err)
    else (e, .ok j)

def getJob (e : Engine) (id : Id) : Except AdmissionError Job := do
  .ok (← (e.store.getJob id).mapError .store).setDuration

def listJobs (e : Engine) (filter : Option String) : Except AdmissionError (List Job) := do
  let status ← (Status.parseFilter filter).mapError .validation
  .ok ((← (e.store.getJobs status).mapError .store).map Job.setDuration)

def updateJob (e : Engine) (id : Id) (r : UpdateJob) : Engine × Except AdmissionError Job :=
  let updated : Except AdmissionError (Job × Store) := do
    let j := r.applyTo (← (e.store.getJob id).mapError .store)
    (j.validate e.registry.names).mapError .validation
    .ok (j, ← (e.store.updateJob j).mapError .store)
  match updated with
  | .ok (j, s) => (e.withStore s, .ok j)
  | .error err => (e, .error err)

def deleteJob (e : Engine) (id : Id) : Engine × Except AdmissionError Unit :=
  let deleted : Except AdmissionError Store := do
    let j ← (e.store.getJob id).mapError .store
    if j.belongsToPipeline then .error (.pipelineJob id)
    else (e.store.deleteJob id).mapError .store
  match deleted with
  | .ok s => (e.withStore s, .ok ())
  | .error err => (e, .error err)

def deleteAll (s : Store) : List Id → Store × Except StoreError Unit
  | [] => (s, .ok ())
  | id :: rest =>
    match s.deleteJob id with
    | .ok s => deleteAll s rest
    | .error e => (s, .error e)

def dropJobs (e : Engine) : Engine × Except AdmissionError Nat :=
  match e.store.getJobs .undefined with
  | .error err => (e, .error (.store err))
  | .ok jobs =>
    let ids := (jobs.filter fun j => !j.belongsToPipeline).map (·.id)
    match deleteAll e.store ids with
    | (s, .ok ()) => (e.withStore s, .ok ids.length)
    | (s, .error err) => (e.withStore s, .error (.store err))

/-! ### Pipelines -/

def jobOfStep (id pipelineId : Id) (position : Nat) (interval : Option String)
    (r : CreatePipelineJob) (now : Instant) : Job :=
  let j := Job.new id r.name r.taskName r.taskParams (some now)
  let j :=
    { j with
      description := r.description
      timeout := r.timeout
      usePreviousResults := r.usePreviousResults
      options := r.options
      pipelineId := some pipelineId
      sequence := UInt32.ofNat position }
  if j.intervalEnabled then j
  else { j with options := { j.options with runOnInterval := interval } }

/-- The steps from `position` on, with identifiers issued from `issued` on, each pointing at the
next. -/
def jobsOfSteps (pipelineId : Id) (interval : Option String) (now : Instant)
    (position issued : Nat) : List CreatePipelineJob → List Job
  | [] => []
  | r :: rest =>
    let next := if rest.isEmpty then none else some (Id.issued (issued + 1))
    { jobOfStep (Id.issued issued) pipelineId position interval r now with nextJobId := next } ::
      jobsOfSteps pipelineId interval now (position + 1) (issued + 1) rest

def withHeadRunAt (runAt : Option Instant) : List Job → List Job
  | [] => []
  | j :: rest => { j with runAt := runAt } :: rest

def pipelineOfRequest (issued : Nat) (r : CreatePipeline) (runAt : Option Instant)
    (now : Instant) : Pipeline :=
  let id := Id.issued issued
  let jobs := jobsOfSteps id r.options.runOnInterval now 0 (issued + 1) r.jobs
  { Pipeline.new id r.name (withHeadRunAt runAt jobs) (some now) with
    description := r.description
    disable := r.disable
    options := r.options
    runAt := runAt }

def validateJobs (tasks : List String) : List Job → Except ValidationError Unit
  | [] => .ok ()
  | j :: rest => do
    j.validate tasks
    validateJobs tasks rest

def createPipeline (e : Engine) (r : CreatePipeline) : Engine × Except AdmissionError Pipeline :=
  let issued := e.issued
  let e := { e with issued := issued + r.jobs.length + 1 }
  let checked : Except AdmissionError (Pipeline × Store) := do
    let runAt ← (firstRunAt r.runNow r.runAt e.now).mapError .validation
    let p := pipelineOfRequest issued r runAt e.now
    (validateJobs e.registry.names p.jobs).mapError .validation
    p.validate.mapError .validation
    .ok (p, ← (e.store.createPipeline p).mapError .store)
  match checked with
  | .error err => (e, .error err)
  | .ok (p, s) =>
    let e := e.withStore s
    match r.runNow, p.jobs with
    | true, head :: _ =>
      match e.enqueueNew head fun s => s.deletePipeline p.id with
      | (e, .ok ()) => (e, .ok p)
      | (e, .error err) => (e, .error err)
    | _, _ => (e, .ok p)

def getPipeline (e : Engine) (id : Id) : Except AdmissionError Pipeline := do
  .ok (← (e.store.getPipeline id).mapError .store).setDuration

def listPipelines (e : Engine) (filter : Option String) :
    Except AdmissionError (List Pipeline) := do
  let status ← (Status.parseFilter filter).mapError .validation
  (e.store.getPipelines status).mapError .store

def pipelineJobs (e : Engine) (id : Id) : Except AdmissionError (List Job) := do
  let _ ← (e.store.getPipeline id).mapError .store
  .ok ((← (e.store.getJobsByPipeline id).mapError .store).map Job.setDuration)

def updatePipeline (e : Engine) (id : Id) (r : UpdatePipeline) :
    Engine × Except AdmissionError Pipeline :=
  let updated : Except AdmissionError (Pipeline × Store) := do
    let p := r.applyTo (← (e.store.getPipeline id).mapError .store)
    p.validate.mapError .validation
    .ok (p, ← (e.store.updatePipeline p).mapError .store)
  match updated with
  | .ok (p, s) => (e.withStore s, .ok p)
  | .error err => (e, .error err)

def deletePipeline (e : Engine) (id : Id) : Engine × Except AdmissionError Unit :=
  match e.store.deletePipeline id with
  | .ok s => (e.withStore s, .ok ())
  | .error err => (e, .error (.store err))

/-! ### Results and transactions -/

def getResult (e : Engine) (jobId : Id) : Except AdmissionError JobResult :=
  (e.store.getResult jobId).mapError .store

def deleteResult (e : Engine) (jobId : Id) : Engine × Except AdmissionError Unit :=
  match e.store.deleteResult jobId with
  | .ok s => (e.withStore s, .ok ())
  | .error err => (e, .error (.store err))

def listTransactions (e : Engine) (filter : Option String) :
    Except AdmissionError (List Transaction) := do
  let status ← (Status.parseFilter filter).mapError .validation
  (e.store.getTransactions status).mapError .store

def jobTransactions (e : Engine) (jobId : Id) : Except AdmissionError (List Transaction) :=
  (e.store.getTransactionsByJob jobId).mapError .store

end Engine

end Rota
