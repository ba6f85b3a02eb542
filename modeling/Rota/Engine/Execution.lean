import Rota.Engine
import Rota.Record.Layouts
/-! Executing works: the steps of a worker.
A worker takes a work, starts its first job, and when that job has a result finishes it and goes
on to the next one, up to the first failure. A finished job that recurs is armed again; one that
cannot be armed is parked without a run time. -/
namespace Rota

namespace Engine

def jobTopic : String := "job"

def transactionTopic : String := "transaction"

def runJob (e : Engine) (executor : Executor) (isSaved : Bool) (pipeline : Option Pipeline)
    (job : Job) (waiting : List Job) (previous : Option Json) (results : List JobResult) :
    Execution where
  executor := executor
  isSaved := isSaved
  pipeline := pipeline
  current := job
  waiting := waiting
  startedAt := e.time
  run := e.registry.run job.taskName job.taskParams
    (if job.usePreviousResults then previous else none)
  limit := job.deadline e.pool.unit
  results := results

def startJob (e : Engine) (executor : Executor) (isSaved : Bool) (pipeline : Option Pipeline)
    (jobs : List Job) (previous : Option Json) (results : List JobResult) :
    Engine × Except StoreError (Option Execution) :=
  match jobs with
  | [] => (e, .ok none)
  | job :: waiting =>
    let job := job.markStarted e.now
    match e.store.updateJob job with
    | .error err => (e, .error err)
    | .ok s =>
      let e := e.withStore s
      (e, .ok (some (e.runJob executor isSaved pipeline job waiting previous results)))

/-- Begins a work. A pipeline is marked as started before its first job. -/
def beginWork (e : Engine) (executor : Executor) (h : Handover) :
    Engine × Except StoreError (Option Execution) :=
  match h.work with
  | .task job => e.startJob executor h.isSaved none [job] none []
  | .pipeline id jobs =>
    match e.store.getPipeline id with
    | .error err => (e, .error err)
    | .ok p =>
      let p := p.markStarted e.now
      match e.store.updatePipeline p with
      | .error err => (e, .error err)
      | .ok s => (e.withStore s).startJob executor h.isSaved (some p) jobs none []

def markFinished (job : Job) (result : JobResult) (now : Instant) : Job :=
  match result.error with
  | none => job.markCompleted now
  | some reason => job.markFailed now reason

def recordTransaction (e : Engine) (job : Job) : Engine :=
  let (id, e) := e.issueId
  let t := Transaction.ofJob id job e.now
  match e.store.createTransaction t with
  | .error _ => e
  | .ok s => (e.withStore s).announce transactionTopic (Transaction.layout.write t)

def parkJob (e : Engine) (job : Job) : Engine × Except StoreError Unit :=
  match e.store.updateJob (job.reset none) with
  | .ok s => (e.withStore s, .ok ())
  | .error err => (e, .error err)

def settleJob (e : Engine) (job : Job) : Engine × Except StoreError Unit :=
  if job.intervalEnabled then
    let e := (e.announce jobTopic (Job.layout.write job)).recordTransaction job
    match e.store.recycleJob job e.now with
    | .ok (s, _) => (e.withStore s, .ok ())
    | .error _ => e.parkJob job
  else
    match e.store.updateJob job with
    | .ok s => (e.withStore s, .ok ())
    | .error err => (e, .error err)

/-- The pipeline behind a result of one of its jobs: it fails with the job and completes with its
last one. -/
def pipelineAfter (p : Pipeline) (result : JobResult) (isLast : Bool) (now : Instant) : Pipeline :=
  if !result.isSuccess then p.markFailed now
  else if isLast then p.markCompleted now
  else p

def settlePipeline (e : Engine) (p : Option Pipeline) : Engine × Except StoreError Unit :=
  match p with
  | none => (e, .ok ())
  | some p =>
    if p.status.isTerminal then
      match e.store.updatePipeline p with
      | .ok s => (e.withStore s, .ok ())
      | .error err => (e, .error err)
    else (e, .ok ())

def sendResult (e : Engine) (x : Execution) (result : JobResult) : Engine × List JobResult :=
  if x.isSaved then
    ({ e with pool := { e.pool with unsaved := e.pool.unsaved ++ [result] } }, x.results)
  else (e, x.results ++ [result])

structure Ended where
  results : List JobResult
  error : Option StoreError

structure Interlude where
  executor : Executor
  isSaved : Bool
  pipeline : Option Pipeline
  /-- The jobs that are still to run. -/
  jobs : List Job
  /-- What the job before has answered. -/
  previous : Option Json
  results : List JobResult

/-- What there is to go on with when a job and its pipeline have been stored, or what is left when
no further job runs. -/
def conclusion (x : Execution) (pipeline : Option Pipeline) (result : JobResult)
    (results : List JobResult) :
    Except StoreError Unit → Except StoreError Unit → Interlude ⊕ Ended
  | .error err, _ => .inr ⟨results, some err⟩
  | .ok (), .error err => .inr ⟨results, some err⟩
  | .ok (), .ok () =>
    if result.isSuccess && pipeline.isSome && !x.waiting.isEmpty then
      .inl ⟨x.executor, x.isSaved, pipeline, x.waiting, result.metadata, results⟩
    else .inr ⟨results, none⟩

def concludeJob (e : Engine) (x : Execution) (result : JobResult) :
    Engine × (Interlude ⊕ Ended) :=
  let job := markFinished x.current result e.now
  let pipeline := x.pipeline.map fun p => pipelineAfter p result x.waiting.isEmpty e.now
  let (e, jobSettled) := e.settleJob job
  let (e, pipelineSettled) := e.settlePipeline pipeline
  let (e, results) := e.sendResult x result
  (e, conclusion x pipeline result results jobSettled pipelineSettled)

def goOn (e : Engine) (i : Interlude) : Engine × (Execution ⊕ Ended) :=
  match e.startJob i.executor i.isSaved i.pipeline i.jobs i.previous i.results with
  | (e, .ok (some x)) => (e, .inl x)
  | (e, .ok none) => (e, .inr ⟨i.results, none⟩)
  | (e, .error err) => (e, .inr ⟨i.results, some err⟩)

def finishJob (e : Engine) (x : Execution) (result : JobResult) :
    Engine × (Execution ⊕ Ended) :=
  match e.concludeJob x result with
  | (e, .inl i) => e.goOn i
  | (e, .inr ended) => (e, .inr ended)

/-! ### Steps of the pool -/

def addExecution (e : Engine) (x : Execution) : Engine :=
  { e with pool := { e.pool with executing := e.pool.executing ++ [x] } }

/-- A caller gets what its execution has left; for workers there is nobody to tell. -/
def endExecution (e : Engine) (executor : Executor) (ended : Ended) : Engine :=
  match executor with
  | .worker => e
  | .caller _ => { e with returned := some (ended.results, ended.error) }

def takeWork? (e : Engine) : Option Engine :=
  if e.pool.hasIdleWorker then
    e.pool.take?.map fun (h, pool) =>
      match { e with pool := pool }.beginWork .worker h with
      | (e, .ok (some x)) => e.addExecution x
      | (e, _) => e
  else none

def finishNext? (e : Engine) : Option Engine :=
  let verdict (x : Execution) := x.verdict? (e.pool.isCancelledFor x) e.time
  match e.pool.executing.findIdx? fun x => (verdict x).isSome with
  | none => none
  | some i =>
    match e.pool.executing[i]? with
    | none => none
    | some x =>
      (verdict x).map fun result =>
        let e := { e with pool := { e.pool with executing := e.pool.executing.eraseIdx i } }
        match e.finishJob x result with
        | (e, .inl next) => e.addExecution next
        | (e, .inr ended) => e.endExecution x.executor ended

def saveResult? (e : Engine) : Option Engine :=
  match e.pool.unsaved with
  | [] => none
  | result :: rest =>
    let e := { e with pool := { e.pool with unsaved := rest } }
    match e.store.createResult result with
    | .ok s => some (e.withStore s)
    | .error _ => some e

def beginForCaller (e : Engine) (isCancelled : Bool) (w : Work) : Engine :=
  let executor := Executor.caller isCancelled
  match { e with returned := none }.beginWork executor ⟨w, false⟩ with
  | (e, .ok (some x)) => e.addExecution x
  | (e, .ok none) => e.endExecution executor ⟨[], none⟩
  | (e, .error err) => e.endExecution executor ⟨[], some err⟩

def cancelCaller (e : Engine) : Engine :=
  { e with pool := { e.pool with
    executing := e.pool.executing.map fun x =>
      match x.executor with
      | .caller _ => { x with executor := .caller true }
      | .worker => x } }

end Engine

end Rota
