import Rota.Engine
/-! The scheduler: handing due and queued jobs to the pool.
A job of a pipeline is handed over as the chain of the whole pipeline, and only through its first
job while the pipeline is idle. A tick pauses when a work has to wait for room in the channel. -/
namespace Rota

inductive Submission where
  | submitted
  | skipped
  | failed (error : EngineError)
  | overflow
  /-- The work waits with this ticket. -/
  | waiting (ticket : Nat)
deriving DecidableEq

inductive Resolution where
  | run (chain : Chain)
  | skip
  | fail (error : EngineError)
  | overflow

inductive TickState where
  /-- With the number of jobs submitted. -/
  | done (count : Nat)
  | failed (error : EngineError)
  | overflow
  /-- A work waits with a ticket; behind it come these jobs. -/
  | paused (ticket : Nat) (count : Nat) (due : List Job)

namespace Engine

/-- Follows the links from `last` through the store, over at most `room` more jobs. -/
def loadChain (s : Store) (pipelineId : Id) : Nat → Job → Except EngineError (List Job)
  | room, last =>
    match last.nextJobId, room with
    | none, _ => .ok [last]
    | some _, 0 => .error (.brokenChain pipelineId)
    | some next, room + 1 =>
      match s.getJob next with
      | .ok j => do .ok (last :: (← loadChain s pipelineId room j))
      | .error e => .error (if e.isNotFound then .brokenChain pipelineId else .store e)

def rearm (e : Engine) (p : Pipeline) : Engine × Resolution :=
  match e.store.recyclePipeline p e.now with
  | (s, _, .ok ()) => (e.withStore s, .skip)
  | (s, _, .error (.error err)) => (e.withStore s, .fail (.store err))
  | (s, _, .error .overflow) => (e.withStore s, .overflow)

def resolve (e : Engine) (job : Job) : Engine × Resolution :=
  match job.pipelineId with
  | none => (e, if job.disable then .skip else .run (.single job))
  | some id =>
    match e.store.getPipeline id with
    | .error err => (e, .fail (.store err))
    | .ok p =>
      if p.disable then e.rearm p
      else if p.options.cancelOnFailure && p.status = .failed then e.rearm p
      else if p.headId ≠ some job.id then (e, .skip)
      else if p.status.isActive then (e, .skip)
      else
        match loadChain e.store p.id (p.jobs.length - 1) job with
        | .error err => (e, .fail err)
        | .ok chain =>
          if chain.length ≠ p.jobs.length then (e, .fail (.brokenChain p.id))
          else
            match Chain.ofList? chain with
            | some c => (e, .run c)
            | none => (e, .skip)

/-- Returns a job to pending when its work could not be sent. -/
def unschedule (e : Engine) (head : Job) (err : EngineError) : Engine × Submission :=
  match e.store.updateJob head.markPending with
  | .ok s => (e.withStore s, .failed err)
  | .error err => (e, .failed (.store err))

def sendChain (e : Engine) (c : Chain) : Engine × Submission :=
  match Work.ofChain c with
  | .error id => (e, .failed (.notAPipeline id))
  | .ok work =>
    match e.pool.send ⟨work, true⟩ with
    | (pool, .accepted) => ({ e with pool := pool }, .submitted)
    | (pool, .waiting ticket) => ({ e with pool := pool }, .waiting ticket)
    | (_, .refused) => e.unschedule c.head .poolStopped

def submit (e : Engine) (job : Job) : Engine × Submission :=
  match e.resolve job with
  | (e, .skip) => (e, .skipped)
  | (e, .fail err) => (e, .failed err)
  | (e, .overflow) => (e, .overflow)
  | (e, .run c) =>
    let head := c.head.markScheduled e.now
    match e.store.updateJob head with
    | .error err => (e, .failed (.store err))
    | .ok s => (e.withStore s).sendChain (c.withHead head)

/-- Submits the jobs that are due one after the other. A job that cannot be submitted is passed
over. -/
def submitAll (e : Engine) (count : Nat) : List Job → Engine × TickState
  | [] => (e, .done count)
  | job :: rest =>
    match e.submit job with
    | (e, .submitted) => submitAll e (count + 1) rest
    | (e, .skipped) => submitAll e count rest
    | (e, .failed _) => submitAll e count rest
    | (e, .overflow) => (e, .overflow)
    | (e, .waiting ticket) => (e, .paused ticket (count + 1) rest)

def scheduleTick (e : Engine) : Engine × TickState :=
  match e.store.getDueJobs e.now with
  | .error err => (e, .failed (.store err))
  | .ok due => e.submitAll 0 due

def dispatchTick (e : Engine) : Engine × TickState :=
  match e.queue.pop with
  | (none, _) => (e, .done 0)
  | (some queued, queue) =>
    let e := { e with queue := queue }
    match e.store.getJob queued.id with
    | .error err => (e, .failed (.store err))
    | .ok job =>
      match e.submit job with
      | (e, .submitted) => (e, .done 1)
      | (e, .skipped) => (e, .done 0)
      | (e, .failed err) => (e, .failed err)
      | (e, .overflow) => (e, .overflow)
      | (e, .waiting ticket) => (e, .paused ticket 1 [])

def resumeTick (e : Engine) : TickState → Engine × TickState
  | .paused ticket count due =>
    if e.pool.isWaiting ticket then (e, .paused ticket count due) else e.submitAll count due
  | t => (e, t)

end Engine

end Rota
