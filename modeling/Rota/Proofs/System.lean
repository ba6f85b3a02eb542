import Rota.Engine.Admission
import Rota.Engine.Execution
import Rota.Engine.Scheduler
/-! Runs of the engine, with its steps in any order.
A system is the engine together with what is on its way: ticks that still have jobs to submit, and
works that workers hold between two of their steps. An action is one step of anybody: a call of
admission, a step of a tick, of a worker or of the clock. An action that cannot be done leaves the
system as it is, so every list of actions is a run. -/
namespace Rota

structure Tick where
  /-- Whether it is a scan for due jobs; else it is a look at the job queue. -/
  isScan : Bool
  /-- The jobs that it has still to submit, as it has read them. -/
  due : List Job
  /-- The ticket of the work that it has sent last, if that had to wait. -/
  ticket : Option Nat

namespace Tick

def isBlocked (t : Tick) (p : Pool) : Bool :=
  match t.ticket with
  | some ticket => p.isWaiting ticket
  | none => false

def isOver (t : Tick) (p : Pool) : Bool := t.due.isEmpty && !t.isBlocked p

end Tick

/-- What a worker holds between two of its steps. -/
inductive Held where
  /-- A work that it has taken and not begun. -/
  | work (h : Handover)
  /-- The rest of an execution. -/
  | rest (i : Engine.Interlude)

structure System where
  engine : Engine
  ticks : List Tick
  held : List Held

inductive Action where
  | createJob (r : CreateJob)
  | updateJob (id : Id) (r : UpdateJob)
  | deleteJob (id : Id)
  | dropJobs
  | createPipeline (r : CreatePipeline)
  | updatePipeline (id : Id) (r : UpdatePipeline)
  | deletePipeline (id : Id)
  | deleteResult (id : Id)
  /-- A tick reads the due jobs. -/
  | scan
  /-- A tick takes a job out of the queue and reads how it is stored now. -/
  | look
  /-- The tick at this place submits its next job. -/
  | submit (place : Nat)
  /-- The tick at this place, which waits for room, is given up. -/
  | abandon (place : Nat)
  /-- An idle worker takes a work. -/
  | take
  /-- The worker at this place starts the next job of what it holds. -/
  | proceed (place : Nat)
  /-- The job that runs at this place ends with a result. -/
  | finish (place : Nat) (result : JobResult)
  /-- A result is stored in the background. -/
  | save (place : Nat)
  | start
  /-- The pool accepts no more works. -/
  | stop
  | cancel
  | advance (millis : Nat)
  | closeQueue
  | closeStore

/-- Pipelines with fewer than 2^32 steps have different numbers for all of them. -/
def Action.IsShort : Action → Prop
  | .createPipeline r => r.jobs.length < 4294967296
  | _ => True

def Action.isScan : Action → Bool
  | .scan => true
  | _ => false

def Action.isTick : Action → Bool
  | .scan | .look => true
  | _ => false

namespace System

def new? (now : Instant) (registry : Registry) (queueCapacity : Nat) (unit : TimeUnit)
    (workers poolCapacity : Nat) : Option System :=
  (Engine.new? now registry queueCapacity unit workers poolCapacity).map fun e => ⟨e, [], []⟩

def withEngine (s : System) (e : Engine) : System := { s with engine := e }

def withPool (s : System) (p : Pool) : System := s.withEngine { s.engine with pool := p }

/-! ### Steps of ticks -/

def scan (s : System) : System :=
  match s.engine.store.getDueJobs s.engine.now with
  | .ok due => { s with ticks := s.ticks ++ [⟨true, due, none⟩] }
  | .error _ => s

def look (s : System) : System :=
  match s.engine.queue.pop with
  | (none, _) => s
  | (some queued, queue) =>
    match s.engine.store.getJob queued.id with
    | .ok job => ⟨{ s.engine with queue := queue }, s.ticks ++ [⟨false, [job], none⟩], s.held⟩
    | .error _ => s.withEngine { s.engine with queue := queue }

def next? (s : System) (place : Nat) : Option Job := s.ticks[place]?.bind (·.due.head?)

def afterSubmission (ticks : List Tick) (place : Nat) (isScan : Bool) (rest : List Job) :
    Submission → List Tick
  | .overflow => ticks.eraseIdx place
  | .waiting ticket => ticks.set place ⟨isScan, rest, some ticket⟩
  | _ => ticks.set place ⟨isScan, rest, none⟩

def submitNext (s : System) (place : Nat) : System :=
  match s.ticks[place]? with
  | some ⟨isScan, job :: rest, ticket⟩ =>
    if Tick.isBlocked ⟨isScan, job :: rest, ticket⟩ s.engine.pool then s
    else
      let (e, submission) := s.engine.submit job
      ⟨e, afterSubmission s.ticks place isScan rest submission, s.held⟩
  | _ => s

def abandon (s : System) (place : Nat) : System :=
  match s.ticks[place]? with
  | some ⟨_, _, some ticket⟩ =>
    if s.engine.pool.isWaiting ticket then
      { s.withPool (s.engine.pool.abandon ticket) with ticks := s.ticks.eraseIdx place }
    else s
  | _ => s

/-! ### Steps of workers -/

def hasIdleWorker (s : System) : Bool :=
  s.engine.pool.isStarted && s.engine.pool.busyWorkers + s.held.length < s.engine.pool.workers

def take (s : System) : System :=
  if s.hasIdleWorker then
    match s.engine.pool.take? with
    | some (h, pool) => { s.withPool pool with held := s.held ++ [.work h] }
    | none => s
  else s

def proceed (s : System) (place : Nat) : System :=
  match s.held[place]? with
  | none => s
  | some (.work h) =>
    let held := s.held.eraseIdx place
    match s.engine.beginWork .worker h with
    | (e, .ok (some x)) => ⟨e.addExecution x, s.ticks, held⟩
    | (e, _) => ⟨e, s.ticks, held⟩
  | some (.rest i) =>
    let held := s.held.eraseIdx place
    match s.engine.goOn i with
    | (e, .inl x) => ⟨e.addExecution x, s.ticks, held⟩
    | (e, .inr ended) => ⟨e.endExecution i.executor ended, s.ticks, held⟩

/-- Ends the job that runs at `place`, if the result is one of that job. -/
def finish (s : System) (place : Nat) (result : JobResult) : System :=
  match s.engine.pool.executing[place]? with
  | none => s
  | some x =>
    if result.jobId = x.current.id then
      let e := { s.engine with pool :=
        { s.engine.pool with executing := s.engine.pool.executing.eraseIdx place } }
      match e.concludeJob x result with
      | (e, .inl i) => ⟨e, s.ticks, s.held ++ [.rest i]⟩
      | (e, .inr ended) => ⟨e.endExecution x.executor ended, s.ticks, s.held⟩
    else s

def save (s : System) (place : Nat) : System :=
  match s.engine.pool.unsaved[place]? with
  | none => s
  | some result =>
    let s := s.withPool { s.engine.pool with unsaved := s.engine.pool.unsaved.eraseIdx place }
    match s.engine.store.createResult result with
    | .ok store => s.withEngine (s.engine.withStore store)
    | .error _ => s

/-! ### Runs -/

def perform (s : System) : Action → System
  | .createJob r => s.withEngine (s.engine.createJob r).1
  | .updateJob id r => s.withEngine (s.engine.updateJob id r).1
  | .deleteJob id => s.withEngine (s.engine.deleteJob id).1
  | .dropJobs => s.withEngine s.engine.dropJobs.1
  | .createPipeline r => s.withEngine (s.engine.createPipeline r).1
  | .updatePipeline id r => s.withEngine (s.engine.updatePipeline id r).1
  | .deletePipeline id => s.withEngine (s.engine.deletePipeline id).1
  | .deleteResult id => s.withEngine (s.engine.deleteResult id).1
  | .scan => s.scan
  | .look => s.look
  | .submit place => s.submitNext place
  | .abandon place => s.abandon place
  | .take => s.take
  | .proceed place => s.proceed place
  | .finish place result => s.finish place result
  | .save place => s.save place
  | .start => s.withEngine s.engine.start
  | .stop => s.withPool { s.engine.pool with isAccepting := false, isUnjoined := false }
  | .cancel => s.withEngine s.engine.cancel
  | .advance millis => s.withEngine (s.engine.advance millis)
  | .closeQueue => s.withEngine { s.engine with queue := s.engine.queue.close }
  | .closeStore => s.withEngine (s.engine.withStore s.engine.store.close)

def run (s : System) (actions : List Action) : System := actions.foldl perform s

@[simp] theorem run_nil (s : System) : s.run [] = s := rfl

@[simp] theorem run_cons (s : System) (a : Action) (actions : List Action) :
    s.run (a :: actions) = (s.perform a).run actions := rfl

theorem run_append (s : System) (first second : List Action) :
    s.run (first ++ second) = (s.run first).run second := List.foldl_append

/-- Every action is one that is allowed where it is performed. -/
def Along (allowed : System → Action → Prop) : System → List Action → Prop
  | _, [] => True
  | s, a :: rest => allowed s a ∧ Along allowed (s.perform a) rest

instance Along.decidable {allowed : System → Action → Prop}
    [∀ s a, Decidable (allowed s a)] : ∀ s actions, Decidable (Along allowed s actions)
  | _, [] => inferInstanceAs (Decidable True)
  | s, a :: rest =>
    have : Decidable (Along allowed (s.perform a) rest) := decidable (s.perform a) rest
    inferInstanceAs (Decidable (allowed s a ∧ Along allowed (s.perform a) rest))

theorem Along.and {allowed allowed' : System → Action → Prop} {s : System} {actions : List Action}
    (along : Along allowed s actions) (along' : Along allowed' s actions) :
    Along (fun t a => allowed t a ∧ allowed' t a) s actions := by
  induction actions generalizing s with
  | nil => trivial
  | cons a rest ih => exact ⟨⟨along.1, along'.1⟩, ih along.2 along'.2⟩

/-! ### An example

A pipeline of two jobs, of which the first recurs, runs as soon as it is admitted. When its first
job has ended, a worker starts the second. -/

def exampleStep (name : String) (interval : Option String) : CreatePipelineJob :=
  ⟨name, none, "noop", [], 0, false, ⟨interval, false⟩⟩

def exampleRequest : CreatePipeline where
  name := "report"
  description := none
  runAt := none
  runNow := true
  disable := false
  options := .default
  jobs := [exampleStep "collect" (some "1 sec"), exampleStep "send" none]

def start : System := (new? .epoch [("noop", .noop)] 4 .second 1 1).get (by rfl)

theorem new_start : new? .epoch [("noop", .noop)] 4 .second 1 1 = some start :=
  (Option.some_get _).symm

def firstJob : List Action :=
  [.createPipeline exampleRequest, .start, .look, .submit 0, .take, .proceed 0,
    .finish 0 (.success (.issued 1) none), .proceed 0]

theorem short_firstJob : ∀ a ∈ firstJob, a.IsShort := by
  simp [firstJob, Action.IsShort, exampleRequest]

end System

end Rota
