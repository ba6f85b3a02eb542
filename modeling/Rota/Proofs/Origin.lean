import Rota.Engine.Execution
import Rota.Request
import Rota.Proofs.Answer
/-! What a job keeps from its admission on.
A job is copied into queues, ticks and works, and copies are written back as whole records. Every
change that is made to a copy leaves its origin as it is: its place in a pipeline and how deeply
its record nests. Only an update changes its details, which are what a caller says of it. -/
namespace Rota

namespace Json

mutual

private theorem depth_mapReals (f : Binary64 → Binary64) (v : Json) :
    (mapReals f v).depth = v.depth := by
  cases v with
  | number n => cases n <;> rfl
  | array items => simp [mapReals, depth, depth_mapReals_items f items]
  | object fields => simp [mapReals, depth, depth_mapReals_fields f fields]
  | _ => rfl

private theorem depth_mapReals_items (f : Binary64 → Binary64) (items : List Json) :
    depthOfItems (mapRealsOfItems f items) = depthOfItems items := by
  cases items with
  | nil => rfl
  | cons v rest =>
    simp [mapRealsOfItems, depthOfItems, depth_mapReals f v, depth_mapReals_items f rest]

private theorem depth_mapReals_fields (f : Binary64 → Binary64) (fields : List (String × Json)) :
    depthOfFields (mapRealsOfFields f fields) = depthOfFields fields := by
  cases fields with
  | nil => rfl
  | cons field rest =>
    simp [mapRealsOfFields, depthOfFields, depth_mapReals f field.2, depth_mapReals_fields f rest]

end

end Json

/-- What never changes about a job. -/
structure Origin where
  id : Id
  pipelineId : Option Id
  nextJobId : Option Id
  sequence : UInt32
  depth : Nat

namespace Job

def origin (j : Job) : Origin := ⟨j.id, j.pipelineId, j.nextJobId, j.sequence, j.depth⟩

variable {j k : Job}

theorem id_of_origin (same : j.origin = k.origin) : j.id = k.id := congrArg Origin.id same

theorem pipelineId_of_origin (same : j.origin = k.origin) : j.pipelineId = k.pipelineId :=
  congrArg Origin.pipelineId same

theorem nextJobId_of_origin (same : j.origin = k.origin) : j.nextJobId = k.nextJobId :=
  congrArg Origin.nextJobId same

theorem sequence_of_origin (same : j.origin = k.origin) : j.sequence = k.sequence :=
  congrArg Origin.sequence same

theorem depth_of_origin (same : j.origin = k.origin) : j.depth = k.depth :=
  congrArg Origin.depth same

@[simp] theorem origin_markScheduled (j : Job) (t : Instant) :
    (j.markScheduled t).origin = j.origin := rfl

@[simp] theorem origin_markStarted (j : Job) (t : Instant) :
    (j.markStarted t).origin = j.origin := rfl

@[simp] theorem origin_reset (j : Job) (t : Option Instant) : (j.reset t).origin = j.origin := rfl

@[simp] theorem origin_countRun (j : Job) : j.countRun.origin = j.origin := by
  unfold countRun
  split <;> rfl

@[simp] theorem origin_applyTo (r : UpdateJob) (j : Job) : (r.applyTo j).origin = j.origin := rfl

@[simp] theorem origin_markFinished (j : Job) (result : JobResult) (t : Instant) :
    (Engine.markFinished j result t).origin = j.origin := by
  unfold Engine.markFinished
  split <;> rfl

theorem origin_recycle {interval : Interval} {now : Instant}
    (armed : j.recycle interval now = .ok k) : k.origin = j.origin := by
  obtain ⟨t, _, same⟩ := bind_ok armed
  cases same
  simp

theorem status_recycle {interval : Interval} {now : Instant}
    (armed : j.recycle interval now = .ok k) : k.status = .pending := by
  obtain ⟨t, _, same⟩ := bind_ok armed
  cases same
  rfl

/-- A read can fail only because the record nests too deeply. -/
theorem reread_ok_iff : (∃ k, j.reread = .ok k) ↔ j.depth ≤ maxDepth := by
  unfold reread
  split <;> simp_all

theorem reread_error_iff {e : StoreError} :
    j.reread = .error e ↔ e = .unreadable ∧ maxDepth < j.depth := by
  unfold reread
  split
  next shallow => simp [Nat.not_lt.mpr shallow]
  next deep =>
    simp only [Except.error.injEq, Nat.lt_of_not_le deep, and_true]
    exact eq_comm

/-- What is read of a job is the job, with every number as its text says. -/
theorem reread_ok (read : j.reread = .ok k) :
    k = { j with
      taskParams := Json.mapRealsOfFields Binary64.reread j.taskParams
      duration := j.duration.map Binary64.reread } := by
  unfold reread at read
  split at read
  next => exact (Except.ok.inj read).symm
  next => cases read

theorem origin_reread (read : j.reread = .ok k) : k.origin = j.origin := by
  rw [reread_ok read]
  simp [origin, depth, Json.depth_mapReals_fields]

theorem status_reread (read : j.reread = .ok k) : k.status = j.status := by
  rw [reread_ok read]

theorem runAt_reread (read : j.reread = .ok k) : k.runAt = j.runAt := by
  rw [reread_ok read]

theorem scheduledAt_reread (read : j.reread = .ok k) : k.scheduledAt = j.scheduledAt := by
  rw [reread_ok read]

end Job

/-! ### Details -/

structure JobDetails where
  name : String
  description : Option String
  disable : Bool
  options : JobOptions
deriving DecidableEq

structure PipelineDetails where
  name : String
  description : Option String
  disable : Bool
  options : PipelineOptions
deriving DecidableEq

namespace Job

def details (j : Job) : JobDetails := ⟨j.name, j.description, j.disable, j.options⟩

variable {j k : Job}

@[simp] theorem details_reset (j : Job) (t : Option Instant) : (j.reset t).details = j.details := rfl

@[simp] theorem details_markFinished (j : Job) (result : JobResult) (t : Instant) :
    (Engine.markFinished j result t).details = j.details := by
  unfold Engine.markFinished
  split <;> rfl

theorem details_recycle {interval : Interval} {now : Instant}
    (armed : j.recycle interval now = .ok k) : k.details = j.details := by
  obtain ⟨t, _, same⟩ := bind_ok armed
  cases same
  rw [details_reset]
  unfold countRun
  split <;> rfl

theorem details_reread (read : j.reread = .ok k) : k.details = j.details := by
  rw [reread_ok read]
  rfl

end Job

namespace Pipeline

def details (p : Pipeline) : PipelineDetails := ⟨p.name, p.description, p.disable, p.options⟩

@[simp] theorem details_pipelineAfter (p : Pipeline) (result : JobResult) (isLast : Bool)
    (t : Instant) : (Engine.pipelineAfter p result isLast t).details = p.details := by
  unfold Engine.pipelineAfter
  split
  next => rfl
  next => split <;> rfl

end Pipeline

end Rota
