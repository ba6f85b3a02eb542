import Rota.Job
/-! What is kept of a run: the latest result of a job, and the audit trail of recurring jobs. -/
namespace Rota

structure JobResult where
  jobId : Id
  metadata : Option Json
  /-- None on success. -/
  error : Option String

namespace JobResult

def success (jobId : Id) (metadata : Option Json) : JobResult := ⟨jobId, metadata, none⟩

def failure (jobId : Id) (error : String) : JobResult := ⟨jobId, none, some error⟩

def isSuccess (r : JobResult) : Bool := r.error.isNone

end JobResult

structure Transaction where
  id : Id
  jobId : Id
  pipelineId : Option Id
  taskName : String
  status : Status
  failureReason : Option String
  createdAt : Instant
  startedAt : Option Instant
  completedAt : Option Instant
  duration : Option Binary64

def Transaction.ofJob (id : Id) (job : Job) (now : Instant) : Transaction where
  id := id
  jobId := job.id
  pipelineId := job.pipelineId
  taskName := job.taskName
  status := job.status
  failureReason := job.failureReason
  createdAt := now
  startedAt := job.startedAt
  completedAt := job.completedAt
  duration := job.duration

end Rota
