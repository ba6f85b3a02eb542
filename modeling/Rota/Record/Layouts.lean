import Rota.Instant.Text
import Rota.Record.Layout
import Rota.Request
import Rota.Transaction
/-! The JSON forms of jobs, pipelines, results, transactions and requests. -/
namespace Rota
open Rota.Record

namespace Record

def writeNat32 (n : UInt32) : Json := .nat n.toNat

def writeNat64 (n : UInt64) : Json := .nat n.toNat

def writeId (id : Id) : Json := .string id.text

def readId : Reader Id := readParsed Id.parse? "a formatted UUID string"

def writeInstant (t : Instant) : Json := .string t.text

def readInstant : Reader Instant :=
  readParsed (fun s => Instant.ofLenient? s.toList) "an RFC 3339 formatted date and time string"

def writeStatus (s : Status) : Json := .string s.text

def readStatus : Reader Status := readVariant (Status.all.map fun s => (s.text, s))

def writeUnit (u : IntervalUnit) : Json := .string u.name

def readUnit : Reader IntervalUnit := readVariant (IntervalUnit.all.map fun u => (u.name, u))

def writeList (write : α → Json) (vs : List α) : Json := .array (vs.map write)

namespace Field

def id (name : String) : Field Id := required name writeId readId

def string (name : String) : Field String := required name .string readString

def flag (name : String) : Field Bool := withDefault name .bool readBool false

def nat32 (name : String) : Field UInt32 := withDefault name writeNat32 readUInt32 0

def nat64 (name : String) : Field UInt64 := withDefault name writeNat64 readUInt64 0

def instant (name : String) : Field (Option Instant) := nullable name writeInstant readInstant

def real (name : String) : Field (Option Binary64) := nullable name .real readReal

def status : Field Status := required "status" writeStatus readStatus

def params : Field Params := withDefault "task_params" .object readMap []

def text (name : String) : Field (Option String) := optional name .string readString

def note (name : String) : Field (Option String) := omittable name .string readString

end Field

end Record

open Record.Fields (cons nil)

def JobOptions.layout : Layout JobOptions where
  name := "JobOptions"
  fields := cons (.note "run_on_interval") <| cons (.flag "on_error_retry") nil
  toTuple o := (o.runOnInterval, o.onErrorRetry, ())
  ofTuple := fun (runOnInterval, onErrorRetry, _) => ⟨runOnInterval, onErrorRetry⟩

def PipelineOptions.layout : Layout PipelineOptions where
  name := "PipelineOptions"
  fields := cons (.note "run_on_interval") <| cons (.nat64 "delay_between_task") <|
    cons (.flag "cancel_on_failure") nil
  toTuple o := (o.runOnInterval, o.delayBetweenTask, o.cancelOnFailure, ())
  ofTuple := fun (runOnInterval, delay, cancel, _) => ⟨runOnInterval, delay, cancel⟩

namespace Record.Field

def jobOptions : Field JobOptions :=
  withDefault "options" JobOptions.layout.write JobOptions.layout.read .default

def pipelineOptions : Field PipelineOptions :=
  withDefault "options" PipelineOptions.layout.write PipelineOptions.layout.read .default

end Record.Field

def Job.layout : Layout Job where
  name := "Job"
  fields :=
    cons (.id "id") <| cons (.string "name") <| cons (.note "description") <|
    cons (.flag "disable") <| cons (.nat32 "run_count") <| cons (.nat32 "fail_count") <|
    cons .jobOptions <| cons (.omittable "pipeline_id" writeId readId) <|
    cons (.omittable "next_job_id" writeId readId) <| cons (.nat32 "sequence") <|
    cons (.flag "use_previous_results") <| cons (.string "task_name") <| cons .params <|
    cons (.nat64 "timeout") <| cons .status <| cons (.note "failure_reason") <|
    cons (.instant "run_at") <| cons (.instant "scheduled_at") <| cons (.instant "created_at") <|
    cons (.instant "started_at") <| cons (.instant "completed_at") <|
    cons (.real "duration_ms") nil
  toTuple j :=
    (j.id, j.name, j.description, j.disable, j.runCount, j.failCount, j.options, j.pipelineId,
      j.nextJobId, j.sequence, j.usePreviousResults, j.taskName, j.taskParams, j.timeout,
      j.status, j.failureReason, j.runAt, j.scheduledAt, j.createdAt, j.startedAt,
      j.completedAt, j.duration, ())
  ofTuple := fun (id, name, description, disable, runCount, failCount, options, pipelineId,
      nextJobId, sequence, usePreviousResults, taskName, taskParams, timeout, status,
      failureReason, runAt, scheduledAt, createdAt, startedAt, completedAt, duration, _) =>
    ⟨id, name, description, disable, runCount, failCount, options, pipelineId, nextJobId,
      sequence, usePreviousResults, taskName, taskParams, timeout, status, failureReason, runAt,
      scheduledAt, createdAt, startedAt, completedAt, duration⟩

def Pipeline.layout : Layout Pipeline where
  name := "Pipeline"
  fields :=
    cons (.id "id") <| cons (.string "name") <| cons (.note "description") <|
    cons (.flag "disable") <| cons .pipelineOptions <|
    cons (.withDefault "jobs" (writeList Job.layout.write) (readList Job.layout.read) []) <|
    cons .status <| cons (.instant "run_at") <| cons (.instant "created_at") <|
    cons (.instant "started_at") <| cons (.instant "completed_at") <|
    cons (.real "duration_ms") nil
  toTuple p :=
    (p.id, p.name, p.description, p.disable, p.options, p.jobs, p.status, p.runAt, p.createdAt,
      p.startedAt, p.completedAt, p.duration, ())
  ofTuple := fun (id, name, description, disable, options, jobs, status, runAt, createdAt,
      startedAt, completedAt, duration, _) =>
    ⟨id, name, description, disable, options, jobs, status, runAt, createdAt, startedAt,
      completedAt, duration⟩

def JobResult.layout : Layout JobResult where
  name := "JobResult"
  fields := cons (.id "job_id") <| cons (.omittable "metadata" (fun v => v) readJson) <|
    cons (.note "error") nil
  toTuple r := (r.jobId, r.metadata, r.error, ())
  ofTuple := fun (jobId, metadata, error, _) => ⟨jobId, metadata, error⟩

def Transaction.layout : Layout Transaction where
  name := "Transaction"
  fields :=
    cons (.id "id") <| cons (.id "job_id") <| cons (.omittable "pipeline_id" writeId readId) <|
    cons (.string "task_name") <| cons .status <| cons (.note "failure_reason") <|
    cons (.required "created_at" writeInstant readInstant) <| cons (.instant "started_at") <|
    cons (.instant "completed_at") <| cons (.real "duration_ms") nil
  toTuple t :=
    (t.id, t.jobId, t.pipelineId, t.taskName, t.status, t.failureReason, t.createdAt,
      t.startedAt, t.completedAt, t.duration, ())
  ofTuple := fun (id, jobId, pipelineId, taskName, status, failureReason, createdAt, startedAt,
      completedAt, duration, _) =>
    ⟨id, jobId, pipelineId, taskName, status, failureReason, createdAt, startedAt, completedAt,
      duration⟩

def CreateJob.layout : Layout CreateJob where
  name := "CreateJob"
  fields :=
    cons (.string "name") <| cons (.text "description") <| cons (.string "task_name") <|
    cons .params <| cons (.nat64 "timeout") <| cons (.text "run_at") <| cons (.flag "run_now") <|
    cons (.flag "disable") <| cons .jobOptions nil
  toTuple r :=
    (r.name, r.description, r.taskName, r.taskParams, r.timeout, r.runAt, r.runNow, r.disable,
      r.options, ())
  ofTuple := fun (name, description, taskName, taskParams, timeout, runAt, runNow, disable,
      options, _) =>
    ⟨name, description, taskName, taskParams, timeout, runAt, runNow, disable, options⟩

def UpdateJob.layout : Layout UpdateJob where
  name := "UpdateJob"
  fields :=
    cons (.text "name") <| cons (.text "description") <|
    cons (.optional "disable" .bool readBool) <|
    cons (.optional "options" JobOptions.layout.write JobOptions.layout.read) nil
  toTuple r := (r.name, r.description, r.disable, r.options, ())
  ofTuple := fun (name, description, disable, options, _) => ⟨name, description, disable, options⟩

def CreatePipelineJob.layout : Layout CreatePipelineJob where
  name := "CreatePipelineJob"
  fields :=
    cons (.string "name") <| cons (.text "description") <| cons (.string "task_name") <|
    cons .params <| cons (.nat64 "timeout") <| cons (.flag "use_previous_results") <|
    cons .jobOptions nil
  toTuple r :=
    (r.name, r.description, r.taskName, r.taskParams, r.timeout, r.usePreviousResults, r.options,
      ())
  ofTuple := fun (name, description, taskName, taskParams, timeout, usePreviousResults, options,
      _) =>
    ⟨name, description, taskName, taskParams, timeout, usePreviousResults, options⟩

def CreatePipeline.layout : Layout CreatePipeline where
  name := "CreatePipeline"
  fields :=
    cons (.string "name") <| cons (.text "description") <| cons (.text "run_at") <|
    cons (.flag "run_now") <| cons (.flag "disable") <| cons .pipelineOptions <|
    cons (.required "jobs" (writeList CreatePipelineJob.layout.write)
      (readList CreatePipelineJob.layout.read)) nil
  toTuple r :=
    (r.name, r.description, r.runAt, r.runNow, r.disable, r.options, r.jobs, ())
  ofTuple := fun (name, description, runAt, runNow, disable, options, jobs, _) =>
    ⟨name, description, runAt, runNow, disable, options, jobs⟩

def UpdatePipeline.layout : Layout UpdatePipeline where
  name := "UpdatePipeline"
  fields :=
    cons (.text "name") <| cons (.text "description") <|
    cons (.optional "disable" .bool readBool) <|
    cons (.optional "options" PipelineOptions.layout.write PipelineOptions.layout.read) nil
  toTuple r := (r.name, r.description, r.disable, r.options, ())
  ofTuple := fun (name, description, disable, options, _) => ⟨name, description, disable, options⟩

end Rota
