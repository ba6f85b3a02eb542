import Rota.Pipeline
/-! Requests to admit and to change jobs and pipelines. -/
namespace Rota

structure CreateJob where
  name : String
  description : Option String
  taskName : String
  taskParams : Params
  timeout : UInt64
  /-- A run time expression; blank and none mean now. -/
  runAt : Option String
  /-- Go straight to the job queue instead of waiting for the due scan. -/
  runNow : Bool
  disable : Bool
  options : JobOptions

/-- Fields that are none stay as they are. -/
structure UpdateJob where
  name : Option String
  description : Option String
  disable : Option Bool
  options : Option JobOptions

def UpdateJob.applyTo (r : UpdateJob) (j : Job) : Job :=
  { j with
    name := r.name.getD j.name
    description := r.description.or j.description
    disable := r.disable.getD j.disable
    options := r.options.getD j.options }

structure CreatePipelineJob where
  name : String
  description : Option String
  taskName : String
  taskParams : Params
  timeout : UInt64
  /-- Hand the result of the step before to this step's task. -/
  usePreviousResults : Bool
  options : JobOptions

structure CreatePipeline where
  name : String
  description : Option String
  runAt : Option String
  runNow : Bool
  disable : Bool
  options : PipelineOptions
  jobs : List CreatePipelineJob

structure UpdatePipeline where
  name : Option String
  description : Option String
  disable : Option Bool
  options : Option PipelineOptions

def UpdatePipeline.applyTo (r : UpdatePipeline) (p : Pipeline) : Pipeline :=
  { p with
    name := r.name.getD p.name
    description := r.description.or p.description
    disable := r.disable.getD p.disable
    options := r.options.getD p.options }

end Rota
