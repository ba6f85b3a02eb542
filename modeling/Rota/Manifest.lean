import Rota.Engine.Admission
import Rota.Record.Layouts
/-! Manifests: jobs and pipelines to admit at the start.
The entries are admitted in order, the jobs first. The first that is rejected ends it; what was
admitted before stays. -/
namespace Rota
open Rota.Record

structure Manifest where
  jobs : List CreateJob
  pipelines : List CreatePipeline

open Record.Fields (cons nil)

def Manifest.layout : Layout Manifest where
  name := "Manifest"
  fields :=
    cons (.withDefault "jobs" (writeList CreateJob.layout.write)
      (readList CreateJob.layout.read) []) <|
    cons (.withDefault "pipelines" (writeList CreatePipeline.layout.write)
      (readList CreatePipeline.layout.read) []) nil
  toTuple m := (m.jobs, m.pipelines, ())
  ofTuple := fun (jobs, pipelines, _) => ⟨jobs, pipelines⟩

inductive ManifestError where
  /-- There is no file, or it holds no text. -/
  | unreadable
  | fault (fault : Fault)

inductive Rejection where
  | job (name : String) (error : AdmissionError)
  | pipeline (name : String) (error : AdmissionError)

namespace Rejection

def error : Rejection → AdmissionError
  | job _ e => e
  | pipeline _ e => e

def message : Rejection → String
  | job name _ => "Job '" ++ name ++ "' was rejected"
  | pipeline name _ => "Pipeline '" ++ name ++ "' was rejected"

def fullMessage (r : Rejection) : String := r.message ++ ": " ++ r.error.message

end Rejection

namespace Manifest

def load (content : Option ByteArray) : Except ManifestError Manifest :=
  match content.bind String.fromUTF8? with
  | none => .error .unreadable
  | some text => (readText layout.read text).mapError .fault

def admitJobs (e : Engine) : List CreateJob → Engine × Except Rejection Unit
  | [] => (e, .ok ())
  | r :: rest =>
    match e.createJob r with
    | (e, .ok _) => admitJobs e rest
    | (e, .error err) => (e, .error (.job r.name err))

def admitPipelines (e : Engine) : List CreatePipeline → Engine × Except Rejection Unit
  | [] => (e, .ok ())
  | r :: rest =>
    match e.createPipeline r with
    | (e, .ok _) => admitPipelines e rest
    | (e, .error err) => (e, .error (.pipeline r.name err))

/-- Admits all entries; gives the numbers of jobs and pipelines. -/
def apply (m : Manifest) (e : Engine) : Engine × Except Rejection (Nat × Nat) :=
  match admitJobs e m.jobs with
  | (e, .error err) => (e, .error err)
  | (e, .ok ()) =>
    match admitPipelines e m.pipelines with
    | (e, .error err) => (e, .error err)
    | (e, .ok ()) => (e, .ok (m.jobs.length, m.pipelines.length))

end Manifest

end Rota
