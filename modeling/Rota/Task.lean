import Rota.Record.Layouts
import Rota.TimeUnit
/-! Tasks: what a job runs.
A task gets the job's parameters and, in a pipeline, the result of the job before. It answers
after some time with a value, an error with its causes, or by crashing. -/
namespace Rota
open Rota.Record Rota.Text

inductive Outcome where
  | value (v : Json)
  /-- The messages of an error and of its causes, outermost first. -/
  | failure (messages : List String)
  /-- The task crashed, with this message if it left one. -/
  | crash (message : Option String)

structure TaskRun where
  delay : Nat
  outcome : Outcome

abbrev Task := Params → Option Json → TaskRun

abbrev Registry := List (String × Task)

inductive TaskError where
  | notRegistered (name : String)
  | invalidInput (fault : Fault)

namespace TaskError

def message : TaskError → String
  | notRegistered name => "task " ++ name ++ " is not registered"
  | invalidInput fault => "invalid task input: " ++ fault.message

def messages : TaskError → List String
  | notRegistered name => [(notRegistered name).message]
  | invalidInput fault => [(invalidInput fault).message, fault.message]

end TaskError

namespace Registry

def find? (r : Registry) (name : String) : Option Task := r.lookup name

def names (r : Registry) : List String := Job.sortNames (r.map (·.1))

def run (r : Registry) (name : String) (params : Params) (previous : Option Json) : TaskRun :=
  match r.find? name with
  | some task => task params previous
  | none => ⟨0, .failure (TaskError.notRegistered name).messages⟩

end Registry

def decodeParams (l : Layout α) (params : Params) : Except TaskError α :=
  (readValue l.read (.object params)).mapError .invalidInput

def decodePrevious (read : Reader α) : Option Json → Except TaskError (Option α)
  | none => .ok none
  | some v => ((readValue read v).map some).mapError .invalidInput

/-- The result that an outcome leaves behind; null is no metadata. -/
def Outcome.result (jobId : Id) : Outcome → JobResult
  | value .null => .success jobId none
  | value v => .success jobId (some v)
  | failure messages => .failure jobId (String.intercalate ": " messages)
  | crash message => .failure jobId ("task panicked: " ++ message.getD "unknown panic")

namespace Task

def immediate (outcome : Outcome) : TaskRun := ⟨0, outcome⟩

def withParams (l : Layout α) (run : α → TaskRun) (params : Params) : TaskRun :=
  match decodeParams l params with
  | .ok v => run v
  | .error e => immediate (.failure e.messages)

def noop : Task := fun _ _ => immediate (.value .null)

def echo : Task := fun params previous =>
  let fields := Json.normalFields params
  immediate (.value (.object (match previous with
    | some v => Json.insertField "previous" v fields
    | none => fields)))

structure SleepParams where
  secs : Option UInt64
  millis : Option UInt64

open Record.Fields (cons nil)

def SleepParams.layout : Layout SleepParams where
  name := "SleepParams"
  fields := cons (.optional "secs" writeNat64 readUInt64) <|
    cons (.optional "millis" writeNat64 readUInt64) nil
  toTuple p := (p.secs, p.millis, ())
  ofTuple := fun (secs, millis, _) => ⟨secs, millis⟩

/-- Answers what it was asked for, also where the timer waits less. -/
def sleepFor (millis : Nat) : TaskRun :=
  ⟨Timer.wait millis, .value (.object [("slept_ms", .nat (millis % UInt64.size))])⟩

def sleep : Task := fun params _ =>
  withParams SleepParams.layout (fun p =>
    match p.secs, p.millis with
    | some secs, _ => sleepFor (secs.toNat * 1000)
    | none, some millis => sleepFor millis.toNat
    | none, none => immediate (.failure ["sleep requires either 'secs' or 'millis'"])) params

structure FailParams where
  text : Option String

def FailParams.layout : Layout FailParams where
  name := "FailParams"
  fields := cons (.text "message") nil
  toTuple p := (p.text, ())
  ofTuple := fun (text, _) => ⟨text⟩

def fail : Task := fun params _ =>
  withParams FailParams.layout (fun p =>
    immediate (.failure [p.text.getD "task failed"])) params

structure PingParams where
  host : String
  port : Nat
  attempts : UInt32
  /-- So many failures fail the task; all of them when none is given. -/
  maxFailures : Option UInt32
  timeout : UInt64

def PingParams.layout : Layout PingParams where
  name := "PingParams"
  fields := cons (.string "host") <| cons (.withDefault "port" .nat readUInt16 80) <|
    cons (.withDefault "attempts" writeNat32 readUInt32 3) <|
    cons (.optional "max_failures" writeNat32 readUInt32) <|
    cons (.withDefault "timeout_ms" writeNat64 readUInt64 300) nil
  toTuple p := (p.host, p.port, p.attempts, p.maxFailures, p.timeout, ())
  ofTuple := fun (host, port, attempts, maxFailures, timeout, _) =>
    ⟨host, port, attempts, maxFailures, timeout⟩

/-- Counts failed connections; nobody listens here, so every attempt fails. -/
def ping : Task := fun params _ =>
  withParams PingParams.layout (fun p =>
    let address := p.host ++ ":" ++ natText p.port
    let failures := p.attempts.toNat
    let allowed := max ((p.maxFailures.getD p.attempts).toNat) 1
    if allowed ≤ failures then
      immediate (.failure ["ping " ++ address ++ " failed " ++ natText failures ++
        " time(s), allowed fewer than " ++ natText allowed])
    else
      immediate (.value (.object [("address", .string address),
        ("attempts", .nat p.attempts.toNat), ("avg_latency_ms", .null),
        ("failures", .nat failures)]))) params

end Task

def Registry.builtin : Registry :=
  [("noop", Task.noop), ("echo", Task.echo), ("sleep", Task.sleep), ("fail", Task.fail),
    ("ping", Task.ping)]

end Rota
