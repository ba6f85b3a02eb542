import Rota.Interval
/-! What can be wrong with a job or pipeline that is to be admitted. -/
namespace Rota
open Rota.Text

inductive ValidationError where
  | missingFields (names : List String)
  | unknownTask (name : String) (valid : List String)
  | tooFewJobs (count : Nat)
  /-- The job at this position does not point at the one behind it. -/
  | brokenLink (position : Nat)
  | invalidStatus (text : String)
  | schedule (error : ScheduleError)
deriving DecidableEq

namespace ValidationError

def message : ValidationError → String
  | missingFields names => String.intercalate ", " names ++ " required"
  | unknownTask name valid => name ++ " is not a valid task name - valid tasks: " ++
      String.intercalate ", " valid
  | tooFewJobs n => "pipeline should have at least 2 jobs, " ++ natText n ++ " given"
  | brokenLink i => "pipeline job at index " ++ natText i ++ " is not linked to its successor"
  | invalidStatus text => text ++ " is not a valid job status, valid statuses: " ++
      "PENDING, SCHEDULED, IN_PROGRESS, COMPLETED, FAILED"
  | schedule e => e.message

end ValidationError

def validateInterval : Option String → Except ValidationError Unit
  | none => .ok ()
  | some expression =>
    if isBlankText expression then .ok ()
    else
      match Interval.parse expression with
      | .ok _ => .ok ()
      | .error e => .error (.schedule e)

end Rota
