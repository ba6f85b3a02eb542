import Rota.Validation
/-! The states that a job or pipeline goes through.
`undefined` stands for "any status" in queries and is never stored. -/
namespace Rota
open Rota.Text

inductive Status where
  | undefined
  | pending
  | scheduled
  | inProgress
  | completed
  | failed
deriving DecidableEq

namespace Status

def all : List Status := [undefined, pending, scheduled, inProgress, completed, failed]

def text : Status → String
  | undefined => "UNDEFINED"
  | pending => "PENDING"
  | scheduled => "SCHEDULED"
  | inProgress => "IN_PROGRESS"
  | completed => "COMPLETED"
  | failed => "FAILED"

def index : Status → Nat
  | undefined => 0
  | pending => 1
  | scheduled => 2
  | inProgress => 3
  | completed => 4
  | failed => 5

def isTerminal : Status → Bool
  | completed | failed => true
  | _ => false

def isActive : Status → Bool
  | scheduled | inProgress => true
  | _ => false

def validate (s : Status) : Except ValidationError Unit :=
  if s = undefined then .error (.invalidStatus s.text) else .ok ()

/-- Reads a status name in any case; the undefined status cannot be named. -/
def parse (s : String) : Except ValidationError Status :=
  match String.ofList ((trim s.toList).map Char.toUpper) with
  | "PENDING" => .ok pending
  | "SCHEDULED" => .ok scheduled
  | "IN_PROGRESS" | "INPROGRESS" => .ok inProgress
  | "COMPLETED" => .ok completed
  | "FAILED" => .ok failed
  | _ => .error (.invalidStatus s)

/-- A filter of lists; none or a blank one lets everything pass. -/
def parseFilter : Option String → Except ValidationError Status
  | none => .ok undefined
  | some s => if isBlankText s then .ok undefined else parse (String.ofList (trim s.toList))

def passes (f s : Status) : Bool := f = undefined || f = s

end Status

end Rota
