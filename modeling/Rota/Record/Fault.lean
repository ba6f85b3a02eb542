import Rota.Json.Document
/-! What can be wrong with the JSON form of a record.
A fault is either in the text itself or in what the text says; `message` words those that
tasks report about their parameters. -/
namespace Rota.Record
open Rota.Text

inductive Found where
  | null
  | bool (value : Bool)
  | int (value : Int)
  | real (value : Binary64)
  | text (value : String)
  | sequence
  | map
deriving DecidableEq

def Found.message : Found → String
  | .null => "null"
  | .bool b => "boolean `" ++ (if b then "true" else "false") ++ "`"
  | .int i => "integer `" ++ intText i ++ "`"
  | .real x => "floating point `" ++ x.text ++ "`"
  | .text s => "string " ++ cite s
  | .sequence => "sequence"
  | .map => "map"

inductive Fault where
  | malformed
  | truncated
  | wrongType (found : Found) (expected : String)
  | wrongValue (found : Found) (expected : String)
  | wrongLength (length : Nat) (expected : String)
  | missingField (name : String)
  | duplicateField (name : String)
  | unknownVariant (name : String) (known : List String)
  /-- A text that is not the written form of what it should name. -/
  | unreadable (expected : String)
deriving DecidableEq

inductive Fault.Category where
  | syntactic
  | truncated
  | data
deriving DecidableEq

namespace Fault

def ofBreak : Json.Break → Fault
  | .malformed => malformed
  | .truncated => truncated

def category : Fault → Category
  | malformed => .syntactic
  | truncated => .truncated
  | _ => .data

def message : Fault → String
  | malformed => "malformed text"
  | truncated => "the text ends too early"
  | wrongType found expected => "invalid type: " ++ found.message ++ ", expected " ++ expected
  | wrongValue found expected => "invalid value: " ++ found.message ++ ", expected " ++ expected
  | wrongLength n expected => "invalid length " ++ natText n ++ ", expected " ++ expected
  | missingField name => "missing field `" ++ name ++ "`"
  | duplicateField name => "duplicate field `" ++ name ++ "`"
  | unknownVariant name known => "unknown variant `" ++ name ++ "`, expected one of " ++
      String.intercalate ", " (known.map fun k => "`" ++ k ++ "`")
  | unreadable expected => "expected " ++ expected

end Fault

end Rota.Record
