import Rota.Instant.Text
/-! Intervals such as "15 sec" or "2 months".
An interval expression is a number from 1 to 2^32 - 1 and a unit. Moving an instant by an
interval of months follows the calendar, by any other unit it adds seconds. -/
namespace Rota
open Rota.Text

inductive IntervalUnit where
  | second
  | minute
  | hour
  | day
  | week
  | month
deriving DecidableEq

namespace IntervalUnit

def all : List IntervalUnit := [second, minute, hour, day, week, month]

def name : IntervalUnit → String
  | second => "second"
  | minute => "minute"
  | hour => "hour"
  | day => "day"
  | week => "week"
  | month => "month"

def text : IntervalUnit → String
  | second => "sec"
  | minute => "min"
  | hour => "hour"
  | day => "day"
  | week => "week"
  | month => "month"

def aliases : IntervalUnit → List String
  | second => ["s", "sec", "secs", "second", "seconds"]
  | minute => ["m", "min", "mins", "minute", "minutes"]
  | hour => ["h", "hr", "hrs", "hour", "hours"]
  | day => ["d", "day", "days"]
  | week => ["w", "week", "weeks"]
  | month => ["month", "months"]

def ofAlias? (s : String) : Option IntervalUnit :=
  all.find? fun unit => unit.aliases.contains s

def seconds? : IntervalUnit → Option Nat
  | second => some 1
  | minute => some 60
  | hour => some 3600
  | day => some 86400
  | week => some 604800
  | month => none

end IntervalUnit

inductive ScheduleError where
  | invalidInterval (expression : String)
  | invalidRunAt (expression : String)
  | outOfRange (interval : String)
deriving DecidableEq

namespace ScheduleError

def message : ScheduleError → String
  | invalidInterval e => "invalid interval '" ++ e ++
      "': expected '<integer> <unit>' with unit one of sec, min, hour, day, week, month"
  | invalidRunAt e => "invalid run_at '" ++ e ++
      "': expected an RFC 3339 timestamp or an interval such as '15 sec'"
  | outOfRange i => "interval '" ++ i ++ "' overflows the supported date range"

end ScheduleError

structure Interval where
  amount : UInt32
  unit : IntervalUnit
deriving DecidableEq

namespace Interval

def text (i : Interval) : String :=
  natText i.amount.toNat ++ " " ++ i.unit.text

def adjust (i : Interval) (start : Instant) : Except ScheduleError Instant :=
  let next := match i.unit.seconds? with
    | some seconds => start.addSeconds? (seconds * i.amount.toNat : Nat)
    | none => start.addMonths? i.amount.toNat
  match next with
  | some next => .ok next
  | none => .error (.outOfRange i.text)

def read? (s : List Char) : Option Interval :=
  let normal := (trim s).map Char.toLower
  let amount := normal.takeWhile isDigit
  let value := ofDigits amount
  if amount = [] || value = 0 || 4294967296 ≤ value then none
  else
    (IntervalUnit.ofAlias? (String.ofList (trim (normal.dropWhile isDigit)))).map fun unit =>
      ⟨value.toUInt32, unit⟩

def parse (expression : String) : Except ScheduleError Interval :=
  match read? expression.toList with
  | some i => .ok i
  | none => .error (.invalidInterval expression)

/-- The interval of an optional expression, where none or a blank one means no interval. -/
def parseOptional : Option String → Except ScheduleError (Option Interval)
  | none => .ok none
  | some expression =>
    if isBlankText expression then .ok none
    else (parse (String.ofList (trim expression.toList))).map some

end Interval

/-- The instant that a run time expression names: a written instant, or an interval from `now`.
A blank expression names none. -/
def parseRunAt (expression : String) (now : Instant) : Except ScheduleError (Option Instant) :=
  let trimmed := trim expression.toList
  if trimmed = [] then .ok none
  else
    match Instant.ofStrict? trimmed with
    | some t => .ok (some t)
    | none =>
      match Interval.read? trimmed with
      | some interval => (interval.adjust now).map some
      | none => .error (.invalidRunAt expression)

end Rota
