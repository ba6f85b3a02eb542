import Rota.Calendar
/-! Instants of coordinated universal time, to the nanosecond.
An instant lies in the years -262143 to 262142. The last second of a minute may be
stretched by a leap second, whose nanoseconds are counted from 10^9 on. Moving an
instant gives no result when the target is outside of those years. -/
namespace Rota

structure Instant where
  /-- Seconds since 1970-01-01T00:00:00Z, leap seconds not counted. -/
  second : Int
  /-- Nanoseconds into that second; from 10^9 on inside a leap second. -/
  nano : Nat
  inRange : -8334601228800 ≤ second ∧ second < 8210266876800
  nano_lt : nano < 2000000000
  leap_end : 1000000000 ≤ nano → second % 60 = 59
deriving DecidableEq

namespace Instant

def of? (second : Int) (nano : Nat) : Option Instant :=
  if h : (-8334601228800 ≤ second ∧ second < 8210266876800) ∧ nano < 2000000000 ∧
      (1000000000 ≤ nano → second % 60 = 59) then
    some ⟨second, nano, h.1, h.2.1, h.2.2⟩
  else none

def epoch : Instant := ⟨0, 0, by decide, by decide, by decide⟩

instance : Inhabited Instant := ⟨epoch⟩

def inLeapSecond (t : Instant) : Bool :=
  1000000000 ≤ t.nano

/-- Order in time; a leap second comes after the second that it stretches. -/
def le (a b : Instant) : Bool :=
  a.second < b.second || (a.second == b.second && a.nano ≤ b.nano)

instance : LE Instant := ⟨fun a b => a.le b = true⟩
instance : LT Instant := ⟨fun a b => a.le b = true ∧ a ≠ b⟩
instance (a b : Instant) : Decidable (a ≤ b) := inferInstanceAs (Decidable (a.le b = true))
instance (a b : Instant) : Decidable (a < b) :=
  inferInstanceAs (Decidable (a.le b = true ∧ a ≠ b))

def dayNumber (t : Instant) : Int := t.second / 86400

def secondOfDay (t : Instant) : Nat := (t.second % 86400).toNat

def date (t : Instant) : Date := Calendar.ofDayNumber t.dayNumber

def carry? (second : Int) (nano : Int) (seconds nanos : Int) : Option Instant :=
  of? (second + seconds + (nano + nanos) / 1000000000) ((nano + nanos) % 1000000000).toNat

/-- Moves by a signed number of nanoseconds. A leap second counts as the second before it when
it is left forwards and as the second after it when it is left backwards. -/
def addNanos? (t : Instant) (nanos : Int) : Option Instant :=
  let seconds := nanos.tdiv 1000000000
  let rest := nanos.tmod 1000000000
  if t.inLeapSecond then
    if 0 < seconds || (0 < rest && 2000000000 ≤ t.nano + rest) then
      carry? t.second (t.nano - 1000000000) seconds rest
    else if seconds < 0 then carry? (t.second + 1) (t.nano - 1000000000) seconds rest
    else of? t.second (t.nano + rest).toNat
  else carry? t.second t.nano seconds rest

def addSeconds? (t : Instant) (seconds : Int) : Option Instant :=
  t.addNanos? (seconds * 1000000000)

def addMillis? (t : Instant) (millis : Int) : Option Instant :=
  t.addNanos? (millis * 1000000)

/-- Moves by whole calendar months, keeping the time of day and, where the month has it, the day. -/
def addMonths? (t : Instant) (months : Nat) : Option Instant :=
  if months = 0 then some t
  else
    let target := Calendar.dayNumber (Calendar.addMonths t.date months)
    match of? (target * 86400 + t.secondOfDay) t.nano with
    | some u => if u.inLeapSecond && u.second == 8210266876799 then none else some u
    | none => none

/-- Nanoseconds from `start` to `finish`. A leap second counts when the time of day of the one is
inside it and the time of day of the other comes later. -/
def nanosBetween (start finish : Instant) : Int :=
  let leap :=
    if start.secondOfDay < finish.secondOfDay && start.inLeapSecond then 1
    else if finish.secondOfDay < start.secondOfDay && finish.inLeapSecond then -1
    else 0
  (finish.second - start.second + leap) * 1000000000 + ((finish.nano : Int) - start.nano)

end Instant

end Rota
