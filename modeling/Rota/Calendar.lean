/-! The Gregorian calendar, extended over all years.
Days are counted from 1970-01-01. `ofDayNumber` finds the date of a day through
the cycles of 400, 100, 4 and 1 years, counted from 0001-01-01. -/
namespace Rota

structure Date where
  year : Int
  /-- From 1 to 12. -/
  month : Nat
  /-- From 1 to the length of the month. -/
  day : Nat
deriving DecidableEq

namespace Calendar

def isLeap (year : Int) : Bool :=
  year % 4 == 0 && (year % 100 != 0 || year % 400 == 0)

def monthLengths (year : Int) : List Nat :=
  [31, if isLeap year then 29 else 28, 31, 30, 31, 30, 31, 31, 30, 31, 30, 31]

def monthLength (year : Int) (month : Nat) : Nat :=
  (monthLengths year).getD (month - 1) 0

def daysBeforeYear (year : Int) : Int :=
  365 * (year - 1) + (year - 1) / 4 - (year - 1) / 100 + (year - 1) / 400

def daysBeforeMonth (year : Int) (month : Nat) : Nat :=
  ((monthLengths year).take (month - 1)).foldr (· + ·) 0

def epochDay : Int := 719162

def dayNumber (d : Date) : Int :=
  daysBeforeYear d.year + daysBeforeMonth d.year d.month + d.day - 1 - epochDay

/-- The year that a day lies in and the number of days of that year before it. -/
def yearOf (dayNumber : Int) : Int × Nat :=
  let n := dayNumber + epochDay
  let inCycle := n % 146097
  let century := min 3 (inCycle / 36524)
  let inCentury := inCycle - century * 36524
  let inLeapCycle := inCentury % 1461
  let single := min 3 (inLeapCycle / 365)
  (400 * (n / 146097) + 100 * century + 4 * (inCentury / 1461) + single + 1,
    (inLeapCycle - single * 365).toNat)

def monthOf (month : Nat) : List Nat → Nat → Nat × Nat
  | [], before => (month, before + 1)
  | length :: rest, before =>
    if before < length then (month, before + 1) else monthOf (month + 1) rest (before - length)

def ofDayNumber (n : Int) : Date :=
  let (year, before) := yearOf n
  let (month, day) := monthOf 1 (monthLengths year) before
  ⟨year, month, day⟩

def isValid (d : Date) : Bool :=
  1 ≤ d.month && d.month ≤ 12 && 1 ≤ d.day && d.day ≤ monthLength d.year d.month

/-- The same day `months` later, or the last day of that month when it is shorter. -/
def addMonths (d : Date) (months : Nat) : Date :=
  let index := d.year * 12 + (d.month - 1 : Nat) + months
  let year := index / 12
  let month := (index % 12).toNat + 1
  ⟨year, month, min d.day (monthLength year month)⟩

end Calendar

end Rota
