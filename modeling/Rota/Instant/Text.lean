import Rota.Instant
import Rota.Text.Blank
import Rota.Text.Digits
/-! Written forms of instants (RFC 3339).
`text` writes the one form used in records and answers: in UTC, with the fewest of
0, 3, 6 or 9 decimals. `ofStrict?` reads the standard's form with any offset, `ofLenient?`
also blanks between the parts, other widths, and years of more than four digits. -/
namespace Rota.Instant
open Rota.Text

def yearText (year : Int) : List Char :=
  if 0 ≤ year ∧ year ≤ 9999 then padded 4 year.toNat
  else (if year < 0 then '-' else '+') :: padded 4 year.natAbs

/-- No decimals, or the first of three, six and nine that says all. -/
def fractionText (nano : Nat) : List Char :=
  if nano = 0 then []
  else if nano % 1000000 = 0 then '.' :: padded 3 (nano / 1000000)
  else if nano % 1000 = 0 then '.' :: padded 6 (nano / 1000)
  else '.' :: padded 9 nano

def chars (t : Instant) : List Char :=
  let date := t.date
  let clock := t.secondOfDay
  let leap := if t.inLeapSecond then 1 else 0
  yearText date.year ++ '-' :: padded 2 date.month ++ '-' :: padded 2 date.day ++
    'T' :: padded 2 (clock / 3600) ++ ':' :: padded 2 (clock / 60 % 60) ++
    ':' :: padded 2 (clock % 60 + leap) ++ fractionText (t.nano % 1000000000) ++ ['Z']

def text (t : Instant) : String := String.ofList t.chars

structure Reading where
  year : Int
  month : Nat
  day : Nat
  hour : Nat
  minute : Nat
  second : Nat
  nano : Nat
  /-- Seconds by which the local time is ahead of UTC. -/
  offset : Int

def ofReading? (r : Reading) : Option Instant :=
  if Calendar.isValid ⟨r.year, r.month, r.day⟩ && (-262143 ≤ r.year && r.year ≤ 262142) &&
      r.hour < 24 && r.minute < 60 && r.second ≤ 60 && (-86400 < r.offset && r.offset < 86400) then
    let clock := r.hour * 3600 + r.minute * 60 + min r.second 59
    of? (Calendar.dayNumber ⟨r.year, r.month, r.day⟩ * 86400 + clock - r.offset)
      (if r.second = 60 then r.nano + 1000000000 else r.nano)
  else none

def takeNumber? (least most : Nat) (s : List Char) : Option (Nat × List Char) :=
  let run := (s.take most).takeWhile isDigit
  if least ≤ run.length ∧ run ≠ [] then some (ofDigits run, s.drop run.length) else none

def takeChar? (c : Char) : List Char → Option (List Char)
  | d :: rest => if d = c then some rest else none
  | [] => none

/-- Nanoseconds after a decimal point; digits after the ninth are cut off. -/
def takeFraction? : List Char → Option (Nat × List Char)
  | '.' :: rest => do
    let run := (rest.take 9).takeWhile isDigit
    if run = [] then none
    else some (ofDigits run * Nat.pow 10 (9 - run.length), (rest.drop run.length).dropWhile isDigit)
  | rest => some (0, rest)

def takeTwoDigits? : List Char → Option (Nat × List Char)
  | a :: b :: rest =>
    if isDigit a && isDigit b then some (10 * digitValue a + digitValue b, rest) else none
  | _ => none

/-- The sign of an offset; the character U+2212 is a minus sign too. -/
def takeSign? : List Char → Option (Int × List Char)
  | c :: rest =>
    if c = '+' then some (1, rest)
    else if c = '-' || c.toNat = 8722 then some (-1, rest)
    else none
  | [] => none

def takeOffset? (separator : List Char → Option (List Char)) (s : List Char) :
    Option (Int × List Char) :=
  match s with
  | 'Z' :: rest | 'z' :: rest => some (0, rest)
  | s => do
    let (sign, s) ← takeSign? s
    let (hours, s) ← takeTwoDigits? s
    let s ← separator s
    let (minutes, s) ← takeTwoDigits? s
    if minutes < 60 then some (sign * (hours * 3600 + minutes * 60 : Nat), s) else none

def isDateTimeSeparator (c : Char) : Bool :=
  c = 'T' || c = 't' || c = ' '

def takeSeparator? : List Char → Option (List Char)
  | c :: rest => if isDateTimeSeparator c then some rest else none
  | [] => none

/-- The standard's form: fixed widths, nothing left out, nothing around it. -/
def ofStrict? (s : List Char) : Option Instant := do
  let (year, s) ← takeNumber? 4 4 s
  let s ← takeChar? '-' s
  let (month, s) ← takeNumber? 2 2 s
  let s ← takeChar? '-' s
  let (day, s) ← takeNumber? 2 2 s
  let s ← takeSeparator? s
  let (hour, s) ← takeNumber? 2 2 s
  let s ← takeChar? ':' s
  let (minute, s) ← takeNumber? 2 2 s
  let s ← takeChar? ':' s
  let (second, s) ← takeNumber? 2 2 s
  let (nano, s) ← takeFraction? s
  let (offset, s) ← takeOffset? (takeChar? ':') s
  if s.isEmpty then ofReading? ⟨year, month, day, hour, minute, second, nano, offset⟩ else none

def takeYear? (s : List Char) : Option (Int × List Char) :=
  match s with
  | '-' :: rest => (takeNumber? 1 rest.length rest).map fun (n, s) => (-(n : Int), s)
  | '+' :: rest => (takeNumber? 1 rest.length rest).map fun (n, s) => ((n : Int), s)
  | s => (takeNumber? 1 4 s).map fun (n, s) => ((n : Int), s)

def takeZone? (s : List Char) : Option (Int × List Char) :=
  if (s.take 3).map Char.toUpper = ['U', 'T', 'C'] then some (0, s.drop 3)
  else takeOffset? (fun s => some (s.dropWhile fun c => c = ':' || isBlank c)) s

/-- The form read in records: blanks may stand before each number and each mark and at the ends. -/
def ofLenient? (s : List Char) : Option Instant := do
  let (year, s) ← takeYear? (trimStart s)
  let s ← takeChar? '-' (trimStart s)
  let (month, s) ← takeNumber? 1 2 (trimStart s)
  let s ← takeChar? '-' (trimStart s)
  let (day, s) ← takeNumber? 1 2 (trimStart s)
  let s ← takeSeparator? s
  let (hour, s) ← takeNumber? 1 2 (trimStart s)
  let s ← takeChar? ':' (trimStart s)
  let (minute, s) ← takeNumber? 1 2 (trimStart s)
  let s ← takeChar? ':' (trimStart s)
  let (second, s) ← takeNumber? 1 2 (trimStart s)
  let (nano, s) ← takeFraction? s
  let (offset, s) ← takeZone? (trimStart s)
  if (trimStart s).isEmpty then
    ofReading? ⟨year, month, day, hour, minute, second, nano, offset⟩
  else none

end Rota.Instant
