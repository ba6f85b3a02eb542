import Rota.Binary64
/-! The shortest decimal that reads as a given number.
`shortest` finds the decimal d · 10^p with the fewest digits among those that lie nearer to the
number than to any other, and of these the nearest. `text` writes it with a decimal point where
the exponent is small, and with an exponent elsewhere. -/
namespace Rota.Binary64
open Rota.Text

/-- The reals that round to a number, as bounds in quarters of 2^-1074. -/
structure Interval where
  low : Nat
  high : Nat
  /-- Whether the bounds themselves round to the number. -/
  closed : Bool

def roundingInterval (units : Nat) : Interval :=
  let quantum := Nat.pow 2 (excess units)
  let atPower := units = Nat.pow 2 units.log2 && 53 ≤ units.log2
  ⟨4 * units - (if atPower then quantum else 2 * quantum), 4 * units + 2 * quantum,
    units / quantum % 2 = 0⟩

def Interval.contains (i : Interval) (numerator denominator : Nat) : Bool :=
  if i.closed then i.low * denominator ≤ numerator && numerator ≤ i.high * denominator
  else i.low * denominator < numerator && numerator < i.high * denominator

structure Decimal where
  digits : Nat
  exponent : Int
deriving DecidableEq

def gridStep (exponent : Int) : Nat × Nat :=
  if 0 ≤ exponent then (4 * one * Nat.pow 10 exponent.toNat, 1)
  else (4 * one, Nat.pow 10 exponent.natAbs)

/-- The neighbours of the number on the grid of 10^exponent that round to it, the nearer one. -/
def onGrid? (units : Nat) (exponent : Int) : Option Decimal :=
  let (step, scale) := gridStep exponent
  let interval := roundingInterval units
  let below := 4 * units * scale / step
  let isIn (d : Nat) : Bool := interval.contains (d * step) scale
  let distanceBelow := 4 * units * scale - below * step
  let distanceAbove := (below + 1) * step - 4 * units * scale
  let nearerBelow :=
    distanceBelow < distanceAbove || (distanceBelow = distanceAbove && below % 2 = 0)
  if isIn below && (nearerBelow || !isIn (below + 1)) then some ⟨below, exponent⟩
  else if isIn (below + 1) then some ⟨below + 1, exponent⟩
  else none

def searchGrids (units : Nat) : Nat → Int → Decimal
  | 0, exponent => ⟨4 * units * (gridStep exponent).2 / (gridStep exponent).1, exponent⟩
  | fuel + 1, exponent =>
    match onGrid? units exponent with
    | some d => d
    | none => searchGrids units fuel (exponent - 1)

def startExponent (units : Nat) : Int :=
  ((units.log2 : Int) - 1074 + 1) * 30103 / 100000 + 1

def shortest (units : Nat) : Decimal :=
  searchGrids units 24 (startExponent units)

def zeros (n : Nat) : List Char := List.replicate n '0'

/-- Positional from 10^-5 on and below 10^16, elsewhere with an exponent. -/
def decimalChars (d : Decimal) : List Char :=
  let ds := digits d.digits
  let point : Int := ds.length + d.exponent
  if 0 ≤ d.exponent && point ≤ 16 then ds ++ zeros d.exponent.toNat ++ ['.', '0']
  else if 0 < point && point ≤ 16 then ds.take point.toNat ++ '.' :: ds.drop point.toNat
  else if -5 < point && point ≤ 0 then '0' :: '.' :: zeros point.natAbs ++ ds
  else
    let mantissa := if ds.length = 1 then ds else ds.take 1 ++ '.' :: ds.drop 1
    mantissa ++ 'e' :: (intText (point - 1)).toList

def chars (x : Binary64) : List Char :=
  let body := if x.units = 0 then ['0', '.', '0'] else decimalChars (shortest x.units)
  if x.negative then '-' :: body else body

def text (x : Binary64) : String := String.ofList x.chars

end Rota.Binary64
