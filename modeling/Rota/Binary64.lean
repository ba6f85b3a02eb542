import Rota.Text.Digits
/-! Finite binary floating-point numbers of 64 bits, in exact arithmetic.
Every such number is a whole multiple of 2^-1074; `units` is that multiple. Results of
arithmetic are rounded to the nearest number, a tie to the one whose last bit is zero.
NaN and the infinities are left out: no text of a record means one of them, and durations measured
between two instants are finite. -/
namespace Rota

structure Binary64 where
  negative : Bool
  /-- The magnitude as a multiple of 2^-1074. -/
  units : Nat
deriving DecidableEq

namespace Binary64

def zero : Binary64 := ⟨false, 0⟩

instance : Inhabited Binary64 := ⟨zero⟩

/-- Multiples of 2^-1074 in one. -/
def one : Nat := Nat.pow 2 1074

def excess (units : Nat) : Nat := units.log2 - 52

def divideToEven (numerator denominator : Nat) : Nat :=
  let quotient := numerator / denominator
  let twice := 2 * (numerator % denominator)
  if twice < denominator then quotient
  else if denominator < twice then quotient + 1
  else if quotient % 2 = 0 then quotient else quotient + 1

/-- The magnitude nearest to `numerator / denominator` units, without an upper limit. -/
def roundUnits (numerator denominator : Nat) : Nat :=
  let shift := excess (numerator / denominator)
  divideToEven numerator (denominator * Nat.pow 2 shift) * Nat.pow 2 shift

def ofUnits? (negative : Bool) (numerator denominator : Nat) : Option Binary64 :=
  let units := roundUnits numerator denominator
  if units < Nat.pow 2 2098 then some ⟨negative, units⟩ else none

def ofNat? (n : Nat) : Option Binary64 := ofUnits? false (n * one) 1

def ofIntOrZero (i : Int) : Binary64 :=
  (ofUnits? (decide (i < 0)) (i.natAbs * one) 1).getD zero

def mul? (x y : Binary64) : Option Binary64 :=
  ofUnits? (x.negative != y.negative) (x.units * y.units) one

def div? (x y : Binary64) : Option Binary64 :=
  ofUnits? (x.negative != y.negative) (x.units * one) y.units

def neg (x : Binary64) : Binary64 := ⟨!x.negative, x.units⟩

def tenTo (exponent : Nat) : Binary64 := (ofNat? (Nat.pow 10 exponent)).getD zero

def scaleDown (x : Binary64) : Nat → Nat → Binary64
  | 0, _ => x
  | steps + 1, exponent =>
    if exponent ≤ 308 then (x.div? (tenTo exponent)).getD zero
    else if x.units = 0 then x
    else scaleDown ((x.div? (tenTo 308)).getD zero) steps (exponent - 308)

/-- `significand * 10^exponent` in one or more rounded steps: the significand becomes a number
first, and is then multiplied or divided by a power of ten that is a number itself. -/
def ofScaled? (negative : Bool) (significand : Nat) (exponent : Int) : Option Binary64 := do
  let x ← ofNat? significand
  let y ←
    if 0 ≤ exponent then
      if exponent ≤ 308 then x.mul? (tenTo exponent.toNat)
      else if x.units = 0 then some x else none
    else some (scaleDown x (exponent.natAbs / 308 + 1) exponent.natAbs)
  some (if negative then y.neg else y)

/-- The integer part of the microseconds in `nanos`, as milliseconds; where the microseconds do
not fit 64 bits, whole milliseconds. -/
def millisOfNanos (nanos : Int) : Binary64 :=
  let seconds := nanos.tdiv 1000000000
  let micros := nanos.tdiv 1000
  if seconds.natAbs * 1000000 < 9223372036854775808 && micros.natAbs < 9223372036854775808 then
    ((ofIntOrZero micros).div? (ofIntOrZero 1000)).getD zero
  else ofIntOrZero (nanos.tdiv 1000000)

end Binary64

end Rota
