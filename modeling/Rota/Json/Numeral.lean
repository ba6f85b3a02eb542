import Rota.Json
import Rota.Binary64.Shortest
/-! Numbers as they are written in JSON.
`scan` takes a numeral from the beginning of a text, `value?` says which number it stands for.
Integers that fit 64 bits are exact. All others go through a significand of at most 64 bits:
later digits are dropped, and the significand is scaled by a power of ten in floating point. -/
namespace Rota.Json
open Rota.Text

inductive Break where
  | malformed
  | truncated
deriving DecidableEq

structure Numeral where
  negative : Bool
  whole : List Char
  /-- The digits after the point. -/
  fraction : Option (List Char)
  /-- Whether the exponent is negative, and its digits. -/
  exponent : Option (Bool × List Char)

namespace Numeral

/-- Adds digits while the result fits 64 bits; gives the result and the number of digits left. -/
def gather (significand : Nat) : List Char → Nat × Nat
  | [] => (significand, 0)
  | c :: rest =>
    let next := 10 * significand + digitValue c
    if next < 18446744073709551616 then gather next rest else (significand, rest.length + 1)

def signed (negative : Bool) (x : Binary64) : Binary64 :=
  if negative then x.neg else x

def scaled? (negative : Bool) (significand : Nat) (start : Int) :
    Option (Bool × List Char) → Option Binary64
  | none => Binary64.ofScaled? negative significand start
  | some (below, ds) =>
    let e := ofDigits ds
    if 2147483647 < e then
      if significand ≠ 0 && !below then none else some (signed negative Binary64.zero)
    else Binary64.ofScaled? negative significand (if below then start - e else start + e)

/-- The number meant; none when it is too large. Minus zero is not an integer. -/
def value? (n : Numeral) : Option Number :=
  let (significand, left) := gather 0 n.whole
  match n.fraction, n.exponent, left with
  | none, none, 0 =>
    if !n.negative then some (.int significand)
    else if significand = 0 || 9223372036854775808 < significand then
      (Binary64.ofNat? significand).map fun x => .real x.neg
    else some (.int (-significand))
  | fraction, exponent, left =>
    let ds := fraction.getD []
    let (significand, dropped) := gather significand ds
    let start : Int := left - (ds.length - dropped : Nat)
    (scaled? n.negative significand start exponent).map .real

/-- A numeral and the rest, or why there is none: for a reader of the number and for one who
only skips it, to whom the end of the text is an error like any other. -/
inductive Scan where
  | done (n : Numeral) (rest : List Char)
  | broken (read skip : Break)

def stop (rest : List Char) : Scan :=
  if rest.isEmpty then .broken .truncated .malformed else .broken .malformed .malformed

def scanExponent (n : Numeral) : List Char → Scan
  | [] => .done n []
  | c :: rest =>
    if c = 'e' || c = 'E' then
      let below := rest.head? = some '-'
      let rest := if below || rest.head? = some '+' then rest.tail else rest
      let ds := rest.takeWhile isDigit
      if ds.isEmpty then stop rest
      else .done { n with exponent := some (below, ds) } (rest.drop ds.length)
    else .done n (c :: rest)

def scanFraction (n : Numeral) : List Char → Scan
  | [] => .done n []
  | c :: rest =>
    if c = '.' then
      let ds := rest.takeWhile isDigit
      if ds.isEmpty then stop rest
      else scanExponent { n with fraction := some ds } (rest.drop ds.length)
    else scanExponent n (c :: rest)

def scanWhole (negative : Bool) (s : List Char) : Scan :=
  let ds := s.takeWhile isDigit
  if ds.isEmpty then stop s
  else if ds.head? = some '0' && 1 < ds.length then .broken .malformed .malformed
  else scanFraction ⟨negative, ds, none, none⟩ (s.drop ds.length)

def scan : List Char → Scan
  | '-' :: rest => scanWhole true rest
  | s => scanWhole false s

end Numeral

end Rota.Json

namespace Rota.Binary64

/-- The number that is read from the text of `x`. -/
def reread (x : Binary64) : Binary64 :=
  match Json.Numeral.scan x.chars with
  | .done n _ =>
    match n.value? with
    | some (.real y) => y
    | _ => x
  | _ => x

end Rota.Binary64
