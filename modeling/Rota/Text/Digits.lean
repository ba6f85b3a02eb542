/-! Digits of natural numbers.
`digits` writes a number without leading zeros, `padded` with at least a given
width, and `ofDigits` reads any run of ASCII digits back. -/
namespace Rota.Text

abbrev isDigit (c : Char) : Bool := c.isDigit

abbrev digits (n : Nat) : List Char := Nat.toDigits 10 n

def digitValue (c : Char) : Nat :=
  c.toNat - 48

abbrev ofDigits (s : List Char) : Nat := Nat.ofDigitChars 10 s 0

def hexValue? (c : Char) : Option Nat :=
  if isDigit c then some (c.toNat - 48)
  else if 97 ≤ c.toNat && c.toNat ≤ 102 then some (c.toNat - 87)
  else if 65 ≤ c.toNat && c.toNat ≤ 70 then some (c.toNat - 55)
  else none

def padded (width n : Nat) : List Char :=
  List.replicate (width - (digits n).length) '0' ++ digits n

def natText (n : Nat) : String :=
  String.ofList (digits n)

def intText (i : Int) : String :=
  if i < 0 then "-" ++ natText i.natAbs else natText i.natAbs

end Rota.Text
