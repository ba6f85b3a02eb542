import Rota.Text.Digits
/-! Quoted text inside messages.
A text that a message cites stands between double quotes; quotes, backslashes and
characters without a visible form are written as escapes. -/
namespace Rota.Text

def hexDigit (n : Nat) : Char :=
  if n % 16 < 10 then Char.ofNat (48 + n % 16) else Char.ofNat (87 + n % 16)

def hexDigits (n : Nat) : List Char :=
  if n < 16 then [hexDigit n] else hexDigits (n / 16) ++ [hexDigit n]
termination_by n

/-- Control characters, and the blanks other than the space, have no visible form. -/
def isInvisible (c : Char) : Bool :=
  c.toNat < 32 || (127 ≤ c.toNat && c.toNat ≤ 160) || c.toNat == 173 ||
    c.toNat == 5760 || (8192 ≤ c.toNat && c.toNat ≤ 8207) ||
    (8232 ≤ c.toNat && c.toNat ≤ 8239) || (8287 ≤ c.toNat && c.toNat ≤ 8303) ||
    c.toNat == 12288 || c.toNat == 65279

def citeChar (c : Char) : List Char :=
  if c = '"' then ['\\', '"']
  else if c = '\\' then ['\\', '\\']
  else if c = '\n' then ['\\', 'n']
  else if c = '\r' then ['\\', 'r']
  else if c = '\t' then ['\\', 't']
  else if c.toNat = 0 then ['\\', '0']
  else if isInvisible c then
    ['\\', 'u', Char.ofNat 123] ++ hexDigits c.toNat ++ [Char.ofNat 125]
  else [c]

def cite (s : String) : String :=
  String.ofList (['"'] ++ s.toList.flatMap citeChar ++ ['"'])

end Rota.Text
