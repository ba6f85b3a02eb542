import Rota.Text.Digits
/-! Units in which timeouts and polling intervals are counted, the text of a span of time, and
timers. -/
namespace Rota
open Rota.Text

inductive TimeUnit where
  | second
  | millisecond
deriving DecidableEq

namespace TimeUnit

def all : List TimeUnit := [second, millisecond]

def name : TimeUnit → String
  | second => "second"
  | millisecond => "millisecond"

def millis : TimeUnit → Nat
  | second => 1000
  | millisecond => 1

end TimeUnit

/-- A span of time: seconds with the decimals needed, or milliseconds below one second. -/
def spanText (millis : Nat) : String :=
  if millis < 1000 then natText millis ++ "ms"
  else
    let rest := millis % 1000
    let decimals := if rest = 0 then [] else
      '.' :: ((padded 3 rest).reverse.dropWhile (· = '0')).reverse
    natText (millis / 1000) ++ String.ofList decimals ++ "s"

namespace Timer

/-- The longest that a timer waits, in milliseconds: thirty years. -/
def longest : Nat := 30 * 365 * 86400000

def wait (millis : Nat) : Nat := min millis longest

end Timer

end Rota
