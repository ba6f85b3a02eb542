import Rota.Text.Quoted
/-! Identifiers of records: numbers of 128 bits.
They are written as 32 hexadecimal digits in five groups. Identifiers that are issued here carry
the version 4 and are numbered, so no two of them are the same. -/
namespace Rota
open Rota.Text

structure Id where
  bits : BitVec 128
deriving DecidableEq

namespace Id

def groups : List Nat := [8, 4, 4, 4, 12]

def hex : Nat → Nat → List Char
  | 0, _ => []
  | count + 1, n => hex count (n / 16) ++ [hexDigit n]

def splitGroups : List Nat → List Char → List (List Char)
  | [], _ => []
  | n :: rest, s => s.take n :: splitGroups rest (s.drop n)

def text (id : Id) : String :=
  String.ofList (['-'].intercalate (splitGroups groups (hex 32 id.bits.toNat)))

def ofHex? (s : List Char) : Option Id := do
  let values ← s.mapM hexValue?
  if s.length = 32 then some ⟨BitVec.ofNat 128 (values.foldl (fun n v => n * 16 + v) 0)⟩ else none

def joinGroups? : List Nat → List Char → Option (List Char)
  | [], _ => none
  | [n], s => if s.length = n then some s else none
  | n :: rest, s => do
    match s.drop n with
    | '-' :: s' => some (s.take n ++ (← joinGroups? rest s'))
    | _ => none

def urn : List Char := ['u', 'r', 'n', ':', 'u', 'u', 'i', 'd', ':']

/-- Reads 32 digits, also in groups; digits in groups may stand in braces or behind "urn:uuid:". -/
def parse? (s : String) : Option Id :=
  let cs := s.toList
  if cs.length = 32 then ofHex? cs
  else if cs.length = 38 && cs.head? = some (Char.ofNat 123) &&
      cs.getLast? = some (Char.ofNat 125) then
    (joinGroups? groups (cs.tail.take 36)).bind ofHex?
  else if cs.length = 45 && (cs.take 9).map Char.toLower = urn then
    (joinGroups? groups (cs.drop 9)).bind ofHex?
  else (joinGroups? groups cs).bind ofHex?

def version (id : Id) : Nat := id.bits.toNat / Nat.pow 2 76 % 16

def bitsOf (low width n : Nat) : Nat := n / Nat.pow 2 low % Nat.pow 2 width

/-- The identifier issued as number `n`, whose bits lie around the version and the variant. -/
def issued (n : Nat) : Id :=
  ⟨BitVec.ofNat 128 (bitsOf 74 48 n * Nat.pow 2 80 + 4 * Nat.pow 2 76 +
    bitsOf 62 12 n * Nat.pow 2 64 + 2 * Nat.pow 2 62 + bitsOf 0 62 n)⟩

end Id

end Rota
