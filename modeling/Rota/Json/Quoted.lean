import Rota.Json.Numeral
import Rota.Text.Quoted
/-! Strings as they are written in JSON.
Characters outside of the first 65536 may be written as two escapes of surrogates. A surrogate
that stands alone can be skipped but not read. -/
namespace Rota.Json
open Rota.Text

inductive Quoted where
  | text (value : String)
  /-- Ends properly but holds a surrogate without its partner. -/
  | unpaired
  | broken (read skip : Break)

namespace Quoted

def hexValue4? (a b c d : Char) : Option Nat := do
  some (((← hexValue? a) * 16 + (← hexValue? b)) * 256 + (← hexValue? c) * 16 + (← hexValue? d))

def shortEscape? (c : Char) : Option Char :=
  if c = '"' || c = '\\' || c = '/' then some c
  else if c = 'b' then some (Char.ofNat 8)
  else if c = 'f' then some (Char.ofNat 12)
  else if c = 'n' then some '\n'
  else if c = 'r' then some '\r'
  else if c = 't' then some '\t'
  else none

structure Partial where
  /-- In reverse order. -/
  chars : List Char
  /-- A leading surrogate that still needs its partner. -/
  pending : Option Nat
  fault : Option Break

namespace Partial

def start : Partial := ⟨[], none, none⟩

def fail (p : Partial) : Partial :=
  { p with pending := none, fault := some (p.fault.getD .malformed) }

def push (p : Partial) (c : Char) : Partial :=
  if p.pending.isSome then p.fail else { p with chars := c :: p.chars }

def pushUnit (p : Partial) (n : Nat) : Partial :=
  match p.pending with
  | some high =>
    if 56320 ≤ n && n < 57344 then
      { p with
        chars := Char.ofNat (65536 + (high - 55296) * 1024 + (n - 56320)) :: p.chars
        pending := none }
    else p.fail
  | none =>
    if 55296 ≤ n && n < 56320 then
      if p.fault.isSome then p else { p with pending := some n }
    else if 56320 ≤ n && n < 57344 then p.fail
    else { p with chars := Char.ofNat n :: p.chars }

def close (p : Partial) : Quoted :=
  if p.pending.isSome || p.fault.isSome then .unpaired
  else .text (String.ofList p.chars.reverse)

def breakOff (p : Partial) (b : Break) : Quoted :=
  .broken (p.fault.getD b) b

end Partial

def byteCount (s : List Char) : Nat :=
  (s.map Char.utf8Size).foldr (· + ·) 0

def scan (p : Partial) : List Char → Quoted × Option (List Char)
  | [] => (p.breakOff .truncated, none)
  | '"' :: rest => (p.close, some rest)
  | '\\' :: 'u' :: a :: b :: c :: d :: rest =>
    match hexValue4? a b c d with
    | some n => scan (p.pushUnit n) rest
    | none => (p.breakOff .malformed, none)
  | '\\' :: 'u' :: rest =>
    (p.breakOff (if byteCount rest < 4 then .truncated else .malformed), none)
  | '\\' :: c :: rest =>
    match shortEscape? c with
    | some e => scan (p.push e) rest
    | none => (p.breakOff .malformed, none)
  | ['\\'] => (p.breakOff .truncated, none)
  | c :: rest =>
    if c.toNat < 32 then ((p.push c).breakOff .malformed, none) else scan (p.push c) rest

def escape (c : Char) : List Char :=
  if c = '"' then ['\\', '"']
  else if c = '\\' then ['\\', '\\']
  else if c = '\n' then ['\\', 'n']
  else if c = '\r' then ['\\', 'r']
  else if c = '\t' then ['\\', 't']
  else if c.toNat = 8 then ['\\', 'b']
  else if c.toNat = 12 then ['\\', 'f']
  else if c.toNat < 32 then ['\\', 'u', '0', '0', hexDigit (c.toNat / 16), hexDigit c.toNat]
  else [c]

def render (s : String) : List Char :=
  '"' :: s.toList.flatMap escape ++ ['"']

end Quoted

end Rota.Json
