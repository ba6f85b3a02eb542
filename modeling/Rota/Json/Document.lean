import Rota.Json.Quoted
/-! JSON texts, taken apart but not yet understood.
A `Document` keeps the parts of a text in their order and with repeated names. Where the text
breaks off, the document ends in a part that says why; so whoever walks through it from left to
right meets the first problem first. -/
namespace Rota.Json
open Rota.Text

inductive Ending where
  | closed
  /-- Neither a comma nor the closing bracket. -/
  | noSeparator (why : Break)
  /-- Nothing that can follow a comma or an opening brace. -/
  | noPart (why : Break)

inductive Document where
  | null
  | bool (value : Bool)
  /-- None for a number that is too large. -/
  | number (value : Option Number)
  | string (q : Quoted)
  | array (items : List Document) (ending : Ending)
  | object (fields : List (Quoted × Document)) (ending : Ending)
  /-- No value: for one who reads it and for one who skips it. -/
  | broken (read skip : Break)

namespace Document

def isBlank (c : Char) : Bool :=
  c = ' ' || c = '\n' || c = '\t' || c = '\r'

def scanWord (word : Document) : List Char → List Char → Document × Option (List Char)
  | [], s => (word, some s)
  | _ :: _, [] => (.broken .truncated .truncated, none)
  | c :: letters, d :: s =>
    if c = d then scanWord word letters s else (.broken .malformed .malformed, none)

def scanNumeral (s : List Char) : Document × Option (List Char) :=
  match Numeral.scan s with
  | .done n rest => (.number n.value?, some rest)
  | .broken read skip => (.broken read skip, none)

mutual

/-- Takes a value from the beginning of a text; gives it and what follows, unless it is broken. -/
def scan : Nat → List Char → Document × Option (List Char)
  | 0, _ => (.broken .malformed .malformed, none)
  | fuel + 1, s =>
    match s.dropWhile isBlank with
    | [] => (.broken .truncated .truncated, none)
    | 'n' :: rest => scanWord .null ['u', 'l', 'l'] rest
    | 't' :: rest => scanWord (.bool true) ['r', 'u', 'e'] rest
    | 'f' :: rest => scanWord (.bool false) ['a', 'l', 's', 'e'] rest
    | '"' :: rest =>
      let (q, rest) := Quoted.scan .start rest
      (.string q, rest)
    | '[' :: rest =>
      match rest.dropWhile isBlank with
      | [] => (.array [] (.noSeparator .truncated), none)
      | ']' :: rest => (.array [] .closed, some rest)
      | rest =>
        let (items, ending, rest) := scanItems fuel rest
        (.array items ending, rest)
    | '{' :: rest =>
      match rest.dropWhile isBlank with
      | [] => (.object [] (.noSeparator .truncated), none)
      | '}' :: rest => (.object [] .closed, some rest)
      | rest =>
        let (fields, ending, rest) := scanFields fuel rest
        (.object fields ending, rest)
    | c :: rest =>
      if c = '-' || isDigit c then scanNumeral (c :: rest)
      else (.broken .malformed .malformed, none)

def scanItems : Nat → List Char → List Document × Ending × Option (List Char)
  | 0, _ => ([], .noPart .malformed, none)
  | fuel + 1, s =>
    match scan fuel s with
    | (item, none) => ([item], .closed, none)
    | (item, some rest) =>
      match rest.dropWhile isBlank with
      | [] => ([item], .noSeparator .truncated, none)
      | ']' :: rest => ([item], .closed, some rest)
      | ',' :: rest =>
        match rest.dropWhile isBlank with
        | [] => ([item], .noPart .truncated, none)
        | ']' :: _ => ([item], .noPart .malformed, none)
        | rest =>
          let (items, ending, rest) := scanItems fuel rest
          (item :: items, ending, rest)
      | _ => ([item], .noSeparator .malformed, none)

def scanFields : Nat → List Char → List (Quoted × Document) × Ending × Option (List Char)
  | 0, _ => ([], .noPart .malformed, none)
  | fuel + 1, s =>
    match s with
    | '"' :: rest =>
      match Quoted.scan .start rest with
      | (name, none) => ([(name, .broken .malformed .malformed)], .closed, none)
      | (name, some rest) =>
        match rest.dropWhile isBlank with
        | [] => ([(name, .broken .truncated .truncated)], .closed, none)
        | ':' :: rest =>
          match scan fuel rest with
          | (value, none) => ([(name, value)], .closed, none)
          | (value, some rest) =>
            match rest.dropWhile isBlank with
            | [] => ([(name, value)], .noSeparator .truncated, none)
            | '}' :: rest => ([(name, value)], .closed, some rest)
            | ',' :: rest =>
              match rest.dropWhile isBlank with
              | [] => ([(name, value)], .noPart .truncated, none)
              | rest =>
                let (fields, ending, rest) := scanFields fuel rest
                ((name, value) :: fields, ending, rest)
            | _ => ([(name, value)], .noSeparator .malformed, none)
        | _ => ([(name, .broken .malformed .malformed)], .closed, none)
    | _ => ([], .noPart .malformed, none)

end

structure Text where
  root : Document
  clean : Bool

def ofText (s : String) : Text :=
  match scan (2 * s.length + 2) s.toList with
  | (root, some rest) => ⟨root, rest.all isBlank⟩
  | (root, none) => ⟨root, true⟩

mutual

def ofJson : Json → Document
  | .null => .null
  | .bool b => .bool b
  | .number n => .number (some n)
  | .string s => .string (.text s)
  | .array items => .array (ofItems items) .closed
  | .object fields => .object (ofFields fields) .closed

def ofItems : List Json → List Document
  | [] => []
  | v :: rest => ofJson v :: ofItems rest

def ofFields : List (String × Json) → List (Quoted × Document)
  | [] => []
  | (name, v) :: rest => (.text name, ofJson v) :: ofFields rest

end

end Document

end Rota.Json
