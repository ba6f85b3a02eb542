import Rota.Record.Fault
/-! Reading values of known types from JSON documents.
A reader walks through a document from left to right and stops at the first fault. Records in
texts may nest at most 127 arrays and objects; values that have been read before have no limit. -/
namespace Rota.Record
open Rota.Json Rota.Text

inductive Source where
  /-- A text in which so many more arrays and objects may be entered. -/
  | text (room : Nat)
  | value
deriving DecidableEq

def Source.enter : Source → Except Fault Source
  | .text 0 => .error .malformed
  | .text (room + 1) => .ok (.text room)
  | .value => .ok .value

abbrev Reader (α : Type) := Source → Document → Except Fault α

def maxNesting : Nat := 127

def readQuoted : Quoted → Except Fault String
  | .text s => .ok s
  | .unpaired => .error .malformed
  | .broken read _ => .error (.ofBreak read)

def skipQuoted : Quoted → Except Fault Unit
  | .broken _ skip => .error (.ofBreak skip)
  | _ => .ok ()

def readNumber : Option Number → Except Fault Number
  | some n => .ok n
  | none => .error .malformed

def found : Document → Except Fault Found
  | .null => .ok .null
  | .bool b => .ok (.bool b)
  | .number n => do
    match ← readNumber n with
    | .int i => .ok (.int i)
    | .real x => .ok (.real x)
  | .string q => do .ok (.text (← readQuoted q))
  | .array _ _ => .ok .sequence
  | .object _ _ => .ok .map
  | .broken read _ => .error (.ofBreak read)

def wrongType (expected : String) (d : Document) : Except Fault α := do
  .error (.wrongType (← found d) expected)

def readEnding : Ending → Except Fault Unit
  | .closed => .ok ()
  | .noSeparator why => .error (.ofBreak why)
  | .noPart why => .error (.ofBreak why)

mutual

def skip : Document → Except Fault Unit
  | .string q => skipQuoted q
  | .array items ending => do
    skipItems items
    readEnding ending
  | .object fields ending => do
    skipFields fields
    readEnding ending
  | .broken _ skip => .error (.ofBreak skip)
  | _ => .ok ()

def skipItems : List Document → Except Fault Unit
  | [] => .ok ()
  | d :: rest => do
    skip d
    skipItems rest

def skipFields : List (Quoted × Document) → Except Fault Unit
  | [] => .ok ()
  | (name, d) :: rest => do
    skipQuoted name
    skip d
    skipFields rest

end

mutual

def readJson : Reader Json := fun source d =>
  match d with
  | .null => .ok .null
  | .bool b => .ok (.bool b)
  | .number n => do .ok (.number (← readNumber n))
  | .string q => do .ok (.string (← readQuoted q))
  | .array items ending => do
    let inner ← source.enter
    let values ← readJsonItems inner items
    readEnding ending
    .ok (.array values)
  | .object fields ending => do
    let inner ← source.enter
    let values ← readJsonFields inner fields
    readEnding ending
    .ok (.object (normalFields values))
  | .broken read _ => .error (.ofBreak read)
termination_by structural _ d => d

def readJsonItems (source : Source) : List Document → Except Fault (List Json)
  | [] => .ok []
  | d :: rest => do
    let v ← readJson source d
    .ok (v :: (← readJsonItems source rest))

def readJsonFields (source : Source) :
    List (Quoted × Document) → Except Fault (List (String × Json))
  | [] => .ok []
  | (name, d) :: rest => do
    let name ← readQuoted name
    let v ← readJson source d
    .ok ((name, v) :: (← readJsonFields source rest))

end

def readBool : Reader Bool
  | _, .bool b => .ok b
  | _, d => wrongType "a boolean" d

def readString : Reader String
  | _, .string q => readQuoted q
  | _, d => wrongType "a string" d

def readNat (bound : Nat) (expected : String) : Reader Nat := fun _ d => do
  match d with
  | .number n =>
    match ← readNumber n with
    | .int i =>
      if 0 ≤ i ∧ i < bound then .ok i.toNat else .error (.wrongValue (.int i) expected)
    | .real x => .error (.wrongType (.real x) expected)
  | d => wrongType expected d

def readUInt8 : Reader Nat := readNat UInt8.size "u8"

def readUInt16 : Reader Nat := readNat UInt16.size "u16"

def readUInt32 : Reader UInt32 := fun source d => do
  .ok (UInt32.ofNat (← readNat UInt32.size "u32" source d))

def readUInt64 : Reader UInt64 := fun source d => do
  .ok (UInt64.ofNat (← readNat UInt64.size "u64" source d))

def readReal : Reader Binary64 := fun _ d => do
  match d with
  | .number n =>
    match ← readNumber n with
    | .int i => .ok (Binary64.ofIntOrZero i)
    | .real x => .ok x
  | d => wrongType "f64" d

def readOptional (read : Reader α) : Reader (Option α)
  | _, .null => .ok none
  | source, d => do .ok (some (← read source d))

def readParsed (parse : String → Option α) (expected : String) : Reader α := fun _ d => do
  match d with
  | .string q =>
    match parse (← readQuoted q) with
    | some v => .ok v
    | none => .error (.unreadable expected)
  | d => wrongType expected d

def readItems (read : Reader α) (source : Source) : List Document → Except Fault (List α)
  | [] => .ok []
  | d :: rest => do
    let v ← read source d
    .ok (v :: (← readItems read source rest))

def readList (read : Reader α) : Reader (List α) := fun source d => do
  match d with
  | .array items ending =>
    let inner ← source.enter
    let values ← readItems read inner items
    readEnding ending
    .ok values
  | d => wrongType "a sequence" d

def readMap : Reader (List (String × Json)) := fun source d => do
  match d with
  | .object fields ending =>
    let inner ← source.enter
    let values ← readJsonFields inner fields
    readEnding ending
    .ok (normalFields values)
  | d => wrongType "a map" d

def readNull : Document → Except Fault Unit
  | .null => .ok ()
  | d => wrongType "unit" d

/-- One of some names, written as a text or as an object with the name as its only field. -/
def readVariant (known : List (String × α)) : Reader α := fun source d => do
  let pick (name : String) : Except Fault α :=
    match known.lookup name with
    | some v => .ok v
    | none => .error (.unknownVariant name (known.map (·.1)))
  match source, d with
  | _, .string q => pick (← readQuoted q)
  | .text _, .object fields ending =>
    let _ ← source.enter
    match fields with
    | [] =>
      readEnding ending
      .error .malformed
    | (name, d) :: rest =>
      let v ← pick (← readQuoted name)
      readNull d
      match rest, ending with
      | [], .closed => .ok v
      | [], .noSeparator why => .error (.ofBreak why)
      | _, _ => .error .malformed
  | .value, .object [(name, d)] _ =>
    let v ← pick (← readQuoted name)
    readNull d
    .ok v
  | .value, .object _ _ => .error (.wrongValue .map "map with a single key")
  | .value, d => wrongType "string or map" d
  | .text _, .broken read _ => .error (.ofBreak read)
  | .text _, _ => .error .malformed

def readText (read : Reader α) (s : String) : Except Fault α := do
  let text := Document.ofText s
  let v ← read (.text maxNesting) text.root
  if text.clean then .ok v else .error .malformed

def readValue (read : Reader α) (v : Json) : Except Fault α :=
  read .value (Document.ofJson v)

end Rota.Record
