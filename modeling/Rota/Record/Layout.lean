import Rota.Record.Reader
/-! The JSON form of a record with named fields.
A layout lists the fields of a record type in order: how each is written and read, when it is
left out, and what it is when it is missing. A record is written as an object. It is read from an
object, whose unknown fields are passed over, or from an array of the fields in order. -/
namespace Rota.Record
open Rota.Json

structure Field (α : Type) where
  name : String
  write : α → Json
  read : Reader α
  /-- Values that are not written. -/
  isOmitted : α → Bool
  /-- The value when an object has no such field. -/
  whenMissing : Option α
  /-- The value when an array ends before the field. -/
  whenShort : Option α

namespace Field

def required (name : String) (write : α → Json) (read : Reader α) : Field α :=
  ⟨name, write, read, fun _ => false, none, none⟩

def withDefault (name : String) (write : α → Json) (read : Reader α) (default : α) : Field α :=
  ⟨name, write, read, fun _ => false, some default, some default⟩

def writeOptional (write : α → Json) : Option α → Json
  | some v => write v
  | none => .null

/-- Null when there is no value; an array has to go on to it. -/
def nullable (name : String) (write : α → Json) (read : Reader α) : Field (Option α) :=
  ⟨name, writeOptional write, readOptional read, fun _ => false, some none, none⟩

def optional (name : String) (write : α → Json) (read : Reader α) : Field (Option α) :=
  ⟨name, writeOptional write, readOptional read, fun _ => false, some none, some none⟩

def omittable (name : String) (write : α → Json) (read : Reader α) : Field (Option α) :=
  ⟨name, writeOptional write, readOptional read, Option.isNone, some none, some none⟩

end Field

/-- Fields of a record whose values form the tuple `τ`, with the slots `σ` that are filled while
the record is read. -/
inductive Fields : (τ σ : Type) → Type 1 where
  | nil : Fields Unit Unit
  | cons {α τ σ : Type} (field : Field α) (rest : Fields τ σ) : Fields (α × τ) (Option α × σ)

namespace Fields

def count : Fields τ σ → Nat
  | nil => 0
  | cons _ rest => rest.count + 1

def write : Fields τ σ → τ → List (String × Json)
  | nil, _ => []
  | cons field rest, (v, vs) =>
    if field.isOmitted v then rest.write vs else (field.name, field.write v) :: rest.write vs

def empty : Fields τ σ → σ
  | nil => ()
  | cons _ rest => (none, rest.empty)

def fill? (source : Source) (name : String) (d : Document) :
    Fields τ σ → σ → Option (Except Fault σ)
  | nil, _ => none
  | cons field rest, (slot, slots) =>
    if field.name = name then
      match slot with
      | some _ => some (.error (.duplicateField name))
      | none => some ((field.read source d).map fun v => (some v, slots))
    else (fill? source name d rest slots).map fun r => r.map fun slots => (slot, slots)

def finish : Fields τ σ → σ → Except Fault τ
  | nil, _ => .ok ()
  | cons field rest, (slot, slots) => do
    let v ← match slot, field.whenMissing with
      | some v, _ => .ok v
      | none, some v => .ok v
      | none, none => .error (.missingField field.name)
    .ok (v, ← rest.finish slots)

def readObject (source : Source) (fields : Fields τ σ) (slots : σ) :
    List (Quoted × Document) → Except Fault σ
  | [] => .ok slots
  | (name, d) :: rest => do
    let name ← readQuoted name
    match fields.fill? source name d slots with
    | some filled => readObject source fields (← filled) rest
    | none =>
      skip d
      readObject source fields slots rest

def readArray (source : Source) (expected : String) (index : Nat) (ending : Ending) :
    Fields τ σ → List Document → Except Fault (τ × List Document)
  | nil, items => .ok ((), items)
  | cons field rest, [] => do
    readEnding ending
    match field.whenShort with
    | some v =>
      let (vs, items) ← rest.readArray source expected (index + 1) ending []
      .ok ((v, vs), items)
    | none => .error (.wrongLength index expected)
  | cons field rest, d :: items => do
    let v ← field.read source d
    let (vs, items) ← rest.readArray source expected (index + 1) ending items
    .ok ((v, vs), items)

end Fields

structure Layout (α : Type) where
  name : String
  {τ : Type}
  {σ : Type}
  fields : Fields τ σ
  toTuple : α → τ
  ofTuple : τ → α

namespace Layout

def write (l : Layout α) (v : α) : Json :=
  .object (l.fields.write (l.toTuple v))

def expected (l : Layout α) : String := "struct " ++ l.name

def expectedLength (l : Layout α) : String :=
  l.expected ++ " with " ++ Text.natText l.fields.count ++
    (if l.fields.count = 1 then " element" else " elements")

def readRest (source : Source) (length : Nat) (ending : Ending) :
    List Document → Except Fault Unit
  | [] => readEnding ending
  | _ :: _ =>
    match source with
    | .text _ => .error .malformed
    | .value => .error (.wrongLength length "fewer elements in array")

def read (l : Layout α) : Reader α := fun source d => do
  match d with
  | .object fields ending =>
    let inner ← source.enter
    let slots ← l.fields.readObject inner l.fields.empty fields
    readEnding ending
    .ok (l.ofTuple (← l.fields.finish slots))
  | .array items ending =>
    let inner ← source.enter
    let (vs, left) ← l.fields.readArray inner l.expectedLength 0 ending items
    readRest source items.length ending left
    .ok (l.ofTuple vs)
  | d => wrongType l.expected d

end Layout

end Rota.Record
