import Rota.Binary64
/-! JSON values.
An integer of at most 64 bits stays an integer, every other number is a `Binary64`. An object
is in normal form when its fields are sorted by name and no name occurs twice. -/
namespace Rota

inductive Number where
  /-- From -2^63 to 2^64 - 1. -/
  | int (value : Int)
  | real (value : Binary64)
deriving DecidableEq

inductive Json where
  | null
  | bool (value : Bool)
  | number (value : Number)
  | string (value : String)
  | array (items : List Json)
  | object (fields : List (String × Json))

namespace Json

instance : Inhabited Json := ⟨null⟩

mutual

def depth : Json → Nat
  | array items => depthOfItems items + 1
  | object fields => depthOfFields fields + 1
  | _ => 0

def depthOfItems : List Json → Nat
  | [] => 0
  | v :: rest => max (depth v) (depthOfItems rest)

def depthOfFields : List (String × Json) → Nat
  | [] => 0
  | (_, v) :: rest => max (depth v) (depthOfFields rest)

end

mutual

def mapReals (f : Binary64 → Binary64) : Json → Json
  | number (.real x) => number (.real (f x))
  | array items => array (mapRealsOfItems f items)
  | object fields => object (mapRealsOfFields f fields)
  | v => v

def mapRealsOfItems (f : Binary64 → Binary64) : List Json → List Json
  | [] => []
  | v :: rest => mapReals f v :: mapRealsOfItems f rest

def mapRealsOfFields (f : Binary64 → Binary64) : List (String × Json) → List (String × Json)
  | [] => []
  | (name, v) :: rest => (name, mapReals f v) :: mapRealsOfFields f rest

end

def insertField (name : String) (value : Json) : List (String × Json) → List (String × Json)
  | [] => [(name, value)]
  | (other, v) :: rest =>
    if name < other then (name, value) :: (other, v) :: rest
    else if name = other then (name, value) :: rest
    else (other, v) :: insertField name value rest

/-- The fields in normal form; of several with one name the last one stays. -/
def normalFields (fields : List (String × Json)) : List (String × Json) :=
  fields.foldl (fun done (name, value) => insertField name value done) []

def nat (n : Nat) : Json := number (.int n)

def real (x : Binary64) : Json := number (.real x)

def field? (name : String) : Json → Option Json
  | object fields => fields.lookup name
  | _ => none

end Json

end Rota
