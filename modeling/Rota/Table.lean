import Rota.Id
/-! Tables of records by identifier.
A table has at most one record for an identifier; a record that is put where there is none
comes behind the others. -/
namespace Rota

structure Table (α : Type) where
  rows : List (Id × α)

namespace Table

def empty : Table α := ⟨[]⟩

def get? (t : Table α) (id : Id) : Option α :=
  (t.rows.find? fun row => row.1 = id).map (·.2)

def contains (t : Table α) (id : Id) : Bool := (t.get? id).isSome

def values (t : Table α) : List α := t.rows.map (·.2)

def put (t : Table α) (id : Id) (v : α) : Table α :=
  if t.contains id then ⟨t.rows.map fun row => if row.1 = id then (id, v) else row⟩
  else ⟨t.rows ++ [(id, v)]⟩

def erase (t : Table α) (id : Id) : Table α := ⟨t.rows.filter fun row => row.1 ≠ id⟩

def eraseIf (t : Table α) (p : α → Bool) : Table α := ⟨t.rows.filter fun row => !p row.2⟩

end Table

end Rota
