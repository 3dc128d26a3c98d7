import Stackify.Code.Program
import Stackify.Name.Identifier
import Stackify.Name.Scope
import Stackify.Ssa.Type

/-!
The registry of aggregates: each one has a symbol, a record number and a display name of its own.
-/

namespace Stackify.Resolve

open Code (RecordId)

/-- A registered aggregate. Types of fields are added one after the other, in the order of the
fields. -/
structure Aggregate where
  symbol : String
  name : String
  record : RecordId
  fields : List Ssa.Ty
  fieldTypes : List Code.Ty := []
  packed : Bool

structure Registry where
  entries : List Aggregate := []
  names : Name.Scope := .empty

namespace Registry

def find? (r : Registry) (symbol : String) : Option Aggregate := r.entries.find? fun a =>
    a.symbol = symbol

def entry? (r : Registry) (id : RecordId) : Option Aggregate := r.entries[id]?

/-- Registers an aggregate before the types of its fields are known, so that a field may mention it
again. A symbol that is registered keeps its record. -/
def register (r : Registry) (symbol : String) (base : Option String) (fields : List Ssa.Ty)
    (packed : Bool) : RecordId × Registry :=
  match r.find? symbol with
  | some a => (a.record, r)
  | none =>
    let (name, names) := r.names.reserve (base.getD (Name.clean (Name.stripTag symbol) "Struct"))
    let id := r.entries.length
    (id, { entries := r.entries ++ [{ symbol, name, record := id, fields, packed }], names })

def addFieldType (r : Registry) (id : RecordId) (ty : Code.Ty) : Registry :=
  { r with entries := r.entries.modify id fun a => { a with fieldTypes := a.fieldTypes ++ [ty] } }

def fieldName (i : Nat) : String := "field_" ++ toString i

def records (r : Registry) : List Code.Record :=
  r.entries.map fun a =>
    { name := a.name, symbol := a.symbol, packed := a.packed,
      fields := a.fieldTypes.zipIdx.map fun (ty, i) => ⟨fieldName i, ty⟩ }

end Registry

end Stackify.Resolve
