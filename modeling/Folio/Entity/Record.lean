import Folio.Entity.Basic
import Folio.Entity.Written

/-!
# Records

A record is anything with a class and properties that a collection can store
and rebuild. Two kinds are given here: entities, whose properties are checked
against their class, and snapshots, which keep what they are given and cannot
be changed.

Results:
* `modify?_snapshot`: a snapshot cannot be changed.
-/
namespace Folio

/-- What a collection needs of its records. -/
class Record (E : Type) where
  /-- The class of a record. -/
  cls : E → ClassRef
  /-- The set properties, identity and times included. -/
  fields : E → Fields
  /-- Sets or unsets a property; none if records cannot be changed. -/
  modify? : Option (Schema → E → String → Option FieldValue → Except Failure E)
  /-- A record of a class, from stored properties if there are any. -/
  instantiate : ClassRef → Option Fields → CatalogM E
  /-- Whether two records are equal. -/
  same : E → E → Bool
  /-- The text of a record. -/
  written : E → String

namespace Record

variable {E : Type} [Record E]

/-- The name of the creation time. -/
def createdProperty : String := "dateCreated"

/-- The name of the time of the last change. -/
def modifiedProperty : String := "lastModified"

/-- The value of a property. -/
def property (e : E) (name : String) : Option FieldValue := Keyed.get? name (fields e)

/-- The identity, once there is one. -/
def id? (e : E) : Option ObjectId := do (← property e Naming.idProperty).objectId?

/-- The creation time. -/
def created? (e : E) : Option DateTime := do (← property e createdProperty).dateTime?

/-- The time of the last change. -/
def modified? (e : E) : Option DateTime := do (← property e modifiedProperty).dateTime?

end Record

/-- Entities are records that can be changed. -/
instance : Record Entity where
  cls e := e.cls
  fields e := e.attributes
  modify? := some Entity.set
  instantiate := Entity.instantiate
  same a b := a == b
  written e := e.written

/-- Snapshots are records that cannot be changed. -/
instance : Record Snapshot where
  cls r := r.cls
  fields r := r.fields
  modify? := none
  instantiate c seed := pure ⟨c, seed.getD []⟩
  same a b := a.cls.name == b.cls.name && Fields.same a.fields b.fields
  written r := r.written

theorem Record.modify?_snapshot : (Record.modify? (E := Snapshot)) = none := rfl

/-- A record of a class: the class must be one whose records are stored. -/
def Record.create {E : Type} [Record E] (c : ClassRef) (seed : Option Fields) : CatalogM E := do
  if !(← get).schema.isEntityClass c then throw (.unsupported (.notEntityClass c.name))
  tryCatch (Record.instantiate c seed) fun cause => throw (.instantiation c.name cause)

end Folio
