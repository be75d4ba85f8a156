import Folio.Collection.Basic

/-!
# Views across the defunct mark

A collection whose records can be defunct is also seen with an explicit
choice: every record, only those that are marked, or only those that are not.

Results:
* `view_any`: the view of every record sees what the store holds.
-/
namespace Folio

/-- A collection whose class can be defunct. -/
structure DefunctView where
  collection : Collection

namespace DefunctView

/-- The views of a collection, if its class can be defunct. -/
def ofCollection (s : Schema) (c : Collection) : Except Failure DefunctView :=
  if s.implements c.cls .defunctable then .ok ⟨c⟩
  else .error (.illegal (.lacksCapability c.cls.name Capability.defunctable.name))

/-- The collection to ask for a choice, and what to ask for besides. -/
def view (v : DefunctView) : (defunct : Option Bool) → Collection × Option Filter
  | none => (v.collection.unscoped, none)
  | some true => (v.collection.unscoped, some (.eq defunctProperty (.bool true)))
  | some false => (v.collection, none)

/-- Both filters, or the one that is there. -/
def combine : Option Filter → Option Filter → Option Filter
  | some a, some b => some (.both [a, b])
  | some a, none => some a
  | none, b => b

/-- The text of the views of a collection. -/
def written (v : DefunctView) : String :=
  "DefunctAttach \x7b collection: " ++ v.collection.written ++ " \x7d"

theorem view_any (v : DefunctView) : v.view none = (v.collection.unscoped, none) := rfl

variable {E : Type} [Record E]

/-- Whether the view has a record with the id. -/
def contains (v : DefunctView) (id : ObjectId) (defunct : Option Bool) : BackendM Bool := do
  let (c, base) := v.view defunct
  return 0 < (← c.count (combine (some (.id id)) base))

/-- The records of the view that match. -/
def find (v : DefunctView) (filter : Option Filter) (defunct : Option Bool) : BackendM (List E) :=
  let (c, base) := v.view defunct
  c.find (combine base filter) {}

/-- The record of the view with the id. -/
def findById (v : DefunctView) (id : Option ObjectId) (defunct : Option Bool) :
    BackendM (Option E) :=
  match id with
  | none => pure none
  | some id =>
    let (c, base) := v.view defunct
    c.findFirst (combine (some (.id id)) base)

/-- The number of records of the view that match. -/
def count (v : DefunctView) (filter : Option Filter) (defunct : Option Bool) : BackendM Nat :=
  let (c, base) := v.view defunct
  c.count (combine base filter)

end DefunctView
end Folio
