import Folio.Collection.Basic

/-!
# Saving records

A record without an identity is inserted, one with an identity replaces what
is stored under it. A new record has the times that its id tells; a record
that is saved again has a later time of its last change than before. When the
write fails, the record gets back the identity and the times that it had.

Results:
* `nextModified_floor`: the time of a change is later than the one before it.
-/
namespace Folio

/-- The identity and the times of a record. -/
structure Stamps where
  id : Option ObjectId
  created : Option DateTime
  modified : Option DateTime
  deriving DecidableEq

/-- What an operation that writes records works on: the records and the
backend. -/
structure Held (E : Type) where
  record : E
  backend : Backend

/-- An operation on a record and the backend. -/
abbrev HeldM (E α : Type) := ExceptT Failure (StateM (Held E)) α

namespace Held

variable {E : Type} [Record E]

/-- An operation on the backend alone. -/
def behind {α : Type} (m : BackendM α) : HeldM E α := .mk fun h =>
  let (result, backend) := m.run h.backend
  (result, { h with backend := backend })

/-- Sets or unsets a property of the record. -/
def modify (name : String) (value : Option FieldValue) : HeldM E Unit := .mk fun h =>
  match Record.modify? (E := E) with
  | none => (.error (.illegal (.unmodifiable (Record.cls h.record).name)), h)
  | some change =>
    match change h.backend.registry.catalog.schema h.record name value with
    | .ok next => (.ok (), { h with record := next })
    | .error failure => (.error failure, h)

end Held

namespace Stamps

variable {E : Type} [Record E]

/-- The stamps of a new record: both times are those of its id. -/
def ofId (id : ObjectId) : Stamps := ⟨some id, some id.timestamp, some id.timestamp⟩

/-- The stamps of a record. -/
def ofRecord (e : E) : Stamps := ⟨Record.id? e, Record.created? e, Record.modified? e⟩

/-- Writes the stamps into the record, up to the first that it refuses. -/
def apply (stamps : Stamps) : HeldM E Unit := do
  Held.modify Naming.idProperty (stamps.id.map .objectId)
  Held.modify Record.createdProperty (stamps.created.map .dateTime)
  Held.modify Record.modifiedProperty (stamps.modified.map .dateTime)

/-- Writes the stamps back into the record. A refusal is of no consequence. -/
def restore (stamps : Stamps) : HeldM E Unit :=
  tryCatch stamps.apply fun _ => pure ()

/-- The time of a change: now, or a millisecond after the last one if the
clock is not past that. -/
def nextModified (now : DateTime) (previous : Option DateTime) : DateTime :=
  match previous.bind (·.addMillis? 1) with
  | some floor => if now.millis.toInt < floor.millis.toInt then floor else now
  | none => now

theorem nextModified_floor {now previous floor : DateTime}
    (h : previous.addMillis? 1 = some floor) :
    floor.millis.toInt ≤ (nextModified now (some previous)).millis.toInt := by
  simp only [nextModified, Option.bind_some, h]
  split <;> omega

end Stamps

namespace Collection

variable {E : Type} [Record E]

/-- The failure to change a record that cannot be changed. -/
def requireModifiable (e : E) : Except Failure Unit :=
  if (Record.modify? (E := E)).isSome then .ok ()
  else .error (.illegal (.unmodifiable (Record.cls e).name))

/-- Inserts the record under an id. -/
def insert (c : Collection) (id : ObjectId) (ambient : Ambient) : HeldM E Unit := do
  (Stamps.ofId id).apply
  let doc ← Held.behind (Backend.look (Registry.encodeRecord (← getThe (Held E)).record))
  let _ ← Held.behind (Backend.call (Store.insertOne c.name doc (ambient.fresh 1)))

/-- Replaces what is stored under the id; answers whether anything is. The
scope does not matter here. -/
def replace (c : Collection) (id : ObjectId) (ambient : Ambient) : HeldM E Bool := do
  let next := Stamps.nextModified ambient.now (Record.modified? (← getThe (Held E)).record)
  Held.modify Record.modifiedProperty (some (.dateTime next))
  let doc ← Held.behind (Backend.look (Registry.encodeRecord (← getThe (Held E)).record))
  let result ← Held.behind (Backend.call
    (Store.replaceOne c.name (.id id) doc false (ambient.fresh 1)))
  return 0 < result.matched

/-- Saves the record and answers it, or nothing if it has an identity that is
not stored. -/
def save (c : Collection) (newId : Option ObjectId) (ambient : Ambient) : HeldM E (Option E) := do
  let e := (← getThe (Held E)).record
  requireModifiable e
  let previous := Stamps.ofRecord e
  let write : HeldM E Bool :=
    match Record.id? e with
    | none => do
      c.insert (newId.getD (ambient.fresh 0)) ambient
      return true
    | some id => c.replace id ambient
  let written ← tryCatch write fun failure => do
    previous.restore
    throw failure
  if written then return some (← getThe (Held E)).record
  previous.restore
  return none

/-! ## Several records -/

/-- A record to insert, and the stamps that it had before it was stamped. -/
structure Pending (E : Type) where
  record : E
  previous : Option Stamps

/-- One record stamped and encoded. -/
def prepare (e : E) (fresh : ObjectId) (b : Backend) :
    Except Failure (ObjectId × Document) × Pending E × Backend :=
  match requireModifiable e with
  | .error failure => (.error failure, ⟨e, none⟩, b)
  | .ok () =>
    let previous := Stamps.ofRecord e
    let id := (Record.id? e).getD fresh
    let step : HeldM E (ObjectId × Document) := do
      (Stamps.ofId id).apply
      let doc ← Held.behind (Backend.look (Registry.encodeRecord (← getThe (Held E)).record))
      return (id, doc)
    let (result, h) := step.run ⟨e, b⟩
    (result, ⟨h.record, some previous⟩, h.backend)

/-- The records stamped and encoded in order, up to the first that cannot be. -/
def prepareAll (fresh : Nat → ObjectId) (b : Backend) : List E →
    Except Failure (List (ObjectId × Document)) × List (Pending E) × Backend
  | [] => (.ok [], [], b)
  | e :: rest =>
    match prepare e (fresh 0) b with
    | (.error failure, p, b) => (.error failure, p :: rest.map fun e => ⟨e, none⟩, b)
    | (.ok first, p, b) =>
      let (result, others, b) := prepareAll (fun i => fresh (i + 1)) b rest
      (result.map (first :: ·), p :: others, b)

/-- The record with the stamps that it had, if it was stamped. -/
def rollBack (b : Backend) (p : Pending E) : E :=
  match p.previous with
  | none => p.record
  | some previous => ((previous.restore (E := E)).run ⟨p.record, b⟩).2.record

/-- Inserts new records: their ids, the records afterwards and the backend.
When anything fails, no record keeps the stamps it got here. -/
def insertMany (c : Collection) (records : List E) (ambient : Ambient) (b : Backend) :
    Except Failure (List ObjectId) × List E × Backend :=
  let (prepared, pending, b) := prepareAll ambient.fresh b records
  match prepared with
  | .error failure => (.error failure, pending.map (rollBack b), b)
  | .ok entries =>
    let place := Backend.call (Store.insertMany c.name (entries.map (·.2)) ambient.fresh)
    match place.run b with
    | (.ok _, b) => (.ok (entries.map (·.1)), pending.map (·.record), b)
    | (.error failure, b) => (.error failure, pending.map (rollBack b), b)

end Collection
end Folio
