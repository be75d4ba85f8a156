import Folio.Store.Basic

/-!
# Calls on a store

The calls that insert, find, change and delete documents. A call that works on
one document changes nothing when it fails. Calls that work on several stop at
the first failure and keep what they did before it.

Results:
* `keys_withId`: the id is the first field of an inserted document.
-/
namespace Folio

/-- The outcome of a replacement or an update. -/
structure UpdateResult where
  matched : Nat := 0
  modified : Nat := 0
  upserted : Option Value := none

/-- The document with its id first: the one given, or its own, or a new one. -/
def Document.withId (doc : Document) (id : Option Value) (fresh : ObjectId) : Document :=
  let id := (id.orElse fun _ => doc.get? idField).getD (.objectId fresh)
  ⟨(idField, id) :: doc.fields.filter fun f => f.1 ≠ idField⟩

theorem Document.keys_withId (doc : Document) (id : Option Value) (fresh : ObjectId) :
    (doc.withId id fresh).keys.head? = some idField := rfl

namespace Store

/-- The entries after an insertion, and the id of the new one. -/
def accept (collection : String) (entries : List Stored) (doc : Document) (fresh : ObjectId) :
    Except StoreFault (List Stored × Value) := do
  let entry ← Stored.ofDocument (doc.withId none fresh)
  if entries.any (·.id == entry.id) then
    throw (.duplicateKey collection entry.id.written)
  return (entries ++ [entry], entry.id)

/-- The replacement of a document, under the id of what it replaces. -/
def replacement (existing doc : Document) (fresh : ObjectId) : Except StoreFault Document :=
  match doc.get? idField, existing.get? idField with
  | some new, some old =>
    if new != old then .error (.update .changesId) else .ok (doc.withId (some old) fresh)
  | _, old => .ok (doc.withId old fresh)

/-- Exchanges one entry of a collection for another document. -/
def overwrite (collection : String) (place : Nat) (doc : Document) : Call Unit := do
  let entry ← Stored.ofDocument doc
  modify fun store => store.setEntries collection ((store.entries collection).set place entry)

/-- The first match in a collection. -/
def locate (collection : String) (filter : Filter) : Call (Option (Nat × Document)) := do
  Stored.first? filter ((← get).entries collection) 0

/-- Every match in a collection. -/
def locateAll (collection : String) (filter : Filter) : Call (List (Nat × Document)) := do
  Stored.matching filter ((← get).entries collection) 0

/-- Takes one entry out of a collection. -/
def evict (collection : String) (place : Nat) : Call Unit :=
  modify fun store => store.setEntries collection ((store.entries collection).eraseIdx place)

/-- Puts a document into a collection. -/
def place (collection : String) (doc : Document) (fresh : ObjectId) : Call Value := do
  let (entries, id) ← accept collection ((← get).entries collection) doc fresh
  modify (·.setEntries collection entries)
  return id

/-- The document after an update, as a store call. -/
def updated (update : Update) (doc : Document) : Except StoreFault Document :=
  (update.apply doc).mapError .update

/-! ## Inserting -/

/-- Inserts a document and answers its id. -/
def insertOne (collection : String) (doc : Document) (fresh : ObjectId) : Call Value := do
  begin .insert collection
  place collection doc fresh

/-- Inserts documents in order, up to the first that cannot be. `fresh` has
the ids for documents without one, by their place. -/
def placeAll (collection : String) (fresh : Nat → ObjectId) : List Document → Call (List Value)
  | [] => pure []
  | doc :: rest => do
    let id ← place collection doc (fresh 0)
    return id :: (← placeAll collection (fun i => fresh (i + 1)) rest)

/-- Inserts several documents and answers their ids. -/
def insertMany (collection : String) (docs : List Document) (fresh : Nat → ObjectId) :
    Call (List Value) := do
  begin .insert collection
  placeAll collection fresh docs

/-! ## Finding -/

/-- The matching documents, shaped by the options. -/
def find (collection : String) (filter : Filter) (options : FindOptions) :
    Call (List Document) := do
  begin .find collection
  let found ← locateAll collection filter
  return options.apply (found.map (·.2))

/-- The number of matching documents. -/
def count (collection : String) (filter : Filter) : Call Nat := do
  begin .count collection
  return (← locateAll collection filter).length

/-- The values that a field contributes; an array contributes its elements. -/
def candidates (field : String) (doc : Document) : List Value :=
  match doc.getPath? field with
  | some (.array items) => items
  | some v => [v]
  | none => []

/-- The values with one more, unless it is there. -/
def addNew (values : List Value) (v : Value) : List Value :=
  if values.any (· == v) then values else values ++ [v]

/-- The different values of a field among the matching documents. -/
def distinct (collection field : String) (filter : Filter) : Call (List Value) := do
  begin .distinct collection
  let found ← locateAll collection filter
  return (found.flatMap fun f => candidates field f.2).foldl addNew []

/-- The documents that a pipeline makes of the collection. -/
def aggregate (collection : String) (stages : List Stage) : Call (List Document) := do
  begin .aggregate collection
  return Stage.run (← (← get).documents collection) stages

/-! ## Changing -/

/-- Replaces the first match; without one, `upsert` inserts the document. -/
def replaceOne (collection : String) (filter : Filter) (doc : Document) (upsert : Bool)
    (fresh : ObjectId) : Call UpdateResult := do
  begin .replace collection
  match ← locate collection filter with
  | some (i, existing) =>
    let next ← replacement existing doc fresh
    overwrite collection i next
    return { matched := 1, modified := if next == existing then 0 else 1 }
  | none =>
    if upsert then return { upserted := some (← place collection doc fresh) }
    return {}

/-- Updates the first match. -/
def updateOne (collection : String) (filter : Filter) (update : Update) : Call UpdateResult := do
  begin .update collection
  match ← locate collection filter with
  | some (i, doc) =>
    let next ← updated update doc
    overwrite collection i next
    return { matched := 1, modified := if next == doc then 0 else 1 }
  | none => return {}

/-- Updates each of the matches in turn. -/
def updateAll (collection : String) (update : Update) :
    List (Nat × Document) → UpdateResult → Call UpdateResult
  | [], result => pure result
  | (i, doc) :: rest, result => do
    let next ← updated update doc
    overwrite collection i next
    updateAll collection update rest
      { result with
        matched := result.matched + 1
        modified := result.modified + if next == doc then 0 else 1 }

/-- Updates every match, up to the first that cannot be. -/
def updateMany (collection : String) (filter : Filter) (update : Update) : Call UpdateResult := do
  begin .update collection
  updateAll collection update (← locateAll collection filter) {}

/-- Updates the first match and answers one of its versions. -/
def findOneAndUpdate (collection : String) (filter : Filter) (update : Update)
    (version : Version) : Call (Option Document) := do
  begin .findAndModify collection
  match ← locate collection filter with
  | some (i, before) =>
    let after ← updated update before
    overwrite collection i after
    return some (match version with | .before => before | .after => after)
  | none => return none

/-- Replaces the first match and answers one of its versions. -/
def findOneAndReplace (collection : String) (filter : Filter) (doc : Document)
    (version : Version) (fresh : ObjectId) : Call (Option Document) := do
  begin .findAndModify collection
  match ← locate collection filter with
  | some (i, before) =>
    let after ← replacement before doc fresh
    overwrite collection i after
    return some (match version with | .before => before | .after => after)
  | none => return none

/-! ## Deleting -/

/-- Deletes the first match and answers it. -/
def findOneAndDelete (collection : String) (filter : Filter) : Call (Option Document) := do
  begin .findAndModify collection
  match ← locate collection filter with
  | some (i, doc) =>
    evict collection i
    return some doc
  | none => return none

/-- Deletes the first match and answers how many that are. -/
def deleteOne (collection : String) (filter : Filter) : Call Nat := do
  begin .delete collection
  match ← locate collection filter with
  | some (i, _) =>
    evict collection i
    return 1
  | none => return 0

/-- The entries at other places than the given ones. -/
def without (places : List Nat) (entries : List Stored) : List Stored :=
  (entries.zipIdx.filter fun e => !places.contains e.2).map (·.1)

/-- Deletes every match and answers how many they are. -/
def deleteMany (collection : String) (filter : Filter) : Call Nat := do
  begin .delete collection
  let places := (← locateAll collection filter).map (·.1)
  modify fun store => store.setEntries collection (without places (store.entries collection))
  return places.length

end Store
end Folio
