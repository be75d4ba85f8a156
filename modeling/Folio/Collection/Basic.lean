import Folio.Registry.Decode
import Folio.Registry.Encode
import Folio.Store.Calls

/-!
# Collections of records

A collection stores the records of one class under one name. In the defunct
scope it sees only records that are not marked as defunct, and deleting a
record marks it.

Results:
* `visible_plain`: without a scope a filter stays as it is.
-/
namespace Folio

/-- A store and the codecs for what it holds. -/
structure Backend where
  store : Store
  registry : Registry

/-- What a call takes from outside: the time, and ids that are new. -/
structure Ambient where
  now : DateTime
  fresh : Nat → ObjectId

/-- An operation on a store and its codecs. What it changed stays changed also
after a failure. -/
abbrev BackendM (α : Type) := ExceptT Failure (StateM Backend) α

namespace Backend

/-- A call on the store. -/
def call {α : Type} (call : Store.Call α) : BackendM α := .mk fun b =>
  let (result, store) := call.run b.store
  (result.mapError .store, { b with store := store })

/-- An operation of the registry. -/
def look {α : Type} (m : RegistryM α) : BackendM α := .mk fun b =>
  let (result, registry) := m.run b.registry
  (result, { b with registry := registry })

end Backend

/-- Which records a collection sees. -/
inductive Scope where
  | plain
  | defunct
  deriving DecidableEq, Repr

namespace Scope

/-- The text of a scope. -/
def written : Scope → String
  | plain => "Plain"
  | defunct => "Defunct"

end Scope

/-- The name of the mark of a defunct record. -/
def defunctProperty : String := "defunct"

/-- A collection of records of a class. -/
structure Collection where
  cls : ClassRef
  name : String
  scope : Scope
  deriving DecidableEq, Repr

namespace Collection

/-- Opens the collection of a class. Records that can be defunct are scoped. -/
def ofClass (c : ClassRef) : RegistryM Collection := do
  let s := (← getThe Registry).catalog.schema
  if !s.isEntityClass c then throw (.unsupported (.notEntityClass c.name))
  match ← Registry.withCatalog (Catalog.collection c) with
  | none => throw (.noTable c.name)
  | some name => return ⟨c, name, if s.implements c .defunctable then .defunct else .plain⟩

/-- The same records without a scope. -/
def unscoped (c : Collection) : Collection := { c with scope := .plain }

/-- The text of a collection. -/
def written (c : Collection) : String :=
  "Collection \x7b class: " ++ Text.quoted c.cls.name ++ ", name: " ++ Text.quoted c.name ++
    ", scope: " ++ c.scope.written ++ " \x7d"

/-- The filter for records that are not defunct. -/
def live : Filter := .eq defunctProperty (.bool false)

/-- The update that marks a record as defunct. -/
def markDefunct : Update := [.set defunctProperty (.bool true)]

/-- What the scope asks of every record. -/
def scopeFilter (c : Collection) : Option Filter :=
  match c.scope with
  | .plain => none
  | .defunct => some live

/-- The filter for what is asked for among what the collection sees. -/
def visible (c : Collection) (filter : Option Filter) : Filter :=
  match c.scopeFilter, filter with
  | some live, some f => .both [live, f]
  | some live, none => live
  | none, some f => f
  | none, none => .all

theorem visible_plain {c : Collection} (h : c.scope = .plain) (f : Filter) :
    c.visible (some f) = f := by
  simp [visible, scopeFilter, h]

variable {E : Type} [Record E]

/-- The record that a document stores. -/
def inflate (c : Collection) (doc : Document) : BackendM E :=
  Backend.look (Registry.inflate c.cls doc)

/-- The record that a document stores, if there is one. -/
def inflate? (c : Collection) : Option Document → BackendM (Option E)
  | some doc => do return some (← c.inflate doc)
  | none => pure none

/-! ## Finding -/

/-- The first record that matches. -/
def findFirst (c : Collection) (filter : Option Filter) : BackendM (Option E) := do
  let docs ← Backend.call (Store.find c.name (c.visible filter) { limit := some 1 })
  c.inflate? docs.head?

/-- The record with an id. Without an id nothing is asked of the store. -/
def findById (c : Collection) : Option ObjectId → BackendM (Option E)
  | some id => c.findFirst (some (.id id))
  | none => pure none

/-- The records that match, shaped by the options. -/
def find (c : Collection) (filter : Option Filter) (options : FindOptions) : BackendM (List E) := do
  let docs ← Backend.call (Store.find c.name (c.visible filter) options)
  docs.mapM c.inflate

/-- The records with the listed ids, in the store's order. -/
def findByIds (c : Collection) (ids : List ObjectId) : BackendM (List E) :=
  c.find (some (.isIn idField (ids.map .objectId))) {}

/-- The number of records that match. -/
def count (c : Collection) (filter : Option Filter) : BackendM Nat :=
  Backend.call (Store.count c.name (c.visible filter))

/-- The number of records with the id that match. -/
def countById (c : Collection) (id : ObjectId) (filter : Option Filter) : BackendM Nat :=
  c.count (some (match filter with | some f => .both [.id id, f] | none => .id id))

/-- Whether there is a record with the id that matches. -/
def contains (c : Collection) (id : ObjectId) (filter : Option Filter) : BackendM Bool := do
  return 0 < (← c.countById id filter)

/-- The different values of a field among the records that match. -/
def distinct (c : Collection) (field : String) (filter : Option Filter) : BackendM (List Value) :=
  Backend.call (Store.distinct c.name field (c.visible filter))

/-- What a pipeline makes of the records. -/
def aggregate (c : Collection) (stages : List Stage) : BackendM (List Document) :=
  Backend.call (Store.aggregate c.name
    (match c.scopeFilter with | some live => .select live :: stages | none => stages))

/-! ## Changing -/

/-- Updates the first match. -/
def updateOne (c : Collection) (filter : Filter) (update : Update) : BackendM UpdateResult :=
  Backend.call (Store.updateOne c.name (c.visible (some filter)) update)

/-- Updates every match. -/
def updateMany (c : Collection) (filter : Filter) (update : Update) : BackendM UpdateResult :=
  Backend.call (Store.updateMany c.name (c.visible (some filter)) update)

/-- Updates the first match and answers one of its versions. -/
def findOneAndUpdate (c : Collection) (filter : Filter) (update : Update) (version : Version) :
    BackendM (Option E) := do
  c.inflate? (← Backend.call
    (Store.findOneAndUpdate c.name (c.visible (some filter)) update version))

/-- Updates the record with an id and answers it as it is then. -/
def updateById (c : Collection) (id : Option ObjectId) (update : Update) : BackendM (Option E) :=
  match id with
  | some id => c.findOneAndUpdate (.id id) update .after
  | none => pure none

/-- Replaces the first match and answers one of its versions. -/
def findOneAndReplace (c : Collection) (filter : Filter) (e : E) (version : Version)
    (ambient : Ambient) : BackendM (Option E) := do
  let doc ← Backend.look (Registry.encodeRecord e)
  c.inflate? (← Backend.call
    (Store.findOneAndReplace c.name (c.visible (some filter)) doc version (ambient.fresh 0)))

/-! ## Deleting -/

/-- Deletes the first match and answers it as it was. -/
def findOneAndDelete (c : Collection) (filter : Filter) : BackendM (Option E) := do
  match c.scope with
  | .plain => c.inflate? (← Backend.call (Store.findOneAndDelete c.name filter))
  | .defunct => c.findOneAndUpdate filter markDefunct .before

/-- Deletes the record with an id and answers it as it was. -/
def deleteById (c : Collection) : Option ObjectId → BackendM (Option E)
  | some id => c.findOneAndDelete (.id id)
  | none => pure none

/-- Deletes the first match and answers how many that are. -/
def deleteOne (c : Collection) (filter : Filter) : BackendM Nat := do
  match c.scope with
  | .plain => Backend.call (Store.deleteOne c.name filter)
  | .defunct => return (← c.updateOne filter markDefunct).modified

/-- Deletes every match and answers how many they are. -/
def deleteMany (c : Collection) (filter : Filter) : BackendM Nat := do
  match c.scope with
  | .plain => Backend.call (Store.deleteMany c.name filter)
  | .defunct => return (← c.updateMany filter markDefunct).modified

end Collection
end Folio
