import Folio.Cbor.Encode
import Folio.Cbor.Decode
import Folio.Store.Update
import Folio.Store.Query
import Folio.Value.Written

/-!
# A store of documents

A store holds named collections of documents in insertion order. Each document
is kept as its bytes, beside its id, so every read goes through the byte form.
A call is counted before anything else, also when the store cannot be reached.

Results:
* `documents_setCalls`: counting a call shows no other documents.
-/
namespace Folio

/-- A document as it is kept: its id and its bytes. -/
structure Stored where
  id : Value
  bytes : Bytes

namespace Stored

/-- The kept form of a document. -/
def ofDocument (doc : Document) : Except StoreFault Stored :=
  match doc.get? idField with
  | none => .error .missingId
  | some id =>
    match Cbor.encodeDocument doc with
    | .ok bytes => .ok ⟨id, bytes⟩
    | .error fault => .error (.data fault)

/-- The document that is kept. -/
def document (stored : Stored) : Except StoreFault Document :=
  (Cbor.decodeDocument stored.bytes).mapError .data

/-- The documents that are kept, in order. -/
def documents (entries : List Stored) : Except StoreFault (List Document) :=
  entries.mapM document

/-- The documents that match, with their places. All are read. -/
def matching (filter : Filter) : (entries : List Stored) → (place : Nat) →
    Except StoreFault (List (Nat × Document))
  | [], _ => .ok []
  | e :: rest, place => do
    let doc ← e.document
    let others ← matching filter rest (place + 1)
    return if filter.matchesDoc doc then (place, doc) :: others else others

/-- The first document that matches, with its place. None after it is read. -/
def first? (filter : Filter) : (entries : List Stored) → (place : Nat) →
    Except StoreFault (Option (Nat × Document))
  | [], _ => .ok none
  | e :: rest, place => do
    let doc ← e.document
    if filter.matchesDoc doc then return some (place, doc)
    first? filter rest (place + 1)

end Stored

/-- The kinds of call that are counted. -/
inductive CallKind where
  | insert
  | find
  | count
  | replace
  | update
  | delete
  | findAndModify
  | distinct
  | aggregate
  deriving DecidableEq, Repr

/-- How many calls of each kind a store has taken. -/
structure Calls where
  insert : Nat := 0
  find : Nat := 0
  count : Nat := 0
  replace : Nat := 0
  update : Nat := 0
  delete : Nat := 0
  findAndModify : Nat := 0
  distinct : Nat := 0
  aggregate : Nat := 0
  deriving DecidableEq, Repr

namespace Calls

/-- One more call of a kind. -/
def tick (calls : Calls) : CallKind → Calls
  | .insert => { calls with insert := calls.insert + 1 }
  | .find => { calls with find := calls.find + 1 }
  | .count => { calls with count := calls.count + 1 }
  | .replace => { calls with replace := calls.replace + 1 }
  | .update => { calls with update := calls.update + 1 }
  | .delete => { calls with delete := calls.delete + 1 }
  | .findAndModify => { calls with findAndModify := calls.findAndModify + 1 }
  | .distinct => { calls with distinct := calls.distinct + 1 }
  | .aggregate => { calls with aggregate := calls.aggregate + 1 }

/-- The calls that can change data. -/
def writes (calls : Calls) : Nat :=
  calls.insert + calls.replace + calls.update + calls.delete + calls.findAndModify

/-- All calls. -/
def total (calls : Calls) : Nat :=
  calls.writes + calls.find + calls.count + calls.distinct + calls.aggregate

end Calls

/-- Named collections of documents. -/
structure Store where
  collections : List (String × List Stored) := []
  calls : Calls := {}
  unavailable : Bool := false

namespace Store

/-- The store before any call. -/
def empty : Store := {}

/-- The entries of a collection; none if nothing was ever put there. -/
def entries (store : Store) (collection : String) : List Stored :=
  (store.collections.lookup collection).getD []

/-- The collections with the entries of one of them exchanged. -/
def exchange (collection : String) (entries : List Stored) :
    List (String × List Stored) → List (String × List Stored)
  | [] => [(collection, entries)]
  | (name, old) :: rest =>
    if name = collection then (name, entries) :: rest
    else (name, old) :: exchange collection entries rest

/-- The store with the entries of a collection exchanged. -/
def setEntries (store : Store) (collection : String) (entries : List Stored) : Store :=
  { store with collections := exchange collection entries store.collections }

/-- The documents of a collection. Looking at them is no call. -/
def documents (store : Store) (collection : String) : Except StoreFault (List Document) :=
  Stored.documents (store.entries collection)

/-- The names of the collections that hold a document, in order. -/
def names (store : Store) : List String :=
  ((store.collections.filter fun c => !c.2.isEmpty).map (·.1)).mergeSort (· ≤ ·)

theorem lookup_exchange (collection name : String) (entries : List Stored)
    (collections : List (String × List Stored)) :
    (exchange collection entries collections).lookup name =
      if name = collection then some entries else collections.lookup name := by
  induction collections with
  | nil => simp only [exchange, List.lookup_cons, List.lookup_nil]; grind
  | cons c rest ih => obtain ⟨l, old⟩ := c; grind [exchange]

@[simp] theorem entries_setEntries (store : Store) (collection name : String)
    (entries : List Stored) :
    (store.setEntries collection entries).entries name =
      if name = collection then entries else store.entries name := by
  simp only [Store.entries, setEntries, lookup_exchange]
  split <;> simp

theorem documents_setCalls (store : Store) (calls : Calls) (collection : String) :
    ({ store with calls := calls } : Store).documents collection = store.documents collection := rfl

/-- A call on a store: what it changed stays changed also after a fault. -/
abbrev Call (α : Type) := ExceptT StoreFault (StateM Store) α

/-- Counts a call and refuses it if the store cannot be reached. -/
def begin (kind : CallKind) (collection : String) : Call Unit := do
  modify fun store => { store with calls := store.calls.tick kind }
  if (← get).unavailable then throw (.unavailable collection)

end Store
end Folio
