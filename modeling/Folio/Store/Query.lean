import Folio.Store.Filter

/-!
# Shaping a stream of documents

Options order, skip and limit the documents that a search found. A pipeline is
a list of stages, each of which takes the stream of the stage before it.

Results:
* `arrange_perm`: ordering loses and repeats no document.
-/
namespace Folio

/-- The direction of an order. -/
inductive Direction where
  | ascending
  | descending
  deriving DecidableEq, Repr

/-- How to order, skip and limit the documents that were found. -/
structure FindOptions where
  skip : Option Nat := none
  limit : Option Nat := none
  sort : Option (String × Direction) := none
  deriving DecidableEq, Repr

/-- Which version of a changed document to answer with. -/
inductive Version where
  | before
  | after
  deriving DecidableEq, Repr

/-- One stage of a pipeline. -/
inductive Stage where
  | select (filter : Filter)
  | sort (field : String) (direction : Direction)
  | skip (n : Nat)
  | limit (n : Nat)
  /-- Only the named fields and the id. -/
  | project (fields : List String)
  /-- One document with the number of documents under the name. -/
  | count (field : String)

namespace Query

/-- The order of two documents by a field. An absent field comes first; values
that cannot be compared count as equal. -/
def order (field : String) (direction : Direction) (a b : Document) : Ordering :=
  let ascending :=
    match a.getPath? field, b.getPath? field with
    | some x, some y => (x.compare? y).getD .eq
    | none, some _ => .lt
    | some _, none => .gt
    | none, none => .eq
  match direction with
  | .ascending => ascending
  | .descending => ascending.swap

/-- The documents in order of a field; equal ones stay as they stood. -/
def arrange (field : String) (direction : Direction) (docs : List Document) : List Document :=
  docs.mergeSort fun a b => (order field direction a b).isLE

theorem arrange_perm (field : String) (direction : Direction) (docs : List Document) :
    (arrange field direction docs).Perm docs :=
  List.mergeSort_perm ..

end Query

/-- The documents ordered, then without those to skip, then at most so many. -/
def FindOptions.apply (options : FindOptions) (docs : List Document) : List Document :=
  let ordered :=
    match options.sort with
    | some (field, direction) => Query.arrange field direction docs
    | none => docs
  let rest := ordered.drop (options.skip.getD 0)
  match options.limit with
  | some n => rest.take n
  | none => rest

namespace Stage

/-- The stream after the stage. -/
def apply (docs : List Document) : Stage → List Document
  | select filter => docs.filter (filter.matchesDoc ·)
  | sort field direction => Query.arrange field direction docs
  | skip n => docs.drop n
  | limit n => docs.take n
  | project fields =>
    docs.map fun doc => ⟨doc.fields.filter fun f => f.1 = idField || fields.contains f.1⟩
  | count field => [Document.empty.insert field (.integer (Int64.ofNat docs.length))]

/-- The stream after each stage of a pipeline. -/
def scan (docs : List Document) : List Stage → List (List Document)
  | [] => []
  | stage :: rest => stage.apply docs :: scan (stage.apply docs) rest

/-- The stream after a pipeline. -/
def run (docs : List Document) (stages : List Stage) : List Document :=
  stages.foldl apply docs

end Stage
end Folio
