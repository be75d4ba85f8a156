import Folio.Value.Document

/-!
# Filters

A filter is a predicate on documents. Fields are named by dotted paths. An
absent field is as good as null, and a field that holds an array is looked
into, unless it is compared with an array.

Results:
* `matches_both`: a conjunction matches what all its parts match, however it
  was simplified.
-/
namespace Folio

/-- The name of the field that identifies a document. -/
def idField : String := "_id"

/-- A predicate on documents. -/
inductive Filter where
  | all
  | eq (field : String) (value : Value)
  | ne (field : String) (value : Value)
  | isIn (field : String) (values : List Value)
  | gt (field : String) (value : Value)
  | lt (field : String) (value : Value)
  | exists (field : String) (present : Bool)
  | and (parts : List Filter)
  | or (parts : List Filter)

namespace Filter

instance : Inhabited Filter := ⟨all⟩

/-- Whether two values count as the same: equal, or equal in order. -/
def same (a b : Value) : Bool := a == b || a.compare? b == some .eq

/-- Whether the field of the document equals the value. -/
def fieldEquals (doc : Document) (field : String) (value : Value) : Bool :=
  match doc.getPath? field with
  | none => value.isNull
  | some (.array items) =>
    match value with
    | .array _ => same (.array items) value
    | _ => items.any fun item => same item value
  | some actual => same actual value

/-- Whether the field of the document stands to the value as asked for. -/
def fieldCompares (doc : Document) (field : String) (value : Value) (wanted : Ordering) : Bool :=
  match doc.getPath? field with
  | some actual => actual.compare? value == some wanted
  | none => false

mutual

/-- Whether the filter matches the document. -/
def matchesDoc (doc : Document) : Filter → Bool
  | all => true
  | eq field value => fieldEquals doc field value
  | ne field value => !fieldEquals doc field value
  | isIn field values => values.any (fieldEquals doc field ·)
  | gt field value => fieldCompares doc field value .gt
  | lt field value => fieldCompares doc field value .lt
  | .exists field present => (doc.getPath? field).isSome == present
  | and parts => matchesAll doc parts
  | or parts => matchesAny doc parts

/-- Whether each part matches. -/
def matchesAll (doc : Document) : List Filter → Bool
  | [] => true
  | f :: rest => matchesDoc doc f && matchesAll doc rest

/-- Whether some part matches. -/
def matchesAny (doc : Document) : List Filter → Bool
  | [] => false
  | f :: rest => matchesDoc doc f || matchesAny doc rest

end

/-- Whether this is the filter that matches everything. -/
def isAll : Filter → Bool
  | all => true
  | _ => false

/-- The conjunction: parts that match everything are left out, and a part that
remains alone stands for itself. -/
def both (parts : List Filter) : Filter :=
  match parts.filter (!·.isAll) with
  | [] => all
  | [f] => f
  | fs => and fs

/-- The filter for one id. -/
def id (id : ObjectId) : Filter := eq idField (.objectId id)

theorem matchesAll_eq (doc : Document) (parts : List Filter) :
    matchesAll doc parts = parts.all (matchesDoc doc ·) := by
  induction parts with
  | nil => rfl
  | cons f rest ih => simp [matchesAll, ih]

theorem matchesAny_eq (doc : Document) (parts : List Filter) :
    matchesAny doc parts = parts.any (matchesDoc doc ·) := by
  induction parts with
  | nil => rfl
  | cons f rest ih => simp [matchesAny, ih]

theorem matches_filter_isAll (doc : Document) (parts : List Filter) :
    (parts.filter (!·.isAll)).all (matchesDoc doc ·) = parts.all (matchesDoc doc ·) := by
  induction parts with
  | nil => rfl
  | cons f rest ih => cases f <;> simp_all [isAll, matchesDoc]

theorem matches_both (doc : Document) (parts : List Filter) :
    matchesDoc doc (both parts) = parts.all (matchesDoc doc ·) := by
  rw [← matches_filter_isAll, both]
  split
  · simp_all [matchesDoc]
  · simp_all
  · rw [matchesDoc, matchesAll_eq]

end Filter
end Folio
