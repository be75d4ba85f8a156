import Folio.Number.Written
import Folio.Value.Document

/-!
# The text of a value

A value is written as its kind and, in parentheses, its content. Messages name
ids in this form, and a document shows its fields in it.
-/
namespace Folio

/-- Items between brackets, with commas. -/
def bracketed (items : List String) : String :=
  "[" ++ String.intercalate ", " items ++ "]"

/-- The text of a byte string: its bytes in decimal. -/
def Bytes.written (b : Bytes) : String := bracketed (b.map fun x => toString x.toNat)

/-- The text of an id. -/
def ObjectId.written (id : ObjectId) : String := "ObjectId(" ++ id.toHex ++ ")"

/-- The text of a timestamp. -/
def DateTime.written (t : DateTime) : String := "DateTime(" ++ toString t.millis.toInt ++ ")"

/-- The text of a document with the fields written as given. -/
def Document.around (fields : List String) : String :=
  "Document \x7b fields: " ++ bracketed fields ++ " \x7d"

namespace Value

mutual

/-- The text of a value. -/
def written : Value → String
  | null => "Null"
  | bool b => "Bool(" ++ toString b ++ ")"
  | integer n => "Integer(" ++ toString n.toInt ++ ")"
  | double d => "Double(" ++ d.render .plain ++ ")"
  | text s => "Text(" ++ Text.quoted s ++ ")"
  | bytes b => "Bytes(" ++ b.written ++ ")"
  | objectId id => "ObjectId(" ++ id.written ++ ")"
  | dateTime t => "DateTime(" ++ t.written ++ ")"
  | array items => "Array(" ++ bracketed (writtenItems items) ++ ")"
  | document ⟨fields⟩ => "Document(" ++ Document.around (writtenFields fields) ++ ")"

/-- The text of each element. -/
def writtenItems : List Value → List String
  | [] => []
  | v :: rest => written v :: writtenItems rest

/-- The text of each field, a pair. -/
def writtenFields : List (String × Value) → List String
  | [] => []
  | (k, v) :: rest => ("(" ++ Text.quoted k ++ ", " ++ written v ++ ")") :: writtenFields rest

end

end Value

namespace Document

/-- The text of a document: its kind and its fields as pairs. -/
def written (doc : Document) : String := around (Value.writtenFields doc.fields)

/-- The text of a document for reading: bare names and written values. -/
def display (doc : Document) : String :=
  "\x7b" ++ String.intercalate ", " (doc.fields.map fun (k, v) => k ++ ": " ++ v.written) ++ "\x7d"

end Document
end Folio
