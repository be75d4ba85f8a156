import Folio.Entity.Basic
import Folio.Value.Written

/-!
# The text of a record

A property's value is written as its kind and its content, like a value of a
document. A record shows its class and its properties by name.
-/
namespace Folio

/-- Entries between braces, with commas. -/
def braced (entries : List String) : String :=
  "\x7b" ++ String.intercalate ", " entries ++ "\x7d"

/-- The text of a record with the properties written as given. -/
def Entity.around (kind : String) (cls : ClassRef) (label : String) (entries : List String) :
    String :=
  kind ++ " \x7b class: " ++ Text.quoted cls.name ++ ", " ++ label ++ ": " ++ braced entries ++
    " \x7d"

namespace FieldValue

mutual

/-- The text of a property's value. -/
def written : FieldValue → String
  | bool b => "Bool(" ++ toString b ++ ")"
  | byte n => "Byte(" ++ toString n.toInt ++ ")"
  | short n => "Short(" ++ toString n.toInt ++ ")"
  | int n => "Int(" ++ toString n.toInt ++ ")"
  | long n => "Long(" ++ toString n.toInt ++ ")"
  | float x => "Float(" ++ x.render .plain ++ ")"
  | double x => "Double(" ++ x.render .plain ++ ")"
  | char c => "Char(" ++ Text.quotedChar c ++ ")"
  | text s => "Text(" ++ Text.quoted s ++ ")"
  | bytes b => "Bytes(" ++ b.written ++ ")"
  | objectId id => "ObjectId(" ++ id.written ++ ")"
  | dateTime t => "DateTime(" ++ t.written ++ ")"
  | enum e => "Enum(" ++ e.written ++ ")"
  | entity ⟨cls, _, attributes⟩ =>
    "Entity(" ++ Entity.around "Entity" cls "attributes" (writtenFields attributes) ++ ")"
  | list items => "List(" ++ bracketed (writtenItems items) ++ ")"
  | document doc => "Document(" ++ doc.written ++ ")"
  | foreign f => "Opaque(Opaque(" ++ f.typeName ++ "))"

/-- The text of each item. -/
def writtenItems : List FieldValue → List String
  | [] => []
  | v :: rest => written v :: writtenItems rest

/-- The text of each property. -/
def writtenFields : List (String × FieldValue) → List String
  | [] => []
  | (k, v) :: rest => (Text.quoted k ++ ": " ++ written v) :: writtenFields rest

end

end FieldValue

namespace Entity

/-- The text of an entity. -/
def written (e : Entity) : String :=
  around "Entity" e.cls "attributes" (FieldValue.writtenFields e.attributes)

/-- The text of an entity for reading: the bare name of its class and its
properties. -/
def display (e : Entity) : String :=
  EntityClass.simpleName e.cls.name ++ braced (FieldValue.writtenFields e.attributes)

end Entity

/-- A record that keeps what it was given. -/
structure Snapshot where
  cls : ClassRef
  fields : Fields

/-- The text of a snapshot. -/
def Snapshot.written (r : Snapshot) : String :=
  Entity.around "Snapshot" r.cls "fields" (FieldValue.writtenFields r.fields)

end Folio
