import Folio.Exchange.Schema

/-!
# Properties as plain data

The value of a property is a list whose first item tells its type, and null
stands for a property that is not set. Records are read through their class,
so a record that is read is one that the class accepts.

Results:
* `toPlain_text`: a text is written under the word for its type.
-/
namespace Folio.FieldValue

open FromPlain (read item)

/-- The record of a class with these properties. -/
def entityOf (cls : String) (fields : Fields) : Reading FieldValue := do
  let c ← Declared.refer Declared.classes cls
  let (result, catalog) := (Entity.instantiate c (some fields)).run (← get).catalog
  modify fun d => { d with catalog := catalog }
  match result with
  | .ok e => return entity e
  | .error failure => throw (.refused failure.message)

/-- A value that holds no other values. -/
def scalarOfPlain (kind : String) (args : Plain) : Reading FieldValue := do
  let n : Reading Int := item args 0
  match kind with
  | "bool" => return bool (← item args 0)
  | "byte" => return byte (Int8.ofInt (← n))
  | "short" => return short (Int16.ofInt (← n))
  | "int" => return int (Int32.ofInt (← n))
  | "long" => return long (Int64.ofInt (← n))
  | "float" => return float (← item args 0)
  | "double" => return double (← item args 0)
  | "char" =>
    match (← item (α := String) args 0).toList with
    | [c] => return char c
    | _ => throw (.expected "one character")
  | "text" => return text (← item args 0)
  | "bytes" => return bytes (← item args 0)
  | "oid" => return objectId (← item args 0)
  | "date" => return dateTime (← item args 0)
  | "doc" => return document (← item args 0)
  | "enum" =>
    let e : EnumClass ← item args 0
    match e.ofName? (← item args 1) with
    | some symbol => return enum symbol
    | none => throw (.expected "a symbol")
  | "entity" => entityOf (← item args 0) []
  | "opaque" =>
    let d ← get
    set { d with identities := d.identities + 1 }
    return foreign ⟨← item args 0, d.identities, ← item args 1⟩
  | _ => throw (.expected "a type of value")

mutual

/-- The value that plain data stands for. -/
def ofPlain : Plain → Reading FieldValue
  | .list [.text "list", .list items] => do return list (← itemsOfPlain items)
  | .list [.text "entity", .text cls, .object entries] => do
    entityOf cls (Keyed.ofList (← entriesOfPlain entries))
  | .list (.text kind :: args) => scalarOfPlain kind (.list args)
  | _ => throw (.expected "the value of a property")

/-- The values that the items stand for. -/
def itemsOfPlain : List Plain → Reading (List FieldValue)
  | [] => pure []
  | p :: rest => do
    let first ← ofPlain p
    return first :: (← itemsOfPlain rest)

/-- The properties that are not null. -/
def entriesOfPlain : List (String × Plain) → Reading (List (String × FieldValue))
  | [] => pure []
  | (_, .null) :: rest => entriesOfPlain rest
  | (name, p) :: rest => do
    let first ← ofPlain p
    return (name, first) :: (← entriesOfPlain rest)

end

mutual

/-- The plain data of a value. -/
def toPlain : FieldValue → Plain
  | bool b => .list [.text "bool", plain b]
  | byte n => .list [.text "byte", .ofWhole n.toInt]
  | short n => .list [.text "short", .ofWhole n.toInt]
  | int n => .list [.text "int", .ofWhole n.toInt]
  | long n => .list [.text "long", .ofWhole n.toInt]
  | float x => .list [.text "float", plain x]
  | double x => .list [.text "double", plain x]
  | char c => .list [.text "char", .text (String.singleton c)]
  | text s => .list [.text "text", .text s]
  | bytes b => .list [.text "bytes", .ofBytes b]
  | objectId id => .list [.text "oid", plain id]
  | dateTime t => .list [.text "date", plain t]
  | enum e => .list [.text "enum", .text e.cls.name, .text e.name]
  | entity ⟨cls, _, fields⟩ =>
    .list [.text "entity", .text cls.name, .object (entriesToPlain fields)]
  | list items => .list [.text "list", .list (itemsToPlain items)]
  | document doc => .list [.text "doc", plain doc]
  | foreign f => .list [.text "opaque", .text f.typeName, f.label.elim .null .number]

/-- The plain data of each item. -/
def itemsToPlain : List FieldValue → List Plain
  | [] => []
  | v :: rest => toPlain v :: itemsToPlain rest

/-- The plain data of each property, by name. -/
def entriesToPlain : List (String × FieldValue) → List (String × Plain)
  | [] => []
  | (name, v) :: rest => (name, toPlain v) :: entriesToPlain rest

end

/-- The names of the views that show something of a value. -/
def views (v : FieldValue) : List String :=
  let all := [("bool", v.bool?.isSome), ("str", v.text?.isSome), ("bytes", v.bytes?.isSome),
    ("oid", v.objectId?.isSome), ("date", v.dateTime?.isSome), ("enum", v.enum?.isSome),
    ("entity", v.entity?.isSome), ("list", v.list?.isSome)]
  (all.filter (·.2)).map (·.1)

theorem toPlain_text (s : String) : toPlain (text s) = .list [.text "text", .text s] := rfl

instance : FromPlain FieldValue := ⟨ofPlain⟩
instance : ToPlain FieldValue := ⟨toPlain⟩

/-- The properties that an object stands for. -/
instance : FromPlain Fields := ⟨fun
  | .object entries => do return Keyed.ofList (← entriesOfPlain entries)
  | .null => pure []
  | _ => throw (.expected "properties")⟩

instance : ToPlain Fields := ⟨fun fields => .object (entriesToPlain fields)⟩

instance : ToPlain EnumValue :=
  ⟨fun e => .list [plain e.ordinal, plain e.name, plain e.cls.name, plain e.written]⟩

end Folio.FieldValue
