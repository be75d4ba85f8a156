import Folio.Keyed
import Folio.Schema.Descriptor
import Folio.Value.Basic

/-!
# Values of properties

A property holds a value of memory: a primitive of some width, a text, a
record, a list and so on. An entity is a record of a class with its set
properties, sorted by name.

Results:
* `storedForm_of_scalar`: under a type other than any and lists, a value is
  its own stored form.
-/
namespace Folio

open Number (Double Single)

/-- A symbol of an enumeration. -/
structure EnumValue where
  cls : EnumClass
  ordinal : Nat
  deriving DecidableEq, Repr

namespace EnumValue

/-- The name of a symbol. -/
def name (e : EnumValue) : String := (e.cls.symbols[e.ordinal]?).getD ""

/-- Whether two symbols are the same: of enumerations of one name, at one place. -/
def same (a b : EnumValue) : Bool := a.cls.name == b.cls.name && a.ordinal == b.ordinal

/-- The text of a symbol. -/
def written (e : EnumValue) : String := e.cls.name ++ "::" ++ e.name

end EnumValue

namespace EnumClass

/-- The first symbol of a name. -/
def ofName? (e : EnumClass) (symbol : String) : Option EnumValue :=
  (e.symbols.findIdx? (· = symbol)).map fun i => ⟨e, i⟩

/-- The symbol at a place. -/
def ofOrdinal? (e : EnumClass) (ordinal : Nat) : Option EnumValue :=
  if ordinal < e.symbols.length then some ⟨e, ordinal⟩ else none

end EnumClass

/-- A value from outside, which only its type's name and its identity tell
from others. -/
structure Foreign where
  typeName : String
  identity : Nat
  /-- What its maker attached to it. -/
  label : Option Int
  deriving DecidableEq, Repr

mutual

/-- The value of a property. -/
inductive FieldValue where
  | bool (b : Bool)
  | byte (n : Int8)
  | short (n : Int16)
  | int (n : Int32)
  | long (n : Int64)
  | float (x : Single)
  | double (x : Double)
  | char (c : Char)
  | text (s : String)
  | bytes (b : Bytes)
  | objectId (id : ObjectId)
  | dateTime (t : DateTime)
  | enum (e : EnumValue)
  | entity (e : Entity)
  | list (items : List FieldValue)
  | document (doc : Document)
  | foreign (f : Foreign)

/-- A record of a class. -/
structure Entity where
  cls : ClassRef
  descriptor : Descriptor
  /-- The set properties, sorted by name. -/
  attributes : List (String × FieldValue)

end

/-- The set properties of a record, sorted by name. -/
abbrev Fields := List (String × FieldValue)

instance : Inhabited FieldValue := ⟨.bool false⟩

namespace Primitive

/-- The value that a primitive property has at first. -/
def zero : Primitive → FieldValue
  | bool => .bool false
  | byte => .byte 0
  | short => .short 0
  | int => .int 0
  | long => .long 0
  | float => .float (.ofBits 0)
  | double => .double (.ofBits 0)
  | char => .char (Char.ofNat 0)

end Primitive

namespace FieldValue

/-- The type of a value as it is. -/
def type : FieldValue → ValueType
  | bool _ => .primitive .bool
  | byte _ => .primitive .byte
  | short _ => .primitive .short
  | int _ => .primitive .int
  | long _ => .primitive .long
  | float _ => .primitive .float
  | double _ => .primitive .double
  | char _ => .primitive .char
  | text _ => .text
  | bytes _ => .bytes
  | objectId _ => .objectId
  | dateTime _ => .dateTime
  | enum e => .enum e.cls
  | entity e => .entity e.cls
  | list _ => .list .any
  | document _ => .document
  | foreign f => .foreign f.typeName

/-! ## Equality -/

mutual

/-- Equality. Numbers are equal as numbers, records by class name and
properties, and values from outside by identity. -/
def equal : FieldValue → FieldValue → Bool
  | bool a, bool b => a == b
  | byte a, byte b => a == b
  | short a, short b => a == b
  | int a, int b => a == b
  | long a, long b => a == b
  | float a, float b => a == b
  | double a, double b => a == b
  | char a, char b => a == b
  | text a, text b => a == b
  | bytes a, bytes b => a == b
  | objectId a, objectId b => a == b
  | dateTime a, dateTime b => a == b
  | enum a, enum b => a.same b
  | entity ⟨c, _, a⟩, entity ⟨d, _, b⟩ => c.name == d.name && equalFields a b
  | list a, list b => equalItems a b
  | document a, document b => a == b
  | foreign a, foreign b => a.typeName == b.typeName && a.identity == b.identity
  | _, _ => false

/-- Equality of items, in order. -/
def equalItems : List FieldValue → List FieldValue → Bool
  | [], [] => true
  | a :: as, b :: bs => equal a b && equalItems as bs
  | _, _ => false

/-- Equality of properties. -/
def equalFields : List (String × FieldValue) → List (String × FieldValue) → Bool
  | [], [] => true
  | (k, a) :: as, (l, b) :: bs => k == l && equal a b && equalFields as bs
  | _, _ => false

end

instance : BEq FieldValue := ⟨equal⟩

/-! ## Views -/

/-- The flag. -/
def bool? : FieldValue → Option Bool
  | bool b => some b
  | _ => none

/-- An integer of any width. -/
def integer? : FieldValue → Option Int
  | byte n => some n.toInt
  | short n => some n.toInt
  | int n => some n.toInt
  | long n => some n.toInt
  | _ => none

/-- The text. -/
def text? : FieldValue → Option String
  | text s => some s
  | _ => none

/-- The byte string. -/
def bytes? : FieldValue → Option Bytes
  | bytes b => some b
  | _ => none

/-- The id. -/
def objectId? : FieldValue → Option ObjectId
  | objectId id => some id
  | _ => none

/-- The timestamp. -/
def dateTime? : FieldValue → Option DateTime
  | dateTime t => some t
  | _ => none

/-- The symbol. -/
def enum? : FieldValue → Option EnumValue
  | enum e => some e
  | _ => none

/-- The record. -/
def entity? : FieldValue → Option Entity
  | entity e => some e
  | _ => none

/-- The items. -/
def list? : FieldValue → Option (List FieldValue)
  | list items => some items
  | _ => none

/-! ## Not a number -/

mutual

/-- Whether a NaN stands anywhere in the value. Records never hold one. -/
def hasNaN : FieldValue → Bool
  | float x => x.isNaN
  | double x => x.isNaN
  | list items => hasNaNItems items
  | document doc => Value.hasNaNFields doc.fields
  | _ => false

/-- Whether a NaN stands anywhere in the items. -/
def hasNaNItems : List FieldValue → Bool
  | [] => false
  | v :: rest => hasNaN v || hasNaNItems rest

end

/-! ## Fitting a declared type -/

/-- Whether a property of the declared type may hold the value. A record may
be of a class below the declared one. -/
def fits (s : Schema) : ValueType → FieldValue → Bool
  | .any, _ => true
  | .primitive p, v => v.type == .primitive p
  | .boxed p, v => v.type == .primitive p
  | .entity c, .entity e => s.isA e.cls c
  | .list element, v =>
    match v.list? with
    | some items => items.all (fits s element)
    | none => false
  | declared, v => v.type == declared

/-! ## Stored form -/

mutual

/-- The value as it reads back when its type is not known: integers and floats
become wide, and characters and symbols become texts. Records and values from
outside have no such form; then the type is the answer. -/
def untyped : FieldValue → Except ValueType FieldValue
  | byte n => .ok (long n.toInt64)
  | short n => .ok (long n.toInt64)
  | int n => .ok (long n.toInt64)
  | float x => .ok (double x.toDouble)
  | char c => .ok (text (String.singleton c))
  | enum e => .ok (text e.name)
  | list items => (untypedItems items).map list
  | entity e => .error (.entity e.cls)
  | foreign f => .error (.foreign f.typeName)
  | v => .ok v

/-- The untyped form of each item. -/
def untypedItems : List FieldValue → Except ValueType (List FieldValue)
  | [] => .ok []
  | v :: rest => do return (← untyped v) :: (← untypedItems rest)

end

/-- The value as it reads back under the declared type. -/
def storedForm : ValueType → FieldValue → Except ValueType FieldValue
  | .any, v => v.untyped
  | .list element, list items => (items.mapM (storedForm element)).map list
  | _, v => .ok v

theorem storedForm_of_scalar {t : ValueType} (v : FieldValue) (any : t ≠ .any)
    (list : ∀ e, t ≠ .list e) : storedForm t v = .ok v := by
  cases t <;> simp_all [storedForm]

end FieldValue

/-- Records are equal when their classes have one name and their properties
are equal. -/
instance : BEq Entity := ⟨fun a b => FieldValue.equal (.entity a) (.entity b)⟩

namespace Fields

/-- Whether two sets of properties are equal. -/
def same (a b : Fields) : Bool := FieldValue.equalFields a b

end Fields
end Folio
