import Folio.Number.Floating
import Folio.ObjectId

/-!
# Values and documents

A value is what a document holds under a name: a scalar, an array of values or
a document. A document is a list of named values. The order of its fields is
kept and shown, and documents that the operations of this library build have
each name once.

Results:
* `Value.compare?` never answers for a NaN, and answers for every other pair
  of numbers (`isNumber_iff_widen`).
-/
namespace Folio

open Number (Double)

mutual

/-- A value of a document. -/
inductive Value where
  | null
  | bool (b : Bool)
  | integer (n : Int64)
  | double (d : Double)
  | text (s : String)
  | bytes (b : Bytes)
  | objectId (id : ObjectId)
  | dateTime (t : DateTime)
  | array (items : List Value)
  | document (doc : Document)

/-- A list of named values. -/
structure Document where
  fields : List (String × Value)

end

instance : Inhabited Value := ⟨.null⟩
instance : Inhabited Document := ⟨⟨[]⟩⟩

namespace Value

/-- The name of a value's type. -/
def typeName : Value → String
  | null => "null"
  | bool _ => "bool"
  | integer _ => "integer"
  | double _ => "double"
  | text _ => "text"
  | bytes _ => "bytes"
  | objectId _ => "objectId"
  | dateTime _ => "dateTime"
  | array _ => "array"
  | document _ => "document"

/-- Whether this is null. -/
def isNull : Value → Bool
  | null => true
  | _ => false

/-- The flag. -/
def bool? : Value → Option Bool
  | bool b => some b
  | _ => none

/-- The integer. -/
def integer? : Value → Option Int64
  | integer n => some n
  | _ => none

/-- The number as a double; an integer is rounded to the nearest one. -/
def widen? : Value → Option Double
  | double d => some d
  | integer n => some (.ofInt n.toInt)
  | _ => none

/-- The text. -/
def text? : Value → Option String
  | text s => some s
  | _ => none

/-- The byte string. -/
def bytes? : Value → Option Bytes
  | bytes b => some b
  | _ => none

/-- The id. -/
def objectId? : Value → Option ObjectId
  | objectId id => some id
  | _ => none

/-- The timestamp. -/
def dateTime? : Value → Option DateTime
  | dateTime t => some t
  | _ => none

/-- The elements. -/
def array? : Value → Option (List Value)
  | array items => some items
  | _ => none

/-- The document. -/
def document? : Value → Option Document
  | document doc => some doc
  | _ => none

/-- Whether this is an integer or a double. -/
def isNumber : Value → Bool
  | integer _ | double _ => true
  | _ => false

theorem isNumber_iff_widen {v : Value} : v.isNumber = true ↔ v.widen?.isSome = true := by
  cases v <;> simp [isNumber, widen?]

/-! ## Equality -/

mutual

/-- Equality. Doubles are equal as numbers, so a NaN equals nothing; documents
are equal when they have equal fields in the same order. -/
def equal : Value → Value → Bool
  | null, null => true
  | bool a, bool b => a == b
  | integer a, integer b => a == b
  | double a, double b => a == b
  | text a, text b => a == b
  | bytes a, bytes b => a == b
  | objectId a, objectId b => a == b
  | dateTime a, dateTime b => a == b
  | array a, array b => equalItems a b
  | document ⟨a⟩, document ⟨b⟩ => equalFields a b
  | _, _ => false

/-- Equality of elements, in order. -/
def equalItems : List Value → List Value → Bool
  | [], [] => true
  | a :: as, b :: bs => equal a b && equalItems as bs
  | _, _ => false

/-- Equality of fields, in order. -/
def equalFields : List (String × Value) → List (String × Value) → Bool
  | [], [] => true
  | (k, a) :: as, (l, b) :: bs => k == l && equal a b && equalFields as bs
  | _, _ => false

end

instance : BEq Value := ⟨equal⟩

/-! ## Order -/

/-- The order of two values of compatible types. Integers compare exactly with
each other and as doubles with doubles; any other type only with itself. -/
def compare? : Value → Value → Option Ordering
  | null, null => some .eq
  | bool a, bool b => some (compare a b)
  | integer a, integer b => some (compare a.toInt b.toInt)
  | text a, text b => some (compare (Bytes.ofText a) (Bytes.ofText b))
  | bytes a, bytes b => some (compare a b)
  | objectId a, objectId b => some (a.cmp b)
  | dateTime a, dateTime b => some (a.cmp b)
  | a, b => do (← a.widen?).compare? (← b.widen?)

/-! ## Not a number -/

mutual

/-- Whether a NaN stands anywhere in the value. -/
def hasNaN : Value → Bool
  | double d => d.isNaN
  | array items => hasNaNItems items
  | document ⟨fields⟩ => hasNaNFields fields
  | _ => false

/-- Whether a NaN stands anywhere in the elements. -/
def hasNaNItems : List Value → Bool
  | [] => false
  | v :: rest => hasNaN v || hasNaNItems rest

/-- Whether a NaN stands anywhere in the fields. -/
def hasNaNFields : List (String × Value) → Bool
  | [] => false
  | (_, v) :: rest => hasNaN v || hasNaNFields rest

end

/-! ## Depth -/

mutual

/-- How deep containers are nested; a scalar has depth one. -/
def depth : Value → Nat
  | array items => depthItems items + 1
  | document ⟨fields⟩ => depthFields fields + 1
  | _ => 1

/-- The depth of the deepest element. -/
def depthItems : List Value → Nat
  | [] => 0
  | v :: rest => max (depth v) (depthItems rest)

/-- The depth of the deepest field. -/
def depthFields : List (String × Value) → Nat
  | [] => 0
  | (_, v) :: rest => max (depth v) (depthFields rest)

end

end Value

/-- Documents are equal when they have equal fields in the same order. -/
instance : BEq Document := ⟨fun a b => Value.equalFields a.fields b.fields⟩

end Folio
