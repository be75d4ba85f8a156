/-!
# Declared types

What a schema declares: enumerations, capabilities and entity classes, with
the accessors that classes and capabilities have. Classes refer to each other,
also in circles, so a reference is a place in the schema together with the
class's name. Classes, enumerations and capabilities are told apart by name.

Results:
* `ValueType.beq_refl`: every type equals itself.
-/
namespace Folio

/-- The primitive kinds of value. -/
inductive Primitive where
  | bool
  | byte
  | short
  | int
  | long
  | float
  | double
  | char
  deriving DecidableEq, Repr

namespace Primitive

/-- The name of a kind. -/
def name : Primitive → String
  | bool => "bool"
  | byte => "byte"
  | short => "short"
  | int => "int"
  | long => "long"
  | float => "float"
  | double => "double"
  | char => "char"

end Primitive

/-- An enumeration: a name and its symbols in order. -/
structure EnumClass where
  name : String
  symbols : List String
  deriving DecidableEq, Repr

/-- A reference to an entity class. -/
structure ClassRef where
  /-- The place of the declaration in the schema. -/
  place : Nat
  name : String
  deriving DecidableEq, Repr

/-- The type of a property or of a value. -/
inductive ValueType where
  /-- A primitive that is never unset. -/
  | primitive (p : Primitive)
  /-- A primitive that may be unset. -/
  | boxed (p : Primitive)
  | text
  | bytes
  | objectId
  | dateTime
  | document
  | enum (e : EnumClass)
  | entity (c : ClassRef)
  | list (element : ValueType)
  /-- A type from outside, known by its name. -/
  | foreign (name : String)
  /-- Any type. -/
  | any
  deriving DecidableEq, Repr

namespace ValueType

/-- Whether two types are the same; enumerations and classes are by name. -/
def same : ValueType → ValueType → Bool
  | primitive a, primitive b => a == b
  | boxed a, boxed b => a == b
  | text, text => true
  | bytes, bytes => true
  | objectId, objectId => true
  | dateTime, dateTime => true
  | document, document => true
  | enum a, enum b => a.name == b.name
  | entity a, entity b => a.name == b.name
  | list a, list b => same a b
  | foreign a, foreign b => a == b
  | any, any => true
  | _, _ => false

instance (priority := high) : BEq ValueType := ⟨same⟩

theorem beq_refl (t : ValueType) : (t == t) = true := by
  show same t t = true
  induction t <;> simp_all [same]

/-- Whether a property of the type is never unset. -/
def isPrimitive : ValueType → Bool
  | primitive _ => true
  | _ => false

/-- The name of a type. -/
def display : ValueType → String
  | primitive p => p.name
  | boxed p => "Option<" ++ p.name ++ ">"
  | text => "text"
  | bytes => "bytes"
  | objectId => "objectId"
  | dateTime => "dateTime"
  | document => "document"
  | enum e => e.name
  | entity c => c.name
  | list t => "list<" ++ t.display ++ ">"
  | foreign name => name
  | any => "any"

/-- The class that a type names. -/
def class? : ValueType → Option ClassRef
  | entity c => some c
  | _ => none

end ValueType

/-- The signature of an accessor. -/
structure Method where
  name : String
  params : List ValueType
  returns : Option ValueType
  deriving DecidableEq, Repr

namespace Method

/-- A method without parameters. -/
def getter (name : String) (returns : ValueType) : Method := ⟨name, [], some returns⟩

/-- A method with one parameter and no result. -/
def setter (name : String) (param : ValueType) : Method := ⟨name, [param], none⟩

end Method

/-- A named set of accessors that classes may implement. -/
structure Capability where
  name : String
  methods : List Method
  deriving DecidableEq, Repr

namespace Capability

/-- Records with a name. -/
def namable : Capability :=
  ⟨"Namable", [.getter "getName" .text, .setter "setName" .text]⟩

/-- Records with a description. -/
def describable : Capability :=
  ⟨"Describable", [.getter "getDescription" .text, .setter "setDescription" .text]⟩

/-- Records that are marked as defunct where others are removed. -/
def defunctable : Capability :=
  ⟨"Defunctable", [.getter "isDefunct" (.primitive .bool), .setter "setDefunct" (.primitive .bool)]⟩

end Capability

/-- How a class is realised. -/
inductive ClassForm where
  /-- A declaration only; its instances are dynamic. -/
  | trait
  /-- A record type, with or without a constructor for everyone. -/
  | concrete (constructible : Bool)
  | abstract
  deriving DecidableEq, Repr

namespace ClassForm

/-- The text of a form. -/
def written : ClassForm → String
  | trait => "Trait"
  | concrete b => "Concrete \x7b public_constructor: " ++ toString b ++ " \x7d"
  | abstract => "Abstract"

end ClassForm

/-- The declaration of an entity class. -/
structure EntityClass where
  name : String
  form : ClassForm
  /-- The table marker; an empty one marks without naming. -/
  table : Option String := none
  /-- The namespace marker. -/
  nameSpace : Option String := none
  parents : List ClassRef := []
  capabilities : List Capability := []
  methods : List Method := []
  deriving DecidableEq, Repr

/-- The declared classes. A reference is a place in this list. -/
structure Schema where
  classes : List EntityClass
  deriving DecidableEq, Repr

namespace Schema

/-- The declaration that a reference leads to. -/
def find? (s : Schema) (c : ClassRef) : Option EntityClass := s.classes[c.place]?

/-- The names of the declared classes. -/
def names (s : Schema) : List String := s.classes.map (·.name)

theorem name_mem_of_find? {s : Schema} {c : ClassRef} {d : EntityClass} (h : s.find? c = some d) :
    d.name ∈ s.names :=
  List.mem_map_of_mem (List.mem_of_getElem? h)

end Schema
end Folio
