import Folio.Schema.Naming

/-!
# Descriptors

The descriptor of a class says what each of its accessors does and which
properties they make up. It is made from the class's accessors, in order.

Results:
* `names_addProperty`: adding an accessor lists its property once.
-/
namespace Folio

/-- What an accessor does. -/
inductive Accessor where
  | read (property : String)
  | write (property : String) (type : ValueType)
  | clone
  deriving DecidableEq, Repr

/-- How a property can be accessed. -/
inductive AccessShape where
  | readOnly
  | writeOnly
  | readWrite
  deriving DecidableEq, Repr

namespace AccessShape

/-- The shape of both. -/
def merge (a b : AccessShape) : AccessShape := if a = b then a else readWrite

end AccessShape

/-- A property of a class. -/
structure Property where
  name : String
  /-- The declared type; any if the accessors disagree. -/
  type : ValueType
  shape : AccessShape
  deriving DecidableEq, Repr

/-- What is known of one class. -/
structure Descriptor where
  cls : ClassRef
  /-- The accessors by name; the last of a name counts. -/
  accessors : List (String × Accessor)
  properties : List Property
  /-- The properties that are never unset, and their kinds. -/
  defaults : List (String × Primitive)
  deriving DecidableEq, Repr

namespace Accessor

/-- The rest of a text after a beginning, if it is not empty. -/
def suffix? (lead name : String) : Option String :=
  match go lead.toList name.toList with
  | some (c :: rest) => some (String.ofList (c :: rest))
  | _ => none
where
  /-- The characters after the beginning. -/
  go : List Char → List Char → Option (List Char)
    | [], rest => some rest
    | _ :: _, [] => none
    | a :: as, b :: bs => if a = b then go as bs else none

/-- What a method with this signature does, if it is an accessor. A name that
begins with `get` is not looked at for `is`. -/
def ofMethod? (m : Method) : Option Accessor :=
  match m.params, m.returns with
  | [], returns =>
    if m.name = "clone" then some clone
    else if returns.isSome then
      let rest := if (suffix?.go ['g', 'e', 't'] m.name.toList).isSome then suffix? "get" m.name
        else suffix? "is" m.name
      rest.map fun s => read (Naming.property s)
    else none
  | [param], none => (suffix? "set" m.name).map fun s => write (Naming.property s) param
  | _, _ => none

end Accessor

namespace Descriptor

/-- The descriptor without accessors. -/
def empty (c : ClassRef) : Descriptor := ⟨c, [], [], []⟩

/-- The properties with what one more accessor tells. Types that disagree make
the type any. -/
def addProperty (name : String) (type : ValueType) (shape : AccessShape) :
    List Property → List Property
  | [] => [⟨name, type, shape⟩]
  | p :: rest =>
    if p.name = name then
      { p with
        type := if p.type == type then p.type else .any
        shape := p.shape.merge shape } :: rest
    else p :: addProperty name type shape rest

/-- The defaults with one more property, unless it is there. -/
def addDefault (name : String) (type : ValueType) (defaults : List (String × Primitive)) :
    List (String × Primitive) :=
  match type with
  | .primitive p => if (defaults.lookup name).isSome then defaults else defaults ++ [(name, p)]
  | _ => defaults

/-- The descriptor with one more method. -/
def add (d : Descriptor) (m : Method) : Descriptor :=
  match Accessor.ofMethod? m with
  | none => d
  | some a =>
    let d := { d with accessors := (m.name, a) :: d.accessors }
    match a with
    | .clone => d
    | .read property =>
      { d with properties := addProperty property (m.returns.getD .any) .readOnly d.properties }
    | .write property type =>
      { d with
        properties := addProperty property type .writeOnly d.properties
        defaults := addDefault property type d.defaults }

/-- The descriptor of a class. -/
def ofClass (s : Schema) (c : ClassRef) : Descriptor :=
  (s.allMethods c).foldl add (empty c)

/-- What the method of this name does. -/
def accessor? (d : Descriptor) (method : String) : Option Accessor := d.accessors.lookup method

/-- The property of this name. -/
def property? (d : Descriptor) (name : String) : Option Property :=
  d.properties.find? (·.name = name)

/-- The declared type of a property; any for one that is not declared. -/
def typeOf (d : Descriptor) (name : String) : ValueType :=
  match d.property? name with
  | some p => p.type
  | none => .any

theorem names_addProperty (name : String) (type : ValueType) (shape : AccessShape)
    (properties : List Property) :
    (addProperty name type shape properties).map (·.name) =
      if name ∈ properties.map (·.name) then properties.map (·.name)
      else properties.map (·.name) ++ [name] := by
  induction properties with
  | nil => simp [addProperty]
  | cons p rest ih => simp only [addProperty]; grind

end Descriptor

/-- A schema, with what was first found out about the classes of each name. -/
structure Catalog where
  schema : Schema
  descriptors : List (String × Descriptor) := []
  collections : List (String × String) := []

namespace Catalog

/-- The descriptor of a class. Classes of one name share the descriptor of the
first of them that was asked for. -/
def descriptor (c : ClassRef) : StateM Catalog Descriptor := do
  let catalog ← get
  match catalog.descriptors.lookup c.name with
  | some d => return d
  | none =>
    let d := Descriptor.ofClass catalog.schema c
    set { catalog with descriptors := (c.name, d) :: catalog.descriptors }
    return d

/-- The name of the collection of a class, if it has one. Classes of one name
share the first that was found. -/
def collection (c : ClassRef) : StateM Catalog (Option String) := do
  let catalog ← get
  match catalog.collections.lookup c.name with
  | some name => return some name
  | none =>
    match Naming.collection? catalog.schema c with
    | none => return none
    | some name =>
      set { catalog with collections := (c.name, name) :: catalog.collections }
      return some name

end Catalog
end Folio
