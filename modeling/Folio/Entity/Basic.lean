import Folio.Entity.FieldValue
import Folio.Failure

/-!
# Entities

An entity is reached through the accessors of its class. Every way to set a
property ends in `write`, which checks the value against the declared type.

Results:
* `write_ok`: a write changes neither the class nor the descriptor.
-/
namespace Folio

/-- An operation that looks up classes. -/
abbrev CatalogM (α : Type) := ExceptT Failure (StateM Catalog) α

namespace Entity

/-- The value of a property. -/
def get? (e : Entity) (property : String) : Option FieldValue := Keyed.get? property e.attributes

/-- Sets or unsets a property of the declared type. The value must fit the
type, hold no NaN and have a stored form, which is what is kept. -/
def write (s : Schema) (e : Entity) (property : String) (declared : ValueType)
    (value : Option FieldValue) : Except Failure Entity :=
  match value with
  | none =>
    if declared.isPrimitive then .error (.illegal (.cannotUnset e.cls.name property))
    else .ok { e with attributes := Keyed.erase property e.attributes }
  | some v =>
    if !v.fits s declared then
      .error (.illegal (.wrongType e.cls.name property declared v.type))
    else if v.hasNaN then .error (.illegal (.holdsNaN e.cls.name property))
    else
      match v.storedForm declared with
      | .ok stored => .ok { e with attributes := Keyed.insert property stored e.attributes }
      | .error type => .error (.illegal (.undeclared e.cls.name property type))

/-- Sets or unsets a property by its stored name. -/
def set (s : Schema) (e : Entity) (property : String) (value : Option FieldValue) :
    Except Failure Entity :=
  e.write s property (e.descriptor.typeOf property) value

/-- Calls an accessor: its answer and the entity after it. -/
def invoke (s : Schema) (e : Entity) (method : String) (args : List (Option FieldValue)) :
    Except Failure (Option FieldValue × Entity) :=
  match e.descriptor.accessor? method, args with
  | some (.read property), [] => .ok (e.get? property, e)
  | some (.write property type), [value] => (e.write s property type value).map (none, ·)
  | some .clone, [] => .ok (some (.entity e), e)
  | _, _ => .error (.unsupported (.noAccessor e.cls.name method args.length))

/-- The entity with a zero for each property that is never unset. -/
def fillDefaults (e : Entity) : Entity :=
  { e with
    attributes := e.descriptor.defaults.foldl
      (fun fields d => Keyed.insertIfAbsent d.1 d.2.zero fields) e.attributes }

/-- An entity of a class, with the given properties set one after another. -/
def create (s : Schema) (d : Descriptor) (c : ClassRef) (seed : Fields) :
    Except Failure Entity := do
  let e ← seed.foldlM (fun (e : Entity) f => e.set s f.1 (some f.2)) ⟨c, d, []⟩
  return e.fillDefaults

/-- An entity of a class that is only declared. -/
def instantiate (c : ClassRef) (seed : Option Fields) : CatalogM Entity := do
  let s := (← getThe Catalog).schema
  let form : ClassForm := ((s.find? c).map (·.form)).getD .abstract
  if form ≠ .trait then throw (.unsupported (.notTrait c.name form))
  let d ← Catalog.descriptor c
  create s d c (seed.getD [])

theorem write_ok {s : Schema} {e next : Entity} {property : String} {declared : ValueType}
    {value : Option FieldValue} (h : e.write s property declared value = .ok next) :
    next.cls = e.cls ∧ next.descriptor = e.descriptor := by
  unfold write at h
  repeat' split at h
  all_goals simp_all
  all_goals subst h
  all_goals exact ⟨rfl, rfl⟩

/-! ## Accessors of the capabilities -/

/-- A text that an accessor answered. -/
def expectText : Option FieldValue → Except Failure (Option String)
  | none => .ok none
  | some (.text s) => .ok (some s)
  | some v => .error (.illegal (.notText v.type))

/-- The name. -/
def name (s : Schema) (e : Entity) : Except Failure (Option String) := do
  expectText (← e.invoke s "getName" []).1

/-- Sets or clears the name. -/
def setName (s : Schema) (e : Entity) (name : Option String) : Except Failure Entity := do
  return (← e.invoke s "setName" [name.map .text]).2

/-- The description. -/
def description (s : Schema) (e : Entity) : Except Failure (Option String) := do
  expectText (← e.invoke s "getDescription" []).1

/-- Sets or clears the description. -/
def setDescription (s : Schema) (e : Entity) (description : Option String) :
    Except Failure Entity := do
  return (← e.invoke s "setDescription" [description.map .text]).2

/-- Whether the entity is marked as defunct. -/
def isDefunct (s : Schema) (e : Entity) : Except Failure Bool := do
  return ((← e.invoke s "isDefunct" []).1.bind (·.bool?)).getD false

/-- Marks the entity as defunct, or takes the mark away. -/
def setDefunct (s : Schema) (e : Entity) (defunct : Bool) : Except Failure Entity := do
  return (← e.invoke s "setDefunct" [some (.bool defunct)]).2

end Entity

end Folio
