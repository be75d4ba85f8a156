import Folio.Exchange.Query
import Folio.Entity.Record
import Folio.Service.Report

/-!
# Declarations as plain data

Plain data can declare enumerations, capabilities and classes, and then refer
to them by names of its own choice. Reading keeps what was declared. Classes
are known before any of them is read in full, so they may refer to each other.

Results:
* `refer_head`: a reference finds what was declared last under its name.
-/
namespace Folio

/-- What plain data has declared, by the names that refer to it. -/
structure Declared where
  enums : List (String × EnumClass) := []
  capabilities : List (String × Capability) := [("Namable", .namable),
    ("Describable", .describable), ("Defunctable", .defunctable)]
  classes : List (String × ClassRef) := []
  catalog : Catalog := { schema := ⟨[]⟩ }
  /-- How many values from outside were read; each has an identity of its own. -/
  identities : Nat := 0

/-- Reading of plain data that may refer to declarations. -/
abbrev Reading (α : Type) := StateT Declared (Except PlainFault) α

/-- Types whose values can be read from plain data. -/
class FromPlain (α : Type) where
  read : Plain → Reading α

namespace FromPlain

variable {α β : Type}

instance : FromPlain Plain := ⟨pure⟩
instance : FromPlain String := ⟨fun p => p.toText⟩
instance : FromPlain Bool := ⟨fun p => pure p.toFlag⟩
instance : FromPlain Int := ⟨fun p => p.toWhole⟩
instance : FromPlain Nat := ⟨fun p => do return (← p.toWhole).toNat⟩
instance : FromPlain Int64 := ⟨fun p => do return Int64.ofInt (← p.toWhole)⟩
instance {f : Number.Format} : FromPlain (Number.Floating f) :=
  ⟨fun p => Number.Floating.ofPlain p⟩
instance : FromPlain ObjectId := ⟨fun p => ObjectId.ofPlain p⟩
instance : FromPlain DateTime := ⟨fun p => DateTime.ofPlain p⟩
instance : FromPlain Value := ⟨fun p => Value.ofPlain p⟩
instance : FromPlain Document := ⟨fun p => Document.ofPlain p⟩
instance : FromPlain Filter := ⟨fun p => Filter.ofPlain p⟩
instance : FromPlain Change := ⟨fun p => Change.ofPlain p⟩
instance : FromPlain FindOptions := ⟨fun p => FindOptions.ofPlain p⟩
instance : FromPlain Stage := ⟨fun p => Stage.ofPlain p⟩
instance : FromPlain Version := ⟨fun p => pure (Version.ofPlain p)⟩

instance [FromPlain α] : FromPlain (Option α) :=
  ⟨fun p => if p.isNull then pure none else some <$> read p⟩

instance [FromPlain α] : FromPlain (List α) := ⟨fun p => do (← p.toItems).mapM read⟩

instance : FromPlain Bytes := ⟨fun p => p.toBytes⟩

/-- An entry of an object. -/
def entry [FromPlain α] (p : Plain) (name : String) : Reading α := read (p.entry name)

/-- An item of a list. -/
def item [FromPlain α] (p : Plain) (place : Nat) : Reading α := read (p.item place)

end FromPlain

namespace Declared

open FromPlain (entry item)

variable {α : Type}

/-- What a reference stands for. -/
def refer (table : Declared → List (String × α)) (name : String) : Reading α := do
  match (table (← get)).lookup name with
  | some a => return a
  | none => throw (.undeclared name)

theorem refer_head (table : Declared → List (String × α)) (name : String) (a : α)
    (rest : List (String × α)) (d : Declared) (h : table d = (name, a) :: rest) :
    (refer table name).run d = .ok (a, d) := by
  have found : (table d).lookup name = some a := by rw [h, List.lookup_cons_self]
  change (match (table d).lookup name with
    | some a => pure a
    | none => throw (.undeclared name) : Reading α).run d = _
  rw [found]; rfl

instance : FromPlain EnumClass := ⟨fun p => do refer enums (← p.toText)⟩
instance : FromPlain Capability := ⟨fun p => do refer capabilities (← p.toText)⟩
instance : FromPlain ClassRef := ⟨fun p => do refer classes (← p.toText)⟩

/-- The primitive kind of a name. -/
def primitive (name : String) : Reading Primitive :=
  match ([.bool, .byte, .short, .int, .long, .float, .double, .char] : List Primitive).find?
      (·.name = name) with
  | some p => pure p
  | none => throw (.expected "a primitive type")

/-- A type with an argument, unless the argument is another type. -/
def typeOf (kind : String) (arg : Plain) : Reading ValueType := do
  match kind with
  | "prim" => return .primitive (← primitive (← arg.toText))
  | "boxed" => return .boxed (← primitive (← arg.toText))
  | "enum" => return .enum (← FromPlain.read arg)
  | "entity" => return .entity (← FromPlain.read arg)
  | "opaque" => return .foreign (← arg.toText)
  | _ => throw (.expected "a type")

/-- The type that plain data stands for. -/
def type : Plain → Reading ValueType
  | .text "text" => pure .text
  | .text "bytes" => pure .bytes
  | .text "oid" => pure .objectId
  | .text "date" => pure .dateTime
  | .text "doc" => pure .document
  | .text "any" => pure .any
  | .list [.text kind, arg] =>
    if kind = "list" then .list <$> type arg else typeOf kind arg
  | _ => throw (.expected "a type")

instance : FromPlain ValueType := ⟨type⟩

instance : FromPlain Method := ⟨fun p => do return ⟨← item p 0, ← item p 1, ← item p 2⟩⟩

instance : FromPlain ClassForm := ⟨fun p => do
  match ← p.toText with
  | "trait" => return .trait
  | "concrete" => return .concrete true
  | "hidden" => return .concrete false
  | "abstract" => return .abstract
  | _ => throw (.expected "a form of class")⟩

/-- The name that refers to a declaration: its reference, or else its name. -/
def reference (p : Plain) : Reading String := do
  match ← entry p "ref" with
  | some name => return name
  | none => entry p "name"

/-- Declares an enumeration. -/
def declareEnum (p : Plain) : Reading Unit := do
  let name ← reference p
  let e : EnumClass := ⟨← entry p "name", ← entry p "symbols"⟩
  modify fun d => { d with enums := (name, e) :: d.enums }

/-- Declares a capability. -/
def declareCapability (p : Plain) : Reading Unit := do
  let name ← reference p
  let c : Capability := ⟨← entry p "name", ← entry p "methods"⟩
  modify fun d => { d with capabilities := (name, c) :: d.capabilities }

/-- Makes a class known whose declaration is read later. -/
def announceClass (p : Plain) : Reading Unit := do
  let name ← reference p
  let cls : String ← entry p "name"
  modify fun d => { d with classes := (name, ⟨d.classes.length, cls⟩) :: d.classes }

/-- Declares a class that is known. -/
def declareClass (p : Plain) : Reading Unit := do
  let c : EntityClass := ⟨← entry p "name", ← entry p "form", ← entry p "table", ← entry p "ns",
    ← entry p "parents", ← entry p "caps", ← entry p "methods"⟩
  modify fun d => { d with
    catalog := { d.catalog with schema := ⟨d.catalog.schema.classes ++ [c]⟩ } }

/-- Declares everything that plain data lists. -/
def declareAll (p : Plain) : Reading Unit := do
  let classes ← (p.entry "classes").toItems
  classes.forM announceClass
  (← (p.entry "enums").toItems).forM declareEnum
  (← (p.entry "caps").toItems).forM declareCapability
  classes.forM declareClass

/-- Classes that are declared from the beginning. -/
def ofClasses (classes : List EntityClass) : Declared :=
  { classes := (classes.mapIdx fun i c => (c.name, (⟨i, c.name⟩ : ClassRef))).reverse
    catalog := { schema := ⟨classes⟩ } }

end Declared

instance : ToPlain ValueType := ⟨fun t => .text t.display⟩

instance : ToPlain Method := ⟨fun m => .list [plain m.name, plain m.params, plain m.returns]⟩

instance : ToPlain AccessShape := ⟨fun
  | .readOnly => .text "ReadOnly"
  | .writeOnly => .text "WriteOnly"
  | .readWrite => .text "ReadWrite"⟩

instance : ToPlain Property := ⟨fun p => .list [plain p.name, plain p.type, plain p.shape]⟩

instance : ToPlain Report := ⟨fun r => .object [("action", plain r.actions),
  ("fields", .object (r.fields.map fun f => (f.1, plain f.2)))]⟩

end Folio
