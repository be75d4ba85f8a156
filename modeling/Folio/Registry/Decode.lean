import Folio.Registry.Basic

/-!
# Documents as records

A value is decoded as the type that its property declares. Decoding goes
through the document call by call, so it leaves off where the value ends. A
null decodes to nothing, and so does an unknown symbol; properties and items
that decode to nothing are left out.

Results:
* `natural_null`: a null has no value in memory.
-/
namespace Folio

/-- What decoding works on. -/
structure Decoder where
  registry : Registry
  reader : Reader

namespace Decoder

/-- A step of decoding. -/
abbrev Step (α : Type) := ExceptT Failure (StateM Decoder) α

/-- A call on the reader. -/
def read {α : Type} (call : Reader.Call α) : Step α := .mk fun d =>
  let (result, reader) := call.run d.reader
  (result.mapError .data, { d with reader := reader })

/-- An operation of the registry. -/
def look {α : Type} (m : RegistryM α) : Step α := .mk fun d =>
  let (result, registry) := m.run d.registry
  (result, { d with registry := registry })

/-- A stored value of another type than the declared one. -/
def mismatch {α : Type} (expected : String) (actual : Value) : Step α :=
  throw (.data (.unexpectedType expected actual.typeName))

mutual

/-- The value in memory of a stored value whose type is not declared. -/
def natural : Value → Option FieldValue
  | .null => none
  | .bool b => some (.bool b)
  | .integer n => some (.long n)
  | .double d => some (.double d)
  | .text s => some (.text s)
  | .bytes b => some (.bytes b)
  | .objectId id => some (.objectId id)
  | .dateTime t => some (.dateTime t)
  | .array items => some (.list (naturalItems items))
  | .document doc => some (.document doc)

/-- The values in memory of those elements that have one. -/
def naturalItems : List Value → List FieldValue
  | [] => []
  | v :: rest =>
    match natural v with
    | some x => x :: naturalItems rest
    | none => naturalItems rest

end

/-- An integer, if it lies between two bounds. -/
def narrow (least most : Int) (n : Int64) (make : Int64 → FieldValue) : Step FieldValue :=
  if least ≤ n.toInt ∧ n.toInt ≤ most then pure (make n)
  else throw (.data .integerOverflow)

/-- A stored value as a primitive. -/
def primitive (p : Primitive) (v : Value) : Step FieldValue :=
  match p, v with
  | .bool, .bool b => pure (.bool b)
  | .byte, .integer n =>
    narrow Int8.minValue.toInt Int8.maxValue.toInt n fun n => .byte n.toInt8
  | .short, .integer n =>
    narrow Int16.minValue.toInt Int16.maxValue.toInt n fun n => .short n.toInt16
  | .int, .integer n =>
    narrow Int32.minValue.toInt Int32.maxValue.toInt n fun n => .int n.toInt32
  | .long, .integer n => pure (.long n)
  | .float, .double d => pure (.float d.toSingle)
  | .float, .integer n => pure (.float (.ofInt n.toInt))
  | .double, .double d => pure (.double d)
  | .double, .integer n => pure (.double (.ofInt n.toInt))
  | .char, .text s =>
    match s.toList with
    | [c] => pure (.char c)
    | cs => throw (.data (.notOneCharacter cs.length))
  | p, v => mismatch p.name v

/-- Decodes the next value by a codec that holds no other values. -/
def leaf (c : Codec) : Step (Option FieldValue) := do
  match c with
  | .custom codec => read codec.decode
  | .entity c => throw (.unsupported (.decodingClass c.name))
  | c =>
    let v ← read Reader.take
    match c, v with
    | _, .null => return none
    | .enum e, .text symbol => return (e.ofName? symbol).map .enum
    | .enum _, v => mismatch "text" v
    | .image, .bytes stored =>
      return some (.bytes (Image.restore (← getThe Decoder).registry.key stored))
    | .text, .text s => return some (.text s)
    | .objectId, .objectId id => return some (.objectId id)
    | .dateTime, .dateTime t => return some (.dateTime t)
    | .document, .document doc => return some (.document doc)
    | .primitive p, v | .boxed p, v => return some (← primitive p v)
    | .any, v => return natural v
    | c, v => mismatch c.type.display v

/-- Decodes entries while there are any, at most `n`. What decodes to nothing
is left out. -/
def entries {α : Type} (entry : Step (Option α)) : Nat → Step (List α)
  | 0 => pure []
  | n + 1 => do
    if !(← getThe Decoder).reader.hasNext then return []
    match ← entry with
    | some a => return a :: (← entries entry n)
    | none => entries entry n

/-- Decodes the next value as a list. -/
def list (item : Step (Option FieldValue)) : Step (Option FieldValue) := do
  if (← getThe Decoder).reader.peekType? = some "null" then
    read Reader.null
    return none
  read Reader.startArray
  let items ← entries item (← getThe Decoder).reader.left
  read Reader.endArray
  return some (.list items)

/-- Decodes the next value as the properties of a class. `decode` decodes a
value of a declared type. -/
def fields (decode : ValueType → Step (Option FieldValue)) (c : ClassRef) : Step Fields := do
  let d ← look (Registry.withCatalog (Catalog.descriptor c))
  read Reader.startDocument
  let entry : Step (Option (String × FieldValue)) := do
    let name ← read Reader.name
    return (← decode (d.typeOf name)).map (name, ·)
  let found ← entries entry (← getThe Decoder).reader.left
  read Reader.endDocument
  return Keyed.ofList found

/-- Decodes the next value as an entity of a class. -/
def entity (decode : ValueType → Step (Option FieldValue)) (c : ClassRef) :
    Step (Option FieldValue) := do
  if (← getThe Decoder).reader.peekType? = some "null" then
    read Reader.null
    return none
  let found ← fields decode c
  let e ← look (Registry.withCatalog (Entity.instantiate c (some found)))
  return some (.entity e)

/-- Decodes the next value as the declared type. `fuel` bounds how often one
value is decoded inside another. -/
def value : (fuel : Nat) → (declared : ValueType) → Step (Option FieldValue)
  | 0, _ => throw (.data .unexpectedEnd)
  | fuel + 1, .entity c => entity (value fuel) c
  | fuel + 1, declared => do
    match ← look (Registry.codec declared) with
    | .list element => list (value fuel element)
    | .any =>
      let next := (← getThe Decoder).reader.peekType?
      if next = some "bytes" then value fuel .bytes
      else if next = some "array" then value fuel (.list .any)
      else leaf .any
    | c => leaf c

/-- Fuel for everything that is left to read: each level of nesting takes one
step by its declared type and at most one more by its own. -/
def fuel (r : Reader) : Nat := 2 * r.depth + 2

/-- Decodes the next value as the declared type. -/
def next (declared : ValueType) : Step (Option FieldValue) := do
  value (fuel (← getThe Decoder).reader) declared

/-- Decodes the next value by the codec of a type. -/
def nextAs (t : ValueType) : Step (Option FieldValue) := do
  match t with
  | .entity _ => leaf (← look (Registry.codec t))
  | t => next t

theorem natural_null : natural .null = none := rfl

end Decoder

namespace Registry

/-- Runs a step of decoding on a reader of its own. -/
def decoding {α : Type} (reader : Reader) (step : Decoder.Step α) : RegistryM α := .mk fun r =>
  let (result, d) := step.run ⟨r, reader⟩
  (result, d.registry)

/-- The record of a class that a document stores. -/
def inflate {E : Type} [Record E] (c : ClassRef) (doc : Document) : RegistryM E := do
  let reader := Reader.ofDocument doc
  let found ← decoding reader (Decoder.fields (Decoder.value (Decoder.fuel reader)) c)
  withCatalog (Record.create c (some found))

end Registry
end Folio
