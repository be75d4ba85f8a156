import Folio.Registry.Basic

/-!
# Records as documents

A value is encoded by the codec of the type that it has. A record becomes a
document with its identity first and its other properties by name.

Results:
* `leaf_text`: a text is encoded as itself.
-/
namespace Folio.Registry

/-- A double as a stored value; a NaN cannot be stored. -/
def storable (d : Number.Double) : Except Failure Value :=
  if d.isNaN then .error (.data .nanForbidden) else .ok (.double d)

/-- A value of another type than the codec's. -/
def mismatch (c : Codec) (v : FieldValue) : Failure :=
  .illegal (.wrongCodec c.type.display v.type)

/-- The value of a primitive. -/
def primitive? : Primitive → FieldValue → Option (Except Failure Value)
  | .bool, .bool b => some (.ok (.bool b))
  | .byte, .byte n => some (.ok (.integer n.toInt64))
  | .short, .short n => some (.ok (.integer n.toInt64))
  | .int, .int n => some (.ok (.integer n.toInt64))
  | .long, .long n => some (.ok (.integer n))
  | .float, .float x => some (storable x.toDouble)
  | .double, .double x => some (storable x)
  | .char, .char c => some (.ok (.text (String.singleton c)))
  | _, _ => none

/-- The stored form of a byte string, under a new nonce if it needs one. -/
def image (payload : Bytes) : RegistryM Value := do
  let key := (← getThe Registry).key
  if Image.needsNonce key payload then
    return .bytes (Image.conceal key (← nextNonce) payload)
  return .bytes payload

/-- Encodes a value that holds no other values. -/
def leaf (c : Codec) (v : FieldValue) : RegistryM Value :=
  match c, v with
  | .enum e, .enum symbol =>
    if symbol.cls.name = e.name then pure (.text symbol.name) else throw (mismatch c v)
  | .image, .bytes payload => image payload
  | .text, .text s => pure (.text s)
  | .objectId, .objectId id => pure (.objectId id)
  | .dateTime, .dateTime t => pure (.dateTime t)
  | .document, .document doc => pure (.document doc)
  | .primitive p, v | .boxed p, v =>
    match primitive? p v with
    | some result => result
    | none => throw (mismatch c v)
  | .custom codec, v => codec.encode v
  | c, v => throw (mismatch c v)

mutual

/-- Encodes a value by its own type. -/
def encode : FieldValue → RegistryM Value
  | .entity ⟨cls, descriptor, fields⟩ => do
    match ← codec (.entity cls) with
    | .entity _ =>
      let id ← encodeId fields
      return .document ⟨id ++ (← encodeRest fields)⟩
    | c => leaf c (.entity ⟨cls, descriptor, fields⟩)
  | .list items => do
    match ← codec (.list .any) with
    | .list _ => return .array (← encodeItems items)
    | c => leaf c (.list items)
  | v => do leaf (← codec v.type) v

/-- Encodes items, one after another. -/
def encodeItems : List FieldValue → RegistryM (List Value)
  | [] => pure []
  | v :: rest => do
    let first ← encode v
    return first :: (← encodeItems rest)

/-- Encodes the identity, if it is set. -/
def encodeId : List (String × FieldValue) → RegistryM (List (String × Value))
  | [] => pure []
  | (k, v) :: rest =>
    if k = Naming.idProperty then do return [(k, ← encode v)] else encodeId rest

/-- Encodes the properties other than the identity. -/
def encodeRest : List (String × FieldValue) → RegistryM (List (String × Value))
  | [] => pure []
  | (k, v) :: rest =>
    if k = Naming.idProperty then encodeRest rest
    else do
      let first ← encode v
      return (k, first) :: (← encodeRest rest)

end

/-- The document of a record's properties. -/
def encodeFields (fields : Fields) : RegistryM Document := do
  let id ← encodeId fields
  return ⟨id ++ (← encodeRest fields)⟩

/-- Encodes a value by a given codec. -/
def encodeWith (c : Codec) (v : FieldValue) : RegistryM Value :=
  match c, v with
  | .entity _, .entity e => do return .document (← encodeFields e.attributes)
  | .list _, .list items => do return .array (← encodeItems items)
  | .any, v => encode v
  | c, v => leaf c v

/-- Encodes a value by the codec of a type. -/
def encodeAs (t : ValueType) (v : FieldValue) : RegistryM Value := do
  encodeWith (← codec t) v

/-- The document of a record. -/
def encodeRecord {E : Type} [Record E] (e : E) : RegistryM Document :=
  encodeFields (Record.fields e)

theorem leaf_text (s : String) : leaf .text (.text s) = pure (.text s) := rfl

end Folio.Registry
