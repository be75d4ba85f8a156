import Folio.Entity.Record
import Folio.Image
import Folio.Stream.Reader

/-!
# Codecs and their registry

A codec moves the values of one type between memory and documents. The
registry finds the codec of a type: those that callers supply come first, then
one for each type that is known here. What was found stays found, so types
that count as the same share the codec of the first of them.

Results:
* `builtin?_isSome`: every type but the foreign ones has a codec.
-/
namespace Folio

/-- A codec that a caller supplies. -/
structure CustomCodec where
  type : ValueType
  encode : FieldValue → Except Failure Value
  decode : Reader.Call (Option FieldValue)

/-- The codec of a type. -/
inductive Codec where
  | entity (c : ClassRef)
  | enum (e : EnumClass)
  | image
  | primitive (p : Primitive)
  | boxed (p : Primitive)
  | text
  | objectId
  | dateTime
  | document
  | list (element : ValueType)
  | any
  | custom (codec : CustomCodec)

namespace Codec

/-- The type that a codec writes. -/
def type : Codec → ValueType
  | entity c => .entity c
  | enum e => .enum e
  | image => .bytes
  | primitive p => .primitive p
  | boxed p => .boxed p
  | text => .text
  | objectId => .objectId
  | dateTime => .dateTime
  | document => .document
  | list element => .list element
  | any => .any
  | custom codec => codec.type

/-- The codec that is known for a type. -/
def builtin? : ValueType → Option Codec
  | .entity c => some (entity c)
  | .enum e => some (enum e)
  | .bytes => some image
  | .primitive p => some (primitive p)
  | .boxed p => some (boxed p)
  | .text => some text
  | .objectId => some objectId
  | .dateTime => some dateTime
  | .document => some document
  | .list element => some (list element)
  | .any => some any
  | .foreign _ => none

theorem builtin?_isSome {t : ValueType} (h : ∀ name, t ≠ .foreign name) :
    (builtin? t).isSome = true := by
  cases t <;> simp_all [builtin?]

end Codec

/-- A supplier of codecs for the types that it knows. -/
abbrev Provider := ValueType → Option CustomCodec

/-- The codecs and what they need: the classes, the key for images, and how
many images were sealed, from which each seal takes its nonce. -/
structure Registry where
  catalog : Catalog
  key : Option Key := none
  providers : List Provider := []
  codecs : List (ValueType × Codec) := []
  sealed : Nat := 0

/-- An operation that looks up codecs. -/
abbrev RegistryM (α : Type) := ExceptT Failure (StateM Registry) α

namespace Registry

/-- The codec of a type, of suppliers before those known here. -/
def resolve? (r : Registry) (t : ValueType) : Option Codec :=
  match r.providers.findSome? (· t) with
  | some codec => some (.custom codec)
  | none => Codec.builtin? t

/-- The codec of a type. -/
def codec (t : ValueType) : RegistryM Codec := do
  let r ← getThe Registry
  match r.codecs.lookup t with
  | some c => return c
  | none =>
    match r.resolve? t with
    | none => throw (.noCodec t)
    | some c =>
      set { r with codecs := (t, c) :: r.codecs }
      return c

/-- An operation on the classes. -/
def withCatalog {α : Type} (m : CatalogM α) : RegistryM α := .mk fun r =>
  let (result, catalog) := m.run r.catalog
  (result, { r with catalog := catalog })

/-- A nonce that no seal of this registry has had. -/
def nextNonce : RegistryM Bytes := .mk fun r =>
  (.ok (Key.nonce r.sealed), { r with sealed := r.sealed + 1 })

/-- The text of a registry: how many suppliers it has, its own four included,
and how many codecs it found. -/
def written (r : Registry) : String :=
  s!"CodecRegistry \x7b providers: {r.providers.length + 4}, cached: {r.codecs.length} \x7d"

end Registry
end Folio
