import Folio.Value.Document

/-!
# Canonical field order

Shorter names stand before longer ones, and names of one length stand in the
order of their bytes. A value is in canonical form when the fields of every
document in it stand in this order.

Results:
* `canonical_scalar`: a scalar is its own canonical form.
-/
namespace Folio

/-- The canonical order of names: by the number of UTF-8 bytes, then by the
bytes. -/
def keyOrder (a b : String) : Ordering :=
  (compare (Bytes.ofText a).length (Bytes.ofText b).length).then
    (compare (Bytes.ofText a) (Bytes.ofText b))

/-- Whether `a` may stand before `b`. -/
def keyLE (a b : String) : Bool := (keyOrder a b).isLE

namespace Value

/-- The field at its place among fields in canonical order. -/
def place (field : String × Value) : List (String × Value) → List (String × Value)
  | [] => [field]
  | f :: rest => if keyLE field.1 f.1 then field :: f :: rest else f :: place field rest

/-- The fields in canonical order. -/
def arrange (fields : List (String × Value)) : List (String × Value) :=
  fields.foldr place []

mutual

/-- The canonical form: the fields of every document in canonical order. -/
def canonical : Value → Value
  | array items => array (canonicalItems items)
  | document ⟨fields⟩ => document ⟨arrange (canonicalFields fields)⟩
  | v => v

/-- The canonical form of each element. -/
def canonicalItems : List Value → List Value
  | [] => []
  | v :: rest => canonical v :: canonicalItems rest

/-- The canonical form of each field's value. -/
def canonicalFields : List (String × Value) → List (String × Value)
  | [] => []
  | (k, v) :: rest => (k, canonical v) :: canonicalFields rest

end

theorem canonicalItems_eq_map (items : List Value) :
    canonicalItems items = items.map canonical := by
  induction items with
  | nil => rfl
  | cons v rest ih => simp [canonicalItems, ih]

theorem canonicalFields_eq_map (fields : List (String × Value)) :
    canonicalFields fields = fields.map fun f => (f.1, f.2.canonical) := by
  induction fields with
  | nil => rfl
  | cons f rest ih => obtain ⟨k, v⟩ := f; simp [canonicalFields, ih]

/-- Whether this is neither an array nor a document. -/
def isScalar : Value → Bool
  | array _ | document _ => false
  | _ => true

theorem canonical_scalar {v : Value} (h : v.isScalar = true) : v.canonical = v := by
  cases v <;> simp_all [isScalar, canonical]

end Value

namespace Document

/-- The canonical form of a document. -/
def canonical (doc : Document) : Document :=
  ⟨Value.arrange (Value.canonicalFields doc.fields)⟩

end Document
end Folio
