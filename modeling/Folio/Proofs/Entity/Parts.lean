import Folio.Entity.Basic
import Folio.Value.Basic

/-!
# Values of properties, part by part

A value of a property is a leaf, a list of values or an entity with values of
its own properties. What stands in a value at any depth, the value itself
included, are its parts.

Results:
* `FieldValue.tree`: induction with one case for leaves, lists and entities.
* `PartOf.trans`: a part of a part is a part.
-/
namespace Folio.FieldValue

/-- Whether this is neither a list nor an entity. -/
def isLeaf : FieldValue → Bool
  | list _ | entity _ => false
  | _ => true

/-- Induction over a value: what holds of a list or an entity may use that it
holds of everything directly in it. -/
@[elab_as_elim]
theorem tree {motive : FieldValue → Prop}
    (leaf : ∀ v, v.isLeaf = true → motive v)
    (list : ∀ items, (∀ v ∈ items, motive v) → motive (.list items))
    (entity : ∀ e : Entity, (∀ a ∈ e.attributes, motive a.2) → motive (.entity e)) :
    ∀ v, motive v
  | .list items => list items fun v _ => tree leaf list entity v
  | .entity ⟨c, d, attributes⟩ =>
    entity ⟨c, d, attributes⟩ fun a _ => tree leaf list entity a.2
  | .bool _ => leaf _ rfl
  | .byte _ => leaf _ rfl
  | .short _ => leaf _ rfl
  | .int _ => leaf _ rfl
  | .long _ => leaf _ rfl
  | .float _ => leaf _ rfl
  | .double _ => leaf _ rfl
  | .char _ => leaf _ rfl
  | .text _ => leaf _ rfl
  | .bytes _ => leaf _ rfl
  | .objectId _ => leaf _ rfl
  | .dateTime _ => leaf _ rfl
  | .enum _ => leaf _ rfl
  | .document _ => leaf _ rfl
  | .foreign _ => leaf _ rfl
decreasing_by
  · have := List.sizeOf_lt_of_mem ‹v ∈ items›
    simp only [FieldValue.list.sizeOf_spec]; omega
  · have := List.sizeOf_lt_of_mem ‹a ∈ _›
    have : sizeOf a = 1 + sizeOf a.1 + sizeOf a.2 := rfl
    simp only [FieldValue.entity.sizeOf_spec, Entity.mk.sizeOf_spec] at *; omega

/-- The first value stands in the second one, at any depth. -/
inductive PartOf : FieldValue → FieldValue → Prop
  | whole (v : FieldValue) : PartOf v v
  | item {x v : FieldValue} {items : List FieldValue} :
    v ∈ items → PartOf x v → PartOf x (.list items)
  | property {x : FieldValue} {a : String × FieldValue} {e : Entity} :
    a ∈ e.attributes → PartOf x a.2 → PartOf x (.entity e)

theorem PartOf.trans {x y v : FieldValue} (h : x.PartOf y) (k : y.PartOf v) : x.PartOf v := by
  induction k with
  | whole => exact h
  | item hm _ ih => exact .item hm ih
  | property hm _ ih => exact .property hm ih

theorem eq_of_partOf_leaf {x v : FieldValue} (hl : v.isLeaf = true) (h : x.PartOf v) : x = v := by
  cases h with
  | whole => rfl
  | item => cases hl
  | property => cases hl

end Folio.FieldValue
