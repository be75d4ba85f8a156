import Folio.Proofs.Value.Everywhere
import Mathlib.Algebra.GroupWithZero.Nat
import Mathlib.Algebra.Order.BigOperators.Group.List

/-!
# Adding up over a value

What a value amounts to is added up over its parts: how many values it is made
of, and how many bytes its texts, byte strings and names have.

Results:
* `total_array`, `total_document`: a total one level down.
* `total_add`: totals of two amounts are added up together.
* `nodes_pos`: every value is made of at least one.
-/
namespace Folio.Value

mutual

/-- The amounts `f` of the value and of everything in it, added up. -/
def total (f : Value → Nat) : Value → Nat
  | array items => f (array items) + totalItems f items
  | document ⟨fields⟩ => f (document ⟨fields⟩) + totalFields f fields
  | v => f v

/-- The totals of the elements, added up. -/
def totalItems (f : Value → Nat) : List Value → Nat
  | [] => 0
  | v :: rest => total f v + totalItems f rest

/-- The totals of the fields, added up. -/
def totalFields (f : Value → Nat) : List (String × Value) → Nat
  | [] => 0
  | (_, v) :: rest => total f v + totalFields f rest

end

/-- The bytes that stand in the value itself: those of a text or a byte string,
and those of the names of a document. -/
def ownBytes : Value → Nat
  | text s => (Bytes.ofText s).length
  | bytes b => b.length
  | document ⟨fields⟩ => (fields.map fun f => (Bytes.ofText f.1).length).sum
  | _ => 0

/-- How many values the value is made of, itself among them. -/
def nodes (v : Value) : Nat := v.total fun _ => 1

/-- The bytes of all texts, byte strings and names in the value. -/
def content (v : Value) : Nat := v.total ownBytes

variable {f : Value → Nat}

theorem total_scalar {v : Value} (h : v.isScalar = true) : v.total f = f v := by
  cases v <;> first | rfl | cases h

theorem total_array (items : List Value) :
    (array items).total f = f (array items) + (items.map (total f)).sum := by
  rw [total]
  congr 1
  induction items with
  | nil => rfl
  | cons v rest ih => rw [totalItems, ih, List.map_cons, List.sum_cons]

theorem total_document (fields : List (String × Value)) :
    (document ⟨fields⟩).total f = f (document ⟨fields⟩) + (fields.map fun p => p.2.total f).sum := by
  rw [total]
  congr 1
  induction fields with
  | nil => rfl
  | cons p rest ih => rw [totalFields, ih, List.map_cons, List.sum_cons]

theorem total_add (f g : Value → Nat) (v : Value) :
    v.total f + v.total g = v.total fun w => f w + g w := by
  induction v using tree with
  | scalar v h => rw [total_scalar h, total_scalar h, total_scalar h]
  | array items ih =>
    rw [total_array, total_array, total_array, ← List.map_congr_left ih, List.sum_map_add]
    omega
  | document fields ih =>
    rw [total_document, total_document, total_document, ← List.map_congr_left ih, List.sum_map_add]
    omega

theorem nodes_pos (v : Value) : 0 < v.nodes := by
  rw [nodes]
  cases v with
  | array items => rw [total_array]; omega
  | document doc => obtain ⟨fields⟩ := doc; rw [total_document]; omega
  | _ => rw [total_scalar rfl]; exact Nat.one_pos

end Folio.Value
