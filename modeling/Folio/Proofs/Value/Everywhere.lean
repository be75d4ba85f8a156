import Folio.Value.Canonical

/-!
# Values, part by part

A value is a scalar, an array of values or a document of named values. Most of
what is said of values is said of every part of them: `Value.everywhere p`
asks `p` of the value and of all that stands in it, at any depth.

Results:
* `Value.tree`: induction with one case for scalars, arrays and documents.
* `everywhere_array`, `everywhere_document`: `everywhere` one level down.
* `hasNaN_array`, `hasNaN_document`: the same for NaNs.
-/
namespace Folio.Value

/-- Induction over a value: what holds of a container may use that it holds of
everything directly in it. -/
@[elab_as_elim]
theorem tree {motive : Value → Prop}
    (scalar : ∀ v, v.isScalar = true → motive v)
    (array : ∀ items, (∀ v ∈ items, motive v) → motive (.array items))
    (document : ∀ fields, (∀ f ∈ fields, motive f.2) → motive (.document ⟨fields⟩)) :
    ∀ v, motive v
  | .array items => array items fun v _ => tree scalar array document v
  | .document ⟨fields⟩ => document fields fun f _ => tree scalar array document f.2
  | .null => scalar _ rfl
  | .bool _ => scalar _ rfl
  | .integer _ => scalar _ rfl
  | .double _ => scalar _ rfl
  | .text _ => scalar _ rfl
  | .bytes _ => scalar _ rfl
  | .objectId _ => scalar _ rfl
  | .dateTime _ => scalar _ rfl
decreasing_by
  · have := List.sizeOf_lt_of_mem ‹v ∈ items›
    simp only [Value.array.sizeOf_spec]; omega
  · have := List.sizeOf_lt_of_mem ‹f ∈ fields›
    have : sizeOf f = 1 + sizeOf f.1 + sizeOf f.2 := rfl
    simp only [Value.document.sizeOf_spec, Document.mk.sizeOf_spec]; omega

mutual

/-- Whether `p` holds of the value and of everything in it. -/
def everywhere (p : Value → Bool) : Value → Bool
  | array items => p (array items) && everywhereItems p items
  | document ⟨fields⟩ => p (document ⟨fields⟩) && everywhereFields p fields
  | v => p v

/-- Whether `p` holds everywhere in the elements. -/
def everywhereItems (p : Value → Bool) : List Value → Bool
  | [] => true
  | v :: rest => everywhere p v && everywhereItems p rest

/-- Whether `p` holds everywhere in the fields. -/
def everywhereFields (p : Value → Bool) : List (String × Value) → Bool
  | [] => true
  | (_, v) :: rest => everywhere p v && everywhereFields p rest

end

theorem everywhereItems_iff {p : Value → Bool} {items : List Value} :
    everywhereItems p items = true ↔ ∀ v ∈ items, v.everywhere p = true := by
  induction items with
  | nil => simp [everywhereItems]
  | cons v rest ih => simp [everywhereItems, ih]

theorem everywhereFields_iff {p : Value → Bool} {fields : List (String × Value)} :
    everywhereFields p fields = true ↔ ∀ f ∈ fields, f.2.everywhere p = true := by
  induction fields with
  | nil => simp [everywhereFields]
  | cons f rest ih => obtain ⟨k, v⟩ := f; simp [everywhereFields, ih]

theorem everywhere_scalar {p : Value → Bool} {v : Value} (h : v.isScalar = true) :
    v.everywhere p = p v := by
  cases v <;> first | rfl | cases h

theorem everywhere_array {p : Value → Bool} {items : List Value} :
    (array items).everywhere p = true ↔
      p (array items) = true ∧ ∀ v ∈ items, v.everywhere p = true := by
  rw [everywhere, Bool.and_eq_true, everywhereItems_iff]

theorem everywhere_document {p : Value → Bool} {fields : List (String × Value)} :
    (document ⟨fields⟩).everywhere p = true ↔
      p (document ⟨fields⟩) = true ∧ ∀ f ∈ fields, f.2.everywhere p = true := by
  rw [everywhere, Bool.and_eq_true, everywhereFields_iff]

theorem everywhere_and {p q : Value → Bool} (v : Value) :
    v.everywhere (fun w => p w && q w) = (v.everywhere p && v.everywhere q) := by
  rw [Bool.eq_iff_iff, Bool.and_eq_true]
  induction v using tree with
  | scalar v h => rw [everywhere_scalar h, everywhere_scalar h, everywhere_scalar h, Bool.and_eq_true]
  | array items ih =>
    simp only [everywhere_array, Bool.and_eq_true]
    constructor
    · rintro ⟨⟨hp, hq⟩, h⟩
      exact ⟨⟨hp, fun v hv => ((ih v hv).1 (h v hv)).1⟩, hq, fun v hv => ((ih v hv).1 (h v hv)).2⟩
    · rintro ⟨⟨hp, h⟩, hq, k⟩
      exact ⟨⟨hp, hq⟩, fun v hv => (ih v hv).2 ⟨h v hv, k v hv⟩⟩
  | document fields ih =>
    simp only [everywhere_document, Bool.and_eq_true]
    constructor
    · rintro ⟨⟨hp, hq⟩, h⟩
      exact ⟨⟨hp, fun f hf => ((ih f hf).1 (h f hf)).1⟩, hq, fun f hf => ((ih f hf).1 (h f hf)).2⟩
    · rintro ⟨⟨hp, h⟩, hq, k⟩
      exact ⟨⟨hp, hq⟩, fun f hf => (ih f hf).2 ⟨h f hf, k f hf⟩⟩

/-! ## Not a number -/

theorem hasNaNItems_iff {items : List Value} :
    hasNaNItems items = false ↔ ∀ v ∈ items, v.hasNaN = false := by
  induction items with
  | nil => simp [hasNaNItems]
  | cons v rest ih => simp [hasNaNItems, ih]

theorem hasNaNFields_iff {fields : List (String × Value)} :
    hasNaNFields fields = false ↔ ∀ f ∈ fields, f.2.hasNaN = false := by
  induction fields with
  | nil => simp [hasNaNFields]
  | cons f rest ih => obtain ⟨k, v⟩ := f; simp [hasNaNFields, ih]

theorem hasNaN_array {items : List Value} :
    (array items).hasNaN = false ↔ ∀ v ∈ items, v.hasNaN = false := by
  rw [hasNaN, hasNaNItems_iff]

theorem hasNaN_document {fields : List (String × Value)} :
    (document ⟨fields⟩).hasNaN = false ↔ ∀ f ∈ fields, f.2.hasNaN = false := by
  rw [hasNaN, hasNaNFields_iff]

/-! ## Depth -/

theorem depth_pos (v : Value) : 0 < v.depth := by
  cases v with
  | document doc => obtain ⟨fields⟩ := doc; exact Nat.succ_pos _
  | array items => exact Nat.succ_pos _
  | _ => exact Nat.one_pos

theorem depth_le_items {v : Value} {items : List Value} (h : v ∈ items) :
    v.depth ≤ depthItems items := by
  induction items with
  | nil => cases h
  | cons w rest ih =>
    rw [depthItems]
    rcases List.mem_cons.1 h with rfl | h
    · omega
    · have := ih h
      omega

theorem depth_le_fields {f : String × Value} {fields : List (String × Value)} (h : f ∈ fields) :
    f.2.depth ≤ depthFields fields := by
  induction fields with
  | nil => cases h
  | cons g rest ih =>
    obtain ⟨k, w⟩ := g
    rw [depthFields]
    rcases List.mem_cons.1 h with rfl | h
    · exact Nat.le_max_left _ _
    · have := ih h
      omega

end Folio.Value
