import Folio.Proofs.Value.Arrangement

/-!
# Equal values

Equality of values compares doubles as numbers and documents in the order of
their fields. So a value without NaN equals itself, and a canonical form equals
the value that it is of only where nothing had to be moved.

Results:
* `beq_self`: equality is reflexive but for NaNs.
* `canonical_beq_iff`: a value equals its canonical form if its names ascend.
-/
namespace Folio.Value

theorem equalItems_map (g : Value → Value) (items : List Value) :
    equalItems (items.map g) items = items.all fun v => g v == v := by
  induction items with
  | nil => rfl
  | cons v rest ih => rw [List.map_cons, equalItems, ih]; rfl

theorem equalFields_map (g : Value → Value) (fields : List (String × Value)) :
    equalFields (fields.map fun f => (f.1, g f.2)) fields = fields.all fun f => g f.2 == f.2 := by
  induction fields with
  | nil => rfl
  | cons f rest ih =>
    obtain ⟨k, v⟩ := f
    rw [List.map_cons, equalFields, ih, beq_self_eq_true, Bool.true_and]
    rfl

/-- Documents are equal only if they list the same names. -/
theorem names_of_equalFields {fields others : List (String × Value)}
    (h : equalFields fields others = true) : fields.map (·.1) = others.map (·.1) := by
  induction fields generalizing others with
  | nil =>
    cases others with
    | nil => rfl
    | cons g rest => cases h
  | cons f rest ih =>
    obtain ⟨k, v⟩ := f
    cases others with
    | nil => cases h
    | cons g others =>
      obtain ⟨l, w⟩ := g
      simp only [equalFields, Bool.and_eq_true, beq_iff_eq] at h
      rw [List.map_cons, List.map_cons, ih h.2, h.1.1]

theorem beq_array (items others : List Value) :
    (array items == array others) = equalItems items others := rfl

theorem beq_document (fields others : List (String × Value)) :
    (document ⟨fields⟩ == document ⟨others⟩) = equalFields fields others := rfl

/-- Documents are equal if they are as values. -/
theorem document_beq (doc other : Document) : (document doc == document other) = (doc == other) := by
  obtain ⟨fields⟩ := doc
  obtain ⟨others⟩ := other
  rfl

theorem document_canonical (doc : Document) :
    (document doc).canonical = document doc.canonical := by
  obtain ⟨fields⟩ := doc
  rfl

/-- Equality is reflexive but for NaNs. -/
theorem beq_self {v : Value} (hn : v.hasNaN = false) : (v == v) = true := by
  induction v using tree with
  | scalar v hs =>
    cases v with
    | double d => exact Number.Floating.beq_self hn
    | array items => cases hs
    | document doc => cases hs
    | _ => show equal _ _ = true; simp [equal]
  | array items ih =>
    have := equalItems_map id items
    rw [List.map_id] at this
    rw [beq_array, this, List.all_eq_true]
    exact fun v hv => ih v hv (hasNaN_array.1 hn v hv)
  | document fields ih =>
    have := equalFields_map id fields
    simp only [id, List.map_id'] at this
    rw [beq_document, this, List.all_eq_true]
    exact fun f hf => ih f hf (hasNaN_document.1 hn f hf)

/-- The fields ascend if their names do. -/
theorem ascending_of_names {fields others : List (String × Value)}
    (h : fields.map (·.1) = others.map (·.1)) (ha : Ascending others) : Ascending fields := by
  have hn : (others.map (·.1)).Pairwise fun k l => keyOrder k l = .lt := List.pairwise_map.2 ha
  rw [← h] at hn
  exact List.pairwise_map.1 hn

/-- A canonical form equals the value that it is of only if the names in the
value ascend. -/
theorem ordered_of_canonical_beq {v : Value} (hd : v.everywhere distinct = true)
    (h : (v.canonical == v) = true) : v.everywhere ordered = true := by
  induction v using tree with
  | scalar v hs =>
    rw [everywhere_scalar hs]
    cases v <;> first | rfl | cases hs
  | array items ih =>
    rw [canonical_array, beq_array, equalItems_map, List.all_eq_true] at h
    refine everywhere_array.2 ⟨rfl, ?_⟩
    exact fun v hv => ih v hv ((everywhere_array.1 hd).2 v hv) (h v hv)
  | document fields ih =>
    obtain ⟨hk, hf⟩ := everywhere_document.1 hd
    rw [canonical_document, beq_document] at h
    have hm : (fields.map fun f => (f.1, f.2.canonical)).map (·.1) = fields.map (·.1) := by
      simp [Function.comp_def]
    have ha : Ascending fields := by
      refine ascending_of_names (names_of_equalFields h).symm (arrange_ascending ?_)
      rw [hm]
      exact of_decide_eq_true hk
    rw [arrange_of_sorted ((ascending_of_names hm ha).imp keyLE_of_lt), equalFields_map,
      List.all_eq_true] at h
    refine everywhere_document.2 ⟨decide_eq_true ha, ?_⟩
    exact fun f hm => ih f hm (hf f hm) (h f hm)

theorem canonical_beq_iff {v : Value} (hn : v.hasNaN = false) (hd : v.everywhere distinct = true) :
    (v.canonical == v) = true ↔ v.everywhere ordered = true := by
  refine ⟨ordered_of_canonical_beq hd, ?_⟩
  intro ho
  rw [canonical_of_ordered ho]
  exact beq_self hn

end Folio.Value
