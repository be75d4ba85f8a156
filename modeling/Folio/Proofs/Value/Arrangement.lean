import Folio.Proofs.Value.Everywhere

/-!
# Canonical form

Names are totally ordered by `keyOrder`, and the canonical form of a value has
the fields of every document sorted by it. `SortedForm` says so without an
algorithm: scalars stay, elements stay in place, and the fields of a document
are the same fields in ascending order.

Results:
* `keyOrder` is a total order on names (the instances below).
* `arrange_perm`, `arrange_sorted`: arranging is sorting.
* `sortedForm_canonical`: the canonical form is the sorted form.
* `canonical_of_ordered`, `canonical_canonical`: a value in canonical order is
  its own canonical form, and every canonical form is in canonical order.
-/
namespace Folio

/-! ## The order of names -/

theorem ofText_injective {a b : String} (h : Bytes.ofText a = Bytes.ofText b) : a = b := by
  unfold Bytes.ofText at h
  apply String.toByteArray_inj.1
  apply ByteArray.ext
  exact Array.toList_inj.1 h

instance : Std.TransCmp keyOrder :=
  inferInstanceAs (Std.TransCmp (compareLex (compareOn fun s => (Bytes.ofText s).length)
    (compareOn Bytes.ofText)))

instance : Std.LawfulEqCmp keyOrder where
  compare_self := by simp [keyOrder]
  eq_of_compare {a b} h := by
    rw [keyOrder, Ordering.then_eq_eq] at h
    exact ofText_injective (Std.LawfulEqOrd.eq_of_compare h.2)

theorem keyOrder_self (a : String) : keyOrder a a = .eq := Std.ReflCmp.compare_self

theorem keyOrder_swap (a b : String) : keyOrder a b = (keyOrder b a).swap :=
  Std.OrientedCmp.eq_swap

theorem keyOrder_trans {a b c : String} (hab : keyOrder a b = .lt) (hbc : keyOrder b c = .lt) :
    keyOrder a c = .lt := Std.TransCmp.lt_trans hab hbc

theorem keyLE_trans {a b c : String} (hab : keyLE a b = true) (hbc : keyLE b c = true) :
    keyLE a c = true := Std.TransCmp.isLE_trans hab hbc

theorem keyLE_of_lt {a b : String} (h : keyOrder a b = .lt) : keyLE a b = true := by
  simp [keyLE, h]

theorem keyLE_of_not {a b : String} (h : ¬ keyLE a b = true) : keyLE b a = true := by
  rw [keyLE, keyOrder_swap] at h
  rw [keyLE]
  cases hb : keyOrder b a <;> simp_all

theorem lt_of_keyLE {a b : String} (h : keyLE a b = true) (hne : a ≠ b) : keyOrder a b = .lt := by
  rw [keyLE] at h
  cases hc : keyOrder a b with
  | lt => rfl
  | eq => exact absurd (Std.LawfulEqCmp.eq_of_compare hc) hne
  | gt => rw [hc] at h; cases h

/-- Fields in ascending order of their names, which are then all different. -/
abbrev Ascending (fields : List (String × Value)) : Prop :=
  fields.Pairwise fun f g => keyOrder f.1 g.1 = .lt

theorem Ascending.nodup {fields : List (String × Value)} (h : Ascending fields) :
    (fields.map (·.1)).Nodup := by
  refine List.pairwise_map.2 (h.imp ?_)
  intro f g hlt heq
  rw [heq, keyOrder_self] at hlt
  cases hlt

namespace Value

/-! ## Sorting fields -/

theorem place_perm (f : String × Value) (fields : List (String × Value)) :
    (place f fields).Perm (f :: fields) := by
  induction fields with
  | nil => exact .refl _
  | cons g rest ih =>
    rw [place]
    split
    · exact .refl _
    · exact (ih.cons g).trans (.swap f g rest)

theorem arrange_perm (fields : List (String × Value)) : (arrange fields).Perm fields := by
  induction fields with
  | nil => exact .refl _
  | cons f rest ih => exact (place_perm f _).trans (ih.cons f)

theorem mem_arrange {f : String × Value} {fields : List (String × Value)} :
    f ∈ arrange fields ↔ f ∈ fields := (arrange_perm fields).mem_iff

theorem length_arrange (fields : List (String × Value)) :
    (arrange fields).length = fields.length := (arrange_perm fields).length_eq

theorem place_sorted (f : String × Value) {fields : List (String × Value)}
    (h : fields.Pairwise fun a b => keyLE a.1 b.1 = true) :
    (place f fields).Pairwise fun a b => keyLE a.1 b.1 = true := by
  induction fields with
  | nil => exact List.pairwise_singleton ..
  | cons g rest ih =>
    have hg := List.pairwise_cons.1 h
    rw [place]
    split
    · next hle =>
      refine List.pairwise_cons.2 ⟨?_, h⟩
      intro b hb
      rcases List.mem_cons.1 hb with rfl | hb
      · exact hle
      · exact keyLE_trans hle (hg.1 b hb)
    · next hle =>
      refine List.pairwise_cons.2 ⟨?_, ih hg.2⟩
      intro b hb
      rcases List.mem_cons.1 ((place_perm f rest).mem_iff.1 hb) with rfl | hb
      · exact keyLE_of_not hle
      · exact hg.1 b hb

theorem arrange_sorted (fields : List (String × Value)) :
    (arrange fields).Pairwise fun a b => keyLE a.1 b.1 = true := by
  induction fields with
  | nil => exact .nil
  | cons f rest ih => exact place_sorted f ih

/-- What is sorted stays as it is. -/
theorem arrange_of_sorted {fields : List (String × Value)}
    (h : fields.Pairwise fun a b => keyLE a.1 b.1 = true) : arrange fields = fields := by
  induction fields with
  | nil => rfl
  | cons f rest ih =>
    have hf := List.pairwise_cons.1 h
    show place f (arrange rest) = f :: rest
    rw [ih hf.2]
    cases rest with
    | nil => rfl
    | cons g rest => rw [place, if_pos (hf.1 g List.mem_cons_self)]

theorem arrange_ascending {fields : List (String × Value)} (h : (fields.map (·.1)).Nodup) :
    Ascending (arrange fields) := by
  have hd : ((arrange fields).map (·.1)).Nodup := ((arrange_perm fields).map _).nodup_iff.2 h
  refine List.Pairwise.imp₂ ?_ (arrange_sorted fields) (List.pairwise_map.1 hd)
  exact fun _ _ => lt_of_keyLE

/-! ## Documents in order, documents with different names -/

/-- Whether this is no document, or one whose names ascend. -/
def ordered : Value → Bool
  | document ⟨fields⟩ => decide (Ascending fields)
  | _ => true

/-- Whether this is no document, or one whose names are all different. -/
def distinct : Value → Bool
  | document ⟨fields⟩ => decide (fields.map (·.1)).Nodup
  | _ => true

theorem canonical_array (items : List Value) :
    (array items).canonical = array (items.map canonical) := by
  rw [canonical, canonicalItems_eq_map]

theorem canonical_document (fields : List (String × Value)) :
    (document ⟨fields⟩).canonical =
      document ⟨arrange (fields.map fun f => (f.1, f.2.canonical))⟩ := by
  rw [canonical, canonicalFields_eq_map]

theorem canonical_of_ordered {v : Value} (h : v.everywhere ordered = true) : v.canonical = v := by
  induction v using tree with
  | scalar v hs => exact canonical_scalar hs
  | array items ih =>
    rw [canonical_array, List.map_congr_left fun v hv => ih v hv ((everywhere_array.1 h).2 v hv)]
    simp
  | document fields ih =>
    obtain ⟨ha, hf⟩ := everywhere_document.1 h
    have same : (fields.map fun f => (f.1, f.2.canonical)) = fields := by
      rw [List.map_congr_left fun f hm => by rw [ih f hm (hf f hm)]]
      simp
    rw [canonical_document, same, arrange_of_sorted]
    exact (of_decide_eq_true ha).imp keyLE_of_lt

theorem canonical_ordered {v : Value} :
    v.canonical.everywhere ordered = true ↔ v.everywhere distinct = true := by
  induction v using tree with
  | scalar v hs =>
    rw [canonical_scalar hs, everywhere_scalar hs, everywhere_scalar hs]
    cases v <;> first | rfl | cases hs
  | array items ih =>
    rw [canonical_array, everywhere_array, everywhere_array]
    simp only [List.forall_mem_map]
    exact and_congr Iff.rfl (forall₂_congr ih)
  | document fields ih =>
    rw [canonical_document, everywhere_document, everywhere_document]
    refine and_congr ?_ ?_
    · simp only [ordered, distinct, decide_eq_true_eq]
      have names : (fields.map fun f => (f.1, f.2.canonical)).map (·.1) = fields.map (·.1) := by
        simp [Function.comp_def]
      constructor
      · intro h
        rw [← names]
        exact ((arrange_perm _).map _).nodup_iff.1 h.nodup
      · exact fun h => arrange_ascending (names ▸ h)
    · simp only [mem_arrange, List.forall_mem_map]
      exact forall₂_congr ih

theorem distinct_of_ordered {v : Value} (h : v.everywhere ordered = true) :
    v.everywhere distinct = true := by
  refine canonical_ordered.1 ?_
  rwa [canonical_of_ordered h]

theorem canonical_canonical (v : Value) : v.canonical.canonical = v.canonical := by
  induction v using tree with
  | scalar v hs => rw [canonical_scalar hs, canonical_scalar hs]
  | array items ih =>
    rw [canonical_array, canonical_array, List.map_map]
    exact congrArg array (List.map_congr_left ih)
  | document fields ih =>
    rw [canonical_document, canonical_document]
    congr 2
    have same : ∀ f ∈ arrange (fields.map fun f => (f.1, f.2.canonical)),
        (f.1, f.2.canonical) = f := by
      intro f hf
      obtain ⟨g, hg, rfl⟩ := List.mem_map.1 (mem_arrange.1 hf)
      rw [ih g hg]
    rw [List.map_congr_left same, List.map_id', arrange_of_sorted (arrange_sorted _)]

/-- What depends on a container only up to the order of its fields holds
everywhere in the canonical form if it does in the value. -/
theorem everywhere_canonical {p : Value → Bool} (hp : ∀ v, p v.canonical = p v) (v : Value) :
    v.canonical.everywhere p = true ↔ v.everywhere p = true := by
  induction v using tree with
  | scalar v hs => rw [canonical_scalar hs]
  | array items ih =>
    rw [everywhere_array, ← hp, canonical_array, everywhere_array]
    simp only [List.forall_mem_map]
    exact and_congr Iff.rfl (forall₂_congr ih)
  | document fields ih =>
    rw [everywhere_document, ← hp, canonical_document, everywhere_document]
    simp only [mem_arrange, List.forall_mem_map]
    exact and_congr Iff.rfl (forall₂_congr ih)

theorem hasNaN_canonical {v : Value} : v.canonical.hasNaN = false ↔ v.hasNaN = false := by
  induction v using tree with
  | scalar v hs => rw [canonical_scalar hs]
  | array items ih =>
    rw [canonical_array, hasNaN_array, hasNaN_array, List.forall_mem_map]
    exact forall₂_congr ih
  | document fields ih =>
    rw [canonical_document, hasNaN_document, hasNaN_document]
    simp only [mem_arrange, List.forall_mem_map]
    exact forall₂_congr ih

/-! ## Fields of a canonical form -/

theorem lookup_iff_mem {k : String} {v : Value} {fields : List (String × Value)}
    (h : (fields.map (·.1)).Nodup) : Document.lookup k fields = some v ↔ (k, v) ∈ fields := by
  induction fields with
  | nil => simp [Document.lookup]
  | cons f rest ih =>
    obtain ⟨l, w⟩ := f
    obtain ⟨hl, hr⟩ := List.nodup_cons.1 h
    rw [Document.lookup]
    by_cases hk : l = k
    · subst hk
      have hn : (l, v) ∉ rest := fun hm => hl (List.mem_map.2 ⟨(l, v), hm, rfl⟩)
      simp [hn, eq_comm]
    · rw [if_neg hk, ih hr]
      simp [Ne.symm hk]

/-- Sorting changes the value of no field. -/
theorem lookup_arrange {fields : List (String × Value)} (h : (fields.map (·.1)).Nodup)
    (k : String) : Document.lookup k (arrange fields) = Document.lookup k fields := by
  refine Option.ext fun v => ?_
  rw [lookup_iff_mem (((arrange_perm fields).map _).nodup_iff.2 h), mem_arrange, lookup_iff_mem h]

theorem lookup_map (g : Value → Value) (k : String) (fields : List (String × Value)) :
    Document.lookup k (fields.map fun f => (f.1, g f.2)) = (Document.lookup k fields).map g := by
  induction fields with
  | nil => rfl
  | cons f rest ih =>
    obtain ⟨l, w⟩ := f
    simp only [List.map_cons, Document.lookup]
    split
    · rfl
    · exact ih

/-- A field of the canonical form is the canonical form of the field. -/
theorem get?_canonical {doc : Document} (h : (doc.fields.map (·.1)).Nodup) (k : String) :
    doc.canonical.get? k = (doc.get? k).map canonical := by
  rw [Document.get?, Document.canonical, canonicalFields_eq_map, lookup_arrange, lookup_map]
  · rfl
  · simpa [Function.comp_def] using h

/-! ## Sorted forms -/

mutual

/-- `w` is `v` with the fields of every document in ascending order: scalars
are the same, elements keep their places, and each field of a document stands
among the ascending fields of the other, which has no further ones. -/
def SortedForm : (v w : Value) → Prop
  | array items, array others => SortedItems items others
  | document ⟨fields⟩, document ⟨others⟩ =>
    Ascending others ∧ others.length = fields.length ∧ SortedFields fields others
  | v, w => w = v

/-- Each element is the sorted form of the one in its place. -/
def SortedItems : (items others : List Value) → Prop
  | [], [] => True
  | v :: rest, w :: others => SortedForm v w ∧ SortedItems rest others
  | _, _ => False

/-- Each field has its sorted form under its name. -/
def SortedFields : (fields others : List (String × Value)) → Prop
  | [], _ => True
  | (k, v) :: rest, others => (∃ w, (k, w) ∈ others ∧ SortedForm v w) ∧ SortedFields rest others

end

theorem sortedItems_map {items : List Value} (h : ∀ v ∈ items, SortedForm v v.canonical) :
    SortedItems items (items.map canonical) := by
  induction items with
  | nil => trivial
  | cons v rest ih => exact ⟨h v (by simp), ih fun w hw => h w (by simp [hw])⟩

theorem sortedFields_of {fields others : List (String × Value)}
    (h : ∀ f ∈ fields, (f.1, f.2.canonical) ∈ others ∧ SortedForm f.2 f.2.canonical) :
    SortedFields fields others := by
  induction fields with
  | nil => trivial
  | cons f rest ih =>
    obtain ⟨k, v⟩ := f
    exact ⟨⟨v.canonical, h (k, v) (by simp)⟩, ih fun g hg => h g (by simp [hg])⟩

/-- The canonical form of a value with different names is its sorted form. -/
theorem sortedForm_canonical {v : Value} (h : v.everywhere distinct = true) :
    SortedForm v v.canonical := by
  induction v using tree with
  | scalar v hs =>
    rw [canonical_scalar hs]
    cases v <;> first | rfl | cases hs
  | array items ih =>
    rw [canonical_array]
    exact sortedItems_map fun v hv => ih v hv ((everywhere_array.1 h).2 v hv)
  | document fields ih =>
    obtain ⟨hd, hf⟩ := everywhere_document.1 h
    rw [canonical_document]
    refine ⟨arrange_ascending ?_, by simp [length_arrange], sortedFields_of ?_⟩
    · simpa [Function.comp_def] using of_decide_eq_true hd
    · intro f hm
      exact ⟨mem_arrange.2 (List.mem_map.2 ⟨f, hm, rfl⟩), ih f hm (hf f hm)⟩

end Value
end Folio
