import Folio.Proofs.Entity.Reachable
import Folio.Proofs.Registry.Encoding
import Folio.Proofs.Value.Arrangement
import Folio.Store.Filter

/-!
# The documents of records

A record is encoded as a document with a field for each property. The identity
comes first, and no two fields have one name, at any depth, unless a document
that is a value already has two such fields.

Results:
* `encodingFields_id`: the identity is the first field and no other.
* `distinct_encodingFields`: the names are distinct at every depth.
-/
namespace Folio

namespace FieldValue

/-- The properties of every entity in the value are sorted, and every document
in it has distinct names at every depth. -/
structure Proper (v : FieldValue) : Prop where
  sorted : ∀ n, (entity n).PartOf v → Keyed.Sorted n.attributes
  distinct : ∀ doc, (document doc).PartOf v → (Value.document doc).everywhere Value.distinct = true

theorem Proper.item {items : List FieldValue} (h : (list items).Proper) {v : FieldValue}
    (hv : v ∈ items) : v.Proper :=
  ⟨fun n hn => h.sorted n (.item hv hn), fun doc hd => h.distinct doc (.item hv hd)⟩

theorem Proper.property {e : Entity} (h : (entity e).Proper) {a : String × FieldValue}
    (ha : a ∈ e.attributes) : a.2.Proper :=
  ⟨fun n hn => h.sorted n (.property ha hn), fun doc hd => h.distinct doc (.property ha hd)⟩

theorem Proper.of_entity {e : Entity} (hs : Keyed.Sorted e.attributes)
    (h : ∀ a ∈ e.attributes, a.2.Proper) : (entity e).Proper := by
  constructor
  · intro n hn
    cases hn with
    | whole => exact hs
    | property ha hn => exact (h _ ha).sorted n hn
  · intro doc hd
    cases hd with
    | property ha hd => exact (h _ ha).distinct doc hd

theorem Proper.of_leaf {v : FieldValue} (hl : v.isLeaf = true) (hv : ∀ doc, v ≠ document doc) :
    v.Proper := by
  constructor
  · intro n hn
    cases eq_of_partOf_leaf hl hn
    cases hl
  · intro doc hd
    exact absurd (eq_of_partOf_leaf hl hd).symm (hv doc)

/-- A reachable entity is proper if the documents in it are. -/
theorem proper_of_reachable {s : Schema} {known : ClassRef → Prop} {e : Entity}
    (hr : e.Reachable s known) (hd : ∀ doc, (document doc).PartOf (entity e) →
      (Value.document doc).everywhere Value.distinct = true) : (entity e).Proper := by
  refine ⟨?_, hd⟩
  intro n hn
  cases hn with
  | whole => exact hr.sound.sorted
  | property ha hn => exact (hr.nested _ ha n hn).sound.sorted

end FieldValue

namespace Registry

variable {fields : Fields}

/-! ## The fields of a document -/

/-- The first of the fields of a document is the identity, if there is one. -/
theorem encodingId_of_get? {v : FieldValue} (h : Keyed.get? Naming.idProperty fields = some v) :
    encodingId fields = (encoding v).map fun w => [(Naming.idProperty, w)] := by
  induction fields with
  | nil => cases h
  | cons a rest ih =>
    obtain ⟨k, x⟩ := a
    rw [Keyed.get?] at h
    rw [encodingId]
    by_cases hk : k = Naming.idProperty
    · rw [if_pos hk] at h ⊢
      cases h
      rw [hk]
      cases encoding v <;> rfl
    · rw [if_neg hk] at h ⊢
      exact ih h

theorem encodingId_of_none (h : Keyed.get? Naming.idProperty fields = none) :
    encodingId fields = .ok [] := by
  induction fields with
  | nil => rfl
  | cons a rest ih =>
    obtain ⟨k, x⟩ := a
    rw [Keyed.get?] at h
    rw [encodingId]
    by_cases hk : k = Naming.idProperty
    · rw [if_pos hk] at h
      cases h
    · rw [if_neg hk] at h ⊢
      exact ih h

/-- The others are the properties that are not the identity, in order. -/
theorem encodingRest_ok {rest : List (String × Value)} (h : encodingRest fields = .ok rest) :
    rest.map (·.1) = (fields.map (·.1)).filter (fun k => !decide (k = Naming.idProperty)) ∧
      ∀ f ∈ rest, ∃ a ∈ fields, encoding a.2 = .ok f.2 := by
  induction fields generalizing rest with
  | nil => cases h; exact ⟨rfl, fun f hf => by cases hf⟩
  | cons a others ih =>
    obtain ⟨k, x⟩ := a
    rw [encodingRest] at h
    by_cases hk : k = Naming.idProperty
    · rw [if_pos hk] at h
      obtain ⟨hnames, hfields⟩ := ih h
      constructor
      · rw [List.map_cons, List.filter_cons_of_neg (by simp [hk]), hnames]
      · intro f hf
        obtain ⟨a, ha, he⟩ := hfields f hf
        exact ⟨a, List.mem_cons_of_mem _ ha, he⟩
    · rw [if_neg hk] at h
      obtain ⟨w, hx, h⟩ := ok_of_bind h
      obtain ⟨ws, hr, h⟩ := ok_of_bind h
      cases h
      obtain ⟨hnames, hfields⟩ := ih hr
      constructor
      · rw [List.map_cons, List.map_cons, List.filter_cons_of_pos (by simp [hk]), hnames]
      · intro f hf
        rcases List.mem_cons.1 hf with rfl | hf
        · exact ⟨(k, x), List.mem_cons_self, hx⟩
        · obtain ⟨a, ha, he⟩ := hfields f hf
          exact ⟨a, List.mem_cons_of_mem _ ha, he⟩

theorem ne_of_mem_rest {rest : List (String × Value)} (h : encodingRest fields = .ok rest)
    {f : String × Value} (hf : f ∈ rest) : f.1 ≠ Naming.idProperty := by
  have hm := List.mem_map_of_mem (f := (·.1)) hf
  rw [(encodingRest_ok h).1, List.mem_filter] at hm
  simpa using hm.2

/-- The identity, if there is one, and the other properties make the document. -/
theorem encodingFields_ok {doc : Document} (h : encodingFields fields = .ok doc) :
    ∃ first rest, doc = ⟨first ++ rest⟩ ∧ encodingRest fields = .ok rest ∧
      (Keyed.get? Naming.idProperty fields = none ∧ first = [] ∨
        ∃ v w, Keyed.get? Naming.idProperty fields = some v ∧ encoding v = .ok w ∧
          first = [(Naming.idProperty, w)]) := by
  obtain ⟨first, hi, h⟩ := ok_of_bind h
  obtain ⟨rest, hr, h⟩ := ok_of_bind h
  cases h
  refine ⟨first, rest, rfl, hr, ?_⟩
  cases hg : Keyed.get? Naming.idProperty fields with
  | none =>
    rw [encodingId_of_none hg] at hi
    cases hi
    exact .inl ⟨rfl, rfl⟩
  | some v =>
    rw [encodingId_of_get? hg] at hi
    cases hv : encoding v with
    | error failure => rw [hv] at hi; cases hi
    | ok w =>
      rw [hv] at hi
      cases hi
      exact .inr ⟨v, w, rfl, hv, rfl⟩

/-- The document of a record with an id has the id first, and nowhere else. -/
theorem encodingFields_id {id : ObjectId} {doc : Document}
    (hid : Keyed.get? Naming.idProperty fields = some (.objectId id))
    (h : encodingFields fields = .ok doc) :
    ∃ rest, doc = ⟨(idField, .objectId id) :: rest⟩ ∧ ∀ f ∈ rest, f.1 ≠ idField := by
  obtain ⟨first, rest, rfl, hr, ⟨hg, -⟩ | ⟨v, w, hg, he, rfl⟩⟩ := encodingFields_ok h
  · rw [hid] at hg
    cases hg
  · rw [hid] at hg
    cases hg
    cases he
    exact ⟨rest, rfl, fun f hf => ne_of_mem_rest hr hf⟩

/-! ## Distinct names -/

/-- If what the properties are encoded as has distinct names, so has the
document. -/
theorem distinct_fields {doc : Document} (hs : Keyed.Sorted fields)
    (hv : ∀ a ∈ fields, ∀ w, encoding a.2 = .ok w → w.everywhere Value.distinct = true)
    (h : encodingFields fields = .ok doc) :
    (Value.document doc).everywhere Value.distinct = true := by
  obtain ⟨first, rest, rfl, hr, hfirst⟩ := encodingFields_ok h
  obtain ⟨hnames, hrest⟩ := encodingRest_ok hr
  have hn : (rest.map (·.1)).Nodup := by
    rw [hnames]
    exact hs.nodup.filter _
  have hgood : ∀ f ∈ rest, f.2.everywhere Value.distinct = true := by
    intro f hf
    obtain ⟨a, ha, he⟩ := hrest f hf
    exact hv a ha _ he
  rcases hfirst with ⟨-, rfl⟩ | ⟨v, w, hg, he, rfl⟩
  · exact Value.everywhere_document.2 ⟨decide_eq_true hn, hgood⟩
  · refine Value.everywhere_document.2 ⟨decide_eq_true ?_, ?_⟩
    · refine List.nodup_cons.2 ⟨?_, hn⟩
      intro hm
      obtain ⟨f, hf, hk⟩ := List.mem_map.1 hm
      exact ne_of_mem_rest hr hf hk
    · intro f hf
      rcases List.mem_cons.1 hf with rfl | hf
      · exact hv _ (Keyed.mem_of_get? hg) _ he
      · exact hgood f hf

theorem encodingItems_eq_mapM (items : List FieldValue) :
    encodingItems items = items.mapM encoding := by
  induction items with
  | nil => rfl
  | cons v rest ih => rw [encodingItems, List.mapM_cons, ih]

theorem distinct_leaf {v : FieldValue} (hl : v.isLeaf = true) (hv : v.Proper) {w : Value}
    (h : encodingLeaf v = .ok w) : w.everywhere Value.distinct = true := by
  cases v with
  | document doc =>
    cases h
    exact hv.distinct doc (.whole _)
  | float x =>
    obtain ⟨-, rfl⟩ := storable_ok.1 h
    rfl
  | double x =>
    obtain ⟨-, rfl⟩ := storable_ok.1 h
    rfl
  | foreign f => cases h
  | list items => cases hl
  | entity e => cases hl
  | _ => cases h; rfl

/-- What a proper value is encoded as has distinct names at every depth. -/
theorem distinct_encoding {v : FieldValue} (hv : v.Proper) {w : Value} (h : encoding v = .ok w) :
    w.everywhere Value.distinct = true := by
  induction v using FieldValue.tree generalizing w with
  | leaf v hl => exact distinct_leaf hl hv (encoding_leaf hl ▸ h)
  | list items ih =>
    rw [encoding, encodingItems_eq_mapM] at h
    obtain ⟨ws, hi, h⟩ := ok_of_bind h
    cases h
    refine Value.everywhere_array.2 ⟨rfl, ?_⟩
    intro w hw
    obtain ⟨v, hm, he⟩ := FieldValue.mem_of_mapM hi w hw
    exact ih v hm (hv.item hm) he
  | entity e ih =>
    rw [encoding_entity] at h
    cases hf : encodingFields e.attributes with
    | error failure => rw [hf] at h; cases h
    | ok doc =>
      rw [hf] at h
      cases h
      refine distinct_fields (hv.sorted e (.whole _)) ?_ hf
      exact fun a ha w hw => ih a ha (hv.property ha) hw

/-- So has the document of a proper entity. -/
theorem distinct_encodingFields {e : Entity} (he : (FieldValue.entity e).Proper) {doc : Document}
    (h : encodingFields e.attributes = .ok doc) :
    (Value.document doc).everywhere Value.distinct = true := by
  refine distinct_fields (he.sorted e (.whole _)) ?_ h
  exact fun a ha w hw => distinct_encoding (he.property ha) hw

end Registry
end Folio
