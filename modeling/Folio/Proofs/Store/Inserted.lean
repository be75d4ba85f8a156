import Mathlib.Data.List.Nodup
import Folio.Proofs.Collection.Finding
import Folio.Proofs.Store.Readable
import Folio.Proofs.Value.Paths

/-!
# Finding an inserted document by one of its fields

A filter compares the value that is asked for with what is read back, which is
in canonical form, and equality of documents goes by the order of their fields.
So a document that is inserted is found by the value of a field unless a
document in that value, at some depth, has its names in another order. And the
store may put an id in front, which makes a document of the greatest size one
that cannot be read.

Results:
* `Readable.withId_iff`: a readable document with its id is readable but for the
  number of its fields.
* `same_canonical_iff`: when a value counts as the same as its canonical form.
* `find_inserted_iff`: which fields an inserted document is found by.
-/
namespace Folio

variable {c field : String} {v : Value} {doc : Document} {fresh : ObjectId} {s t : Store}

namespace Document

/-! ## Sizes -/

/-- A document has one field more with an id, unless it has one already. -/
theorem size_withId (hn : doc.keys.Nodup) (fresh : ObjectId) :
    (doc.withId none fresh).size = if doc.contains idField then doc.size else doc.size + 1 := by
  have hkeys : (doc.fields.filter fun f => decide (f.1 ≠ idField)).map (·.1) =
      doc.keys.erase idField := by
    rw [hn.erase_eq_filter, keys, List.filter_map]
    refine congrArg (List.map _) (List.filter_congr fun f _ => ?_)
    by_cases hf : f.1 = idField <;> simp [hf]
  have hsize : (doc.withId none fresh).size = (doc.keys.erase idField).length + 1 := by
    rw [← hkeys, List.length_map]
    rfl
  have hlength : doc.keys.length = doc.size := List.length_map _
  rw [hsize]
  split
  next h =>
    have hm := contains_iff.1 h
    rw [List.length_erase_of_mem hm, Nat.sub_add_cancel (List.length_pos_of_mem hm), hlength]
  next h => rw [List.erase_of_not_mem (mt contains_iff.2 h), hlength]

/-- The sizes of a document: so many fields, and in each a name and a value. -/
theorem sized_iff : (Value.document doc).everywhere Value.sized = true ↔
    doc.size ≤ Cbor.maxEntries ∧ ∀ f ∈ doc.fields, (Bytes.ofText f.1).length ≤ Cbor.maxBytes ∧
      f.2.everywhere Value.sized = true := by
  obtain ⟨fields⟩ := doc
  rw [Value.everywhere_document, Value.sized, Bool.and_eq_true, decide_eq_true_iff, List.all_eq_true,
    and_assoc, forall₂_and]
  simp only [decide_eq_true_iff]
  rfl

/-- A readable document is readable with its id, unless the id is one field too
many. -/
theorem Readable.withId_iff (h : doc.Readable) (fresh : ObjectId) :
    (doc.withId none fresh).Readable ↔
      doc.contains idField = true ∨ doc.size < Cbor.maxEntries := by
  obtain ⟨hs, hw⟩ := h
  have hsize := size_withId (wellNamed_iff.1 hw).1 fresh
  obtain ⟨hcount, hfields⟩ := sized_iff.1 hs
  have hid : ((doc.get? idField).getD (.objectId fresh)).everywhere Value.sized = true := by
    cases hv : doc.get? idField with
    | none => rfl
    | some v => exact (hfields _ (mem_of_lookup hv)).2
  have hname : (Bytes.ofText idField).length ≤ Cbor.maxBytes := by decide
  have hcounted : (doc.withId none fresh).Readable ↔
      (doc.withId none fresh).size ≤ Cbor.maxEntries := by
    refine ⟨fun h => (sized_iff.1 h.1).1, fun hle => ⟨sized_iff.2 ⟨hle, ?_⟩, ?_⟩⟩
    · refine List.forall_mem_cons.2 ⟨⟨hname, hid⟩, fun f hf => ?_⟩
      exact hfields f (List.mem_of_mem_filter hf)
    · exact hw.withId (fun _ hnone => by cases hnone) fresh
  rw [hcounted, hsize]
  cases doc.contains idField with
  | true => exact iff_of_true hcount (.inl rfl)
  | false => exact ⟨.inr, fun h => h.resolve_left Bool.false_ne_true⟩

end Document

/-! ## Values and their canonical forms -/

namespace Filter

/-- A value counts as the same as its canonical form if its names ascend at every
depth. -/
theorem same_canonical_iff (hn : v.hasNaN = false) (hd : v.everywhere Value.distinct = true) :
    same v.canonical v = true ↔ v.everywhere Value.ordered = true := by
  rw [← Value.canonical_beq_iff hn hd, same, Bool.or_eq_true]
  refine ⟨fun h => h.elim (fun hequal => hequal) fun hcompare => ?_, .inl⟩
  -- only scalars are compared by an order, and they are their own canonical forms
  cases v with
  | array items =>
    rw [Value.canonical_array] at hcompare
    cases hcompare
  | document doc =>
    rw [Value.document_canonical] at hcompare
    cases hcompare
  | _ => exact Value.beq_self hn

/-- A field that holds the canonical form of a value is found by the value if its
names ascend. -/
theorem fieldEquals_canonical {stored : Document} (hp : stored.getPath? field = some v.canonical)
    (hn : v.hasNaN = false) (hd : v.everywhere Value.distinct = true) :
    fieldEquals stored field v = true ↔ v.everywhere Value.ordered = true := by
  rw [← same_canonical_iff hn hd, fieldEquals, hp]
  cases v with
  | array items => rw [Value.canonical_array]
  | document doc => rw [Value.document_canonical]
  | _ => rfl

end Filter

namespace Store

variable {docs : List Document}

/-- A search in a store that can be reached answers the documents that match, where
all can be read. -/
theorem find_documents (hu : s.unavailable = false) (c : String) (filter : Filter) :
    ((find c filter {}).run s).1 = (s.documents c).map (List.filter (filter.matchesDoc ·)) := by
  rw [run_find, if_neg (by simp [hu]), documents, ← Stored.map_matching filter _ 0]
  rfl

/-- After an insertion the collection has one more document, if it can be read. -/
theorem documents_append {e : Stored} (hd : s.documents c = .ok docs)
    (h : s.Changed c (s.entries c ++ [e]) t) :
    t.documents c = e.document.map fun doc => docs ++ [doc] := by
  rw [documents, h.here, Stored.documents, List.mapM_append,
    show (s.entries c).mapM Stored.document = .ok docs from hd, List.mapM_cons]
  cases e.document <;> rfl

/-- An inserted document has the fields that it came with. -/
theorem get?_inserted (hv : doc.get? field = some v) :
    (doc.withId none fresh).get? field = some v := by
  by_cases hid : field = idField
  · subst hid
    rw [id_withId, hv]
    rfl
  · rw [get?_withId hid, hv]

/-- A document that readers allow was inserted, into a collection that can be read.
The document is found by the value of one of its fields if and only if the names
in this value ascend at every depth, and the document had an id or has room for
one. -/
theorem find_inserted_iff {id : Value} (hd : s.documents c = .ok docs) (hr : doc.Readable)
    (hf : '.' ∉ field.toList) (hv : doc.get? field = some v)
    (h : (insertOne c doc fresh).run s = (.ok id, t)) :
    (∃ found, ((find c (.eq field v) {}).run t).1 = .ok found ∧
        (doc.withId none fresh).canonical ∈ found) ↔
      v.everywhere Value.ordered = true ∧
        (doc.contains idField = true ∨ doc.size < Cbor.maxEntries) := by
  rw [find_documents ((counted_insertOne h).2 id rfl)]
  rcases insertOne_cases h with ⟨_, hfault, -⟩ | ⟨entry, -, he, -, hchanged⟩
  · cases hfault
  have hbytes := (Stored.ofDocument_ok he).2
  rw [documents_append hd hchanged, ← hr.withId_iff fresh, ← Stored.document_ok_iff hbytes]
  cases hb : entry.document with
  | error fault => exact iff_of_false (fun ⟨_, h, _⟩ => by cases h) fun ⟨_, _, h⟩ => by cases h
  | ok back =>
    have hfield : (doc.withId none fresh).get? field = some v := get?_inserted hv
    have hpath : back.getPath? field = some v.canonical := by
      rw [Document.getPath?_plain back hf, (Stored.get?_document he hb).2, hfield]
      rfl
    have hn : v.hasNaN = false :=
      Value.hasNaN_document.1 (Cbor.hasNaN_of_encode hbytes) _ (Document.mem_of_lookup hfield)
    rw [← Filter.fieldEquals_canonical hpath hn (hr.2.get? hv),
      ← (Stored.document_of_encode hbytes hb).1]
    constructor
    · rintro ⟨found, hfound, hmem⟩
      cases hfound
      exact ⟨(List.mem_filter.1 hmem).2, back, rfl⟩
    · rintro ⟨hmatches, -⟩
      refine ⟨_, rfl, List.mem_filter.2 ⟨?_, hmatches⟩⟩
      exact List.mem_append_right _ (List.mem_singleton_self back)

/-- A document with another one in it, whose names do not ascend. -/
def parcel : Document := ⟨[("size", .document ⟨[("w", .integer 1), ("h", .integer 2)]⟩)]⟩

/-- It is inserted, and not found by its size. -/
theorem find_inserted_parcel : ∃ id t,
    (insertOne "parcels" parcel (.ofParts 1 1)).run empty = (.ok id, t) ∧
      ¬ ∃ found, ((find "parcels"
          (.eq "size" (.document ⟨[("w", .integer 1), ("h", .integer 2)]⟩)) {}).run t).1 = .ok found ∧
        (parcel.withId none (.ofParts 1 1)).canonical ∈ found := by
  have hrun : (insertOne "parcels" parcel (.ofParts 1 1)).run empty =
      (.ok (.objectId (.ofParts 1 1)),
        ((insertOne "parcels" parcel (.ofParts 1 1)).run empty).2) := by rfl
  refine ⟨_, _, hrun, fun hfound => ?_⟩
  have hreadable : parcel.Readable := ⟨by decide, by rfl⟩
  have hplain : '.' ∉ "size".toList := by decide
  have hread : empty.documents "parcels" = .ok [] := rfl
  have hiff := find_inserted_iff hread hreadable hplain rfl hrun
  exact absurd (hiff.1 hfound).1 (by decide)

end Store
end Folio
