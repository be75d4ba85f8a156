import Folio.Proofs.Cbor.Cutting
import Folio.Proofs.Store.Identity
import Folio.Proofs.Value.WellNamed

/-!
# Documents that can be read back

Readers allow texts, names and containers up to a size; writers know no such
limit. So what is written and stored can be read back only within the limits,
and one document beyond them is enough for its collection to be read no more.

Results:
* `Stored.decodeDocument_ok_iff`: which documents are read back from their bytes.
* `Stored.decodeDocument_front`: how their bytes are refused when they are cut short.
* `readable_iff`: after which requests a collection can still be read.
* `oversize_unreadable`: a document that is written and inserted, and then
  neither it nor its collection can be read.
-/
namespace Folio

/-- What readers ask of a document: allowed sizes, and no name twice, at every
depth. -/
def Document.Readable (doc : Document) : Prop :=
  (Value.document doc).everywhere Value.sized = true ∧ doc.WellNamed

namespace Stored

theorem document_ok_iff {doc : Document} {e : Stored}
    (he : Cbor.encodeDocument doc = .ok e.bytes) :
    (∃ back, e.document = .ok back) ↔ doc.Readable := by
  constructor
  · rintro ⟨back, hb⟩
    exact (document_of_encode he hb).2
  · rintro ⟨hs, hd⟩
    exact ⟨_, document_of_encoded he hs hd⟩

theorem decodeDocument_ok_iff {doc : Document} {b : Bytes} (he : Cbor.encodeDocument doc = .ok b) :
    (∃ back, Cbor.decodeDocument b = .ok back) ↔ doc.Readable := by
  refine Iff.trans ?_ (document_ok_iff (e := ⟨.null, b⟩) he)
  rw [document]
  cases Cbor.decodeDocument b with
  | ok back => exact iff_of_true ⟨back, rfl⟩ ⟨back, rfl⟩
  | error fault => constructor <;> rintro ⟨_, h⟩ <;> cases h

/-- Of the bytes of such a document every shorter part is refused, and only
because the input ends. -/
theorem decodeDocument_front {doc : Document} {front back : Bytes}
    (he : Cbor.encodeDocument doc = .ok (front ++ back)) (hb : back ≠ []) (hr : doc.Readable) :
    Cbor.decodeDocument front = .error .unexpectedEnd := by
  obtain ⟨_, h⟩ := (decodeDocument_ok_iff he).2 hr
  exact Cbor.decodeDocument_cut h hb

end Stored

namespace Store

/-- A document is read back from its bytes if and only if readers allow its
sizes, and it has each name once. A collection that can be read can be read
after the next request if and only if this holds of every document that the
request put there. -/
theorem readable_iff (doc : Document) (requests : List Request) (r : Request) (c : String) :
    (∀ b, Cbor.encodeDocument doc = .ok b →
      ((∃ back, Cbor.decodeDocument b = .ok back) ↔ doc.Readable)) ∧
    ((∃ docs, (empty.after requests).documents c = .ok docs) →
      ((∃ docs, (empty.after (requests ++ [r])).documents c = .ok docs) ↔
        ∀ e ∈ (empty.after (requests ++ [r])).entries c, e ∉ (empty.after requests).entries c →
          ∀ doc, Cbor.encodeDocument doc = .ok e.bytes → doc.Readable)) := by
  refine ⟨fun b => Stored.decodeDocument_ok_iff, fun before => ?_⟩
  rw [documents, Stored.documents, ok_mapM_iff] at before ⊢
  constructor
  · intro h e he _ doc hdoc
    exact (Stored.document_ok_iff hdoc).1 (h e he)
  · intro h e he
    by_cases hold : e ∈ (empty.after requests).entries c
    · exact before e hold
    · obtain ⟨doc, -, hdoc⟩ := after_faithful (requests ++ [r]) c e he
      exact (Stored.document_ok_iff hdoc).2 (h e he hold doc hdoc)

/-! ## A document beyond the limits -/

/-- A document with an array of nulls. -/
def nulls (n : Nat) : Document := ⟨[("a", .array (List.replicate n .null))]⟩

variable {n : Nat}

theorem everywhere_replicate {p : Value → Bool} (hnull : p .null = true)
    (h : p (.array (List.replicate n .null)) = true) :
    (Value.array (List.replicate n .null)).everywhere p = true := by
  refine Value.everywhere_array.2 ⟨h, fun v hv => ?_⟩
  rw [List.eq_of_mem_replicate hv]
  exact hnull

theorem hasNaN_replicate : (Value.array (List.replicate n .null)).hasNaN = false :=
  Value.hasNaN_array.2 fun v hv => by rw [List.eq_of_mem_replicate hv]; rfl

theorem hasNaN_nulls : (Value.document (nulls n)).hasNaN = false :=
  Value.hasNaN_document.2 (List.forall_mem_singleton.2 hasNaN_replicate)

/-- The array has no readable sizes if it has too many entries. -/
theorem not_sized_replicate (h : Cbor.maxEntries < n) :
    ¬ (Value.array (List.replicate n .null)).everywhere Value.sized = true := by
  intro hs
  have hlen := of_decide_eq_true (Value.everywhere_array.1 hs).1
  rw [List.length_replicate] at hlen
  omega

theorem not_readable_nulls (h : Cbor.maxEntries < n) : ¬ (nulls n).Readable := fun hr =>
  not_sized_replicate h ((Value.everywhere_document.1 hr.1).2 _ List.mem_cons_self)

theorem not_readable_withId (h : Cbor.maxEntries < n) (fresh : ObjectId) :
    ¬ ((nulls n).withId none fresh).Readable := fun hr =>
  not_sized_replicate h
    ((Value.everywhere_document.1 hr.1).2 ("a", _) (List.mem_cons_of_mem _ List.mem_cons_self))

/-- The bytes: a map with the one name, and in it a byte for each null. -/
theorem encode_nulls (n : Nat) : Cbor.encodeDocument (nulls n) =
    .ok ([0xa1, 0x61, 0x61] ++ (Cbor.head .array n ++ List.replicate n 0xf6)) := by
  have hordered : (Value.document (nulls n)).everywhere Value.ordered = true :=
    Value.everywhere_document.2 ⟨rfl, List.forall_mem_singleton.2 (everywhere_replicate rfl rfl)⟩
  have hnull : ∀ v ∈ List.replicate n Value.null, v.hasNaN = false :=
    Value.hasNaN_array.1 hasNaN_replicate
  have hitems : (List.replicate n Value.null).flatMap (fun v => (Cbor.write v).bytes) =
      List.replicate n 0xf6 := by
    rw [List.flatMap_replicate]
    exact List.flatten_replicate_singleton
  rw [Cbor.encodeDocument, Cbor.encode_eq_ok hasNaN_nulls, Value.canonical_of_ordered hordered,
    nulls, Cbor.write, Cbor.bytes_andThen rfl,
    Cbor.bytes_writeFields (List.forall_mem_singleton.2 hasNaN_replicate), List.flatMap_singleton,
    Cbor.write, Cbor.bytes_andThen rfl, Cbor.bytes_writeItems hnull, List.length_replicate, hitems]
  rfl

/-- It is inserted, whatever its size. -/
theorem run_insert_nulls (n : Nat) (fresh : ObjectId) : ∃ e,
    Cbor.encodeDocument ((nulls n).withId none fresh) = .ok e.bytes ∧
      (perform (.insertOne "" (nulls n) fresh)).run empty =
        (.ok (.id e.id), (empty.tick .insert).setEntries "" [e]) := by
  have hn : (Value.document ((nulls n).withId none fresh)).hasNaN = false :=
    Value.hasNaN_document.2
      (List.forall_mem_cons.2 ⟨rfl, List.forall_mem_singleton.2 hasNaN_replicate⟩)
  have he := Cbor.encode_eq_ok hn
  refine ⟨⟨.objectId fresh, _⟩, he, run_insertOne rfl ?_ rfl⟩
  rw [Stored.ofDocument, id_withId, Cbor.encodeDocument, he]
  rfl

/-- One null more than readers allow: the bytes are written, no reader takes
them, and the head of the array is refused already, where other bytes would be
missing. The document is inserted all the same, and then its collection cannot
be read. -/
theorem oversize_unreadable :
    (∃ rest, Cbor.encodeDocument (nulls 16777217) =
      .ok ([0xa1, 0x61, 0x61, 0x9a, 0x01, 0x00, 0x00, 0x01] ++ rest)) ∧
    (∀ b, Cbor.encodeDocument (nulls 16777217) = .ok b →
      ¬ ∃ back, Cbor.decodeDocument b = .ok back) ∧
    Cbor.decodeDocument [0xa1, 0x61, 0x61, 0x9a, 0x01, 0x00, 0x00, 0x01] =
      .error (.tooLarge 16777217 16777216) ∧
    (∃ id, ((perform (.insertOne "" (nulls 16777217) default)).run empty).1 = .ok (.id id)) ∧
    ¬ ∃ backs,
      (empty.after [.insertOne "" (nulls 16777217) default]).documents "" = .ok backs := by
  have hmax : Cbor.maxEntries < 16777217 := by decide
  let r : Request := .insertOne "" (nulls 16777217) default
  obtain ⟨e, he, hrun⟩ := run_insert_nulls 16777217 default
  refine ⟨⟨_, encode_nulls 16777217⟩, ?_, rfl, ⟨e.id, by rw [hrun]⟩, ?_⟩
  · intro b hb h
    exact not_readable_nulls hmax (((readable_iff _ [] r "").1 b hb).1 h)
  · intro h
    have hmem : e ∈ (empty.after [r]).entries "" := by
      rw [after, hrun, after, entries_setEntries, if_pos rfl]
      exact List.mem_cons_self
    exact not_readable_withId hmax default
      (((readable_iff (nulls 16777217) [] r "").2 ⟨[], rfl⟩).1 h e hmem List.not_mem_nil _ he)

end Store
end Folio
