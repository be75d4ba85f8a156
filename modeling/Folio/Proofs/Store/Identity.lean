import Folio.Proofs.Cbor.RoundTrip
import Folio.Proofs.Store.Requests
import Folio.Proofs.Value.Equality
import Folio.Proofs.Value.WellNamed

/-!
# Ids of stored documents

An entry has the id that its document was handed in with, and the bytes have
the canonical form of it. The two are the same value for ids whose names
ascend. An id whose names do not is taken for a new one, though a document is
read back with its canonical form.

Results:
* `edit_keeps`: no edit takes from a collection that its ids are different.
* `identified_iff`: the documents of every collection have different ids after
  every run, if and only if the names in all ids handed in ascend.
-/
namespace Folio

/-- The names in the value ascend, unless the value has no byte form that could
be read back. -/
def Value.Steady (v : Value) : Prop :=
  v.hasNaN = false → v.everywhere Value.sized = true → v.everywhere Value.distinct = true →
    v.everywhere Value.ordered = true

theorem Value.steady_scalar {v : Value} (hs : v.isScalar = true) : v.Steady := by
  intro _ _ _
  rw [everywhere_scalar hs]
  cases v <;> first | rfl | cases hs

namespace Stored

/-! ## Entries -/

/-- The entry is the kept form of a document. -/
def Faithful (e : Stored) : Prop :=
  ∃ doc : Document, doc.get? idField = some e.id ∧ Cbor.encodeDocument doc = .ok e.bytes

theorem ofDocument_ok {doc : Document} {e : Stored} (h : ofDocument doc = .ok e) :
    doc.get? idField = some e.id ∧ Cbor.encodeDocument doc = .ok e.bytes := by
  unfold ofDocument at h
  split at h
  · cases h
  · next id hid =>
    split at h
    · next bytes hb =>
      cases h
      exact ⟨hid, hb⟩
    · cases h

/-- What is read back is the canonical form of the document that was kept. -/
theorem document_of_encode {doc back : Document} {e : Stored}
    (he : Cbor.encodeDocument doc = .ok e.bytes) (hb : e.document = .ok back) :
    back = doc.canonical ∧ (Value.document doc).everywhere Value.sized = true ∧
      (Value.document doc).everywhere Value.distinct = true := by
  unfold document Cbor.decodeDocument at hb
  cases hd : Cbor.decode e.bytes with
  | error fault => rw [hd] at hb; cases hb
  | ok w =>
    obtain ⟨rfl, hs, hk⟩ := Cbor.decode_of_encode he hd
    obtain ⟨fields⟩ := doc
    rw [hd, Value.canonical] at hb
    cases hb
    exact ⟨rfl, hs, hk⟩

/-- Each name stands once in what is read back, with the canonical form of its
value. -/
theorem get?_document {doc back : Document} {e : Stored} (h : ofDocument doc = .ok e)
    (hb : e.document = .ok back) :
    (back.fields.map (·.1)).Nodup ∧ ∀ k, back.get? k = (doc.get? k).map Value.canonical := by
  obtain ⟨rfl, -, hn⟩ := document_of_encode (ofDocument_ok h).2 hb
  exact ⟨(Document.wellNamed_iff.1 (Document.WellNamed.canonical hn)).1,
    Value.get?_canonical (Document.wellNamed_iff.1 hn).1⟩

/-- It is read back if its sizes can be read and no name stands twice. -/
theorem document_of_encoded {doc : Document} {e : Stored}
    (he : Cbor.encodeDocument doc = .ok e.bytes)
    (hs : (Value.document doc).everywhere Value.sized = true)
    (hk : (Value.document doc).everywhere Value.distinct = true) : e.document = .ok doc.canonical := by
  obtain ⟨fields⟩ := doc
  obtain ⟨bytes, hbytes, hread⟩ := Cbor.decode_encode (Cbor.hasNaN_of_encode he)
  rw [show Cbor.encode (.document ⟨fields⟩) = .ok e.bytes from he] at hbytes
  cases hbytes
  rw [if_pos (by rw [hs, hk]; rfl)] at hread
  rw [document, Cbor.decodeDocument, hread]
  rfl

/-- The id that is read back is the canonical form of the id that was kept. -/
theorem Faithful.read_id {e : Stored} (hf : e.Faithful) {back : Document}
    (hb : e.document = .ok back) :
    back.get? idField = some e.id.canonical ∧ e.id.hasNaN = false ∧
      e.id.everywhere Value.sized = true ∧ e.id.everywhere Value.distinct = true := by
  obtain ⟨doc, hid, he⟩ := hf
  obtain ⟨rfl, hs, hk⟩ := document_of_encode he hb
  have hn := Cbor.hasNaN_of_encode he
  obtain ⟨fields⟩ := doc
  have hd : (fields.map (·.1)).Nodup := of_decide_eq_true (Value.everywhere_document.1 hk).1
  have hm : (idField, e.id) ∈ fields := (Value.lookup_iff_mem hd).1 hid
  refine ⟨?_, Value.hasNaN_document.1 hn _ hm, (Value.everywhere_document.1 hs).2 _ hm,
    (Value.everywhere_document.1 hk).2 _ hm⟩
  rw [Value.get?_canonical hd, hid]
  rfl

/-- A steady id is read back as it was kept. -/
theorem Faithful.read_steady {e : Stored} (hf : e.Faithful) (hs : e.id.Steady) {back : Document}
    (hb : e.document = .ok back) : back.get? idField = some e.id := by
  obtain ⟨hid, hn, hz, hd⟩ := hf.read_id hb
  rwa [Value.canonical_of_ordered (hs hn hz hd)] at hid

theorem faithful_append {entries : List Stored} (h : ∀ e ∈ entries, e.Faithful) {doc : Document}
    {e : Stored} (he : ofDocument doc = .ok e) : ∀ x ∈ entries ++ [e], x.Faithful := by
  intro x hx
  rcases List.mem_append.1 hx with hx | hx
  · exact h x hx
  · rw [List.mem_singleton.1 hx]
    exact ⟨doc, ofDocument_ok he⟩

theorem faithful_set {entries : List Stored} (h : ∀ e ∈ entries, e.Faithful) {doc : Document}
    {e : Stored} (he : ofDocument doc = .ok e) (i : Nat) : ∀ x ∈ entries.set i e, x.Faithful := by
  intro x hx
  rcases List.mem_or_eq_of_mem_set hx with hx | rfl
  · exact h x hx
  · exact ⟨doc, ofDocument_ok he⟩

/-! ## Collections -/

/-- The ids are steady and different. -/
def Settled (ids : List Value) : Prop :=
  (∀ id ∈ ids, id.Steady) ∧ ids.Pairwise fun a b => (a == b) = false

/-- The entries are kept forms of documents, and their ids steady and
different. -/
def Sound (entries : List Stored) : Prop :=
  (∀ e ∈ entries, e.Faithful) ∧ Settled (entries.map (·.id))

theorem sound_nil : Sound [] := by
  refine ⟨?_, ?_, .nil⟩
  · intro e he
    cases he
  · intro id hid
    cases hid

theorem Sound.sublist {entries others : List Stored} (h : Sound entries)
    (hs : others.Sublist entries) : Sound others := by
  obtain ⟨hf, hsteady, hdiff⟩ := h
  have hm := hs.map (·.id)
  exact ⟨fun e he => hf e (hs.subset he), fun id hid => hsteady id (hm.subset hid), hdiff.sublist hm⟩

theorem Sound.append {entries : List Stored} (h : Sound entries) {doc : Document} {e : Stored}
    (he : ofDocument doc = .ok e) (hs : e.id.Steady)
    (ht : entries.any (·.id == e.id) = false) : Sound (entries ++ [e]) := by
  obtain ⟨hf, hsteady, hdiff⟩ := h
  refine ⟨faithful_append hf he, ?_, ?_⟩
  · rw [List.map_append]
    intro id hid
    rcases List.mem_append.1 hid with hid | hid
    · exact hsteady id hid
    · rw [List.mem_singleton.1 hid]
      exact hs
  · rw [List.map_append]
    refine List.pairwise_append.2 ⟨hdiff, List.pairwise_singleton .., ?_⟩
    intro id hid other ho
    obtain ⟨x, hx, rfl⟩ := List.mem_map.1 hid
    rw [List.mem_singleton.1 ho]
    exact eq_false_of_ne_true fun hxe => by simpa [hxe] using List.any_eq_false.1 ht x hx

/-- An entry in the place of one with the same id changes no id. -/
theorem map_id_set {entries : List Stored} {i : Nat} {old e : Stored} (hi : entries[i]? = some old)
    (hid : e.id = old.id) : (entries.set i e).map (·.id) = entries.map (·.id) := by
  refine List.ext_getElem? fun j => ?_
  rw [List.map_set, List.getElem?_set, hid]
  split
  · next hj =>
    obtain ⟨hlt, rfl⟩ := List.getElem?_eq_some_iff.1 hi
    subst hj
    simp [hlt]
  · rfl

/-- A document in the place of one with the same id changes no id. -/
theorem Sound.set {entries : List Stored} (h : Sound entries) {i : Nat} {doc next : Document}
    {e : Stored} (ha : At entries i doc)
    (hn : ∀ id, doc.get? idField = some id → next.get? idField = some id)
    (he : ofDocument next = .ok e) : Sound (entries.set i e) := by
  obtain ⟨hf, hids⟩ := h
  obtain ⟨old, hi, hd⟩ := ha
  have ho : old ∈ entries := List.mem_of_getElem? hi
  have hsame : e.id = old.id := by
    have hid := (hf old ho).read_steady (hids.1 _ (List.mem_map_of_mem ho)) hd
    have := hn _ hid
    rw [(ofDocument_ok he).1] at this
    exact Option.some.inj this
  refine ⟨faithful_set hf he i, ?_⟩
  rwa [map_id_set hi hsame]

end Stored

namespace Store

/-- Whatever edits a collection, its entries are kept forms of documents. -/
theorem edit_faithful {may : Value → Prop} {entries others : List Stored}
    (he : Edit may entries others) (h : ∀ e ∈ entries, e.Faithful) : ∀ e ∈ others, e.Faithful := by
  cases he with
  | append _ he _ => exact Stored.faithful_append h he
  | overwrite _ _ he => exact Stored.faithful_set h he _
  | remove hsub => exact fun e he => h e (hsub.subset he)

/-- So they are after every run. -/
theorem after_faithful (requests : List Request) (c : String) :
    ∀ e ∈ (empty.after requests).entries c, e.Faithful := by
  have hrun := run_edits requests empty c
  generalize (empty.after requests).entries c = others at hrun
  induction hrun with
  | refl => exact fun e he => by cases he
  | tail _ he ih => exact edit_faithful he ih

/-- No edit takes from a collection that its ids are steady and different. -/
theorem edit_keeps {may : Value → Prop} (hs : ∀ id, may id → id.Steady)
    {entries others : List Stored} (he : Edit may entries others) (h : Stored.Sound entries) :
    Stored.Sound others := by
  cases he with
  | @append doc fresh entry hd he ht =>
    refine h.append he ?_ ht
    have hid := (Stored.ofDocument_ok he).1
    rw [id_withId] at hid
    rw [← Option.some.inj hid]
    cases hown : doc.get? idField with
    | none => exact Value.steady_scalar rfl
    | some id => exact hs id (hd id hown)
  | overwrite ha hn he => exact h.set ha hn he
  | remove hsub => exact h.sublist hsub

/-- The ids stay steady and different through every run. -/
theorem after_keeps {requests : List Request} {s : Store}
    (hs : ∀ r ∈ requests, ∀ id ∈ r.ids, id.Steady) (h : ∀ c, Stored.Sound (s.entries c))
    (c : String) : Stored.Sound ((s.after requests).entries c) := by
  have hsteady : ∀ id, (∃ r ∈ requests, id ∈ r.ids) → id.Steady := by
    rintro id ⟨r, hr, hid⟩
    exact hs r hr id hid
  have hrun := run_edits requests s c
  generalize (s.after requests).entries c = others at hrun ⊢
  induction hrun with
  | refl => exact h c
  | tail _ he ih => exact edit_keeps hsteady he ih

/-! ## Documents -/

/-- Each document has an id, and no two have equal ones. -/
def Identified (docs : List Document) : Prop :=
  ∃ ids : List Value, docs.map (·.get? idField) = ids.map some ∧
    ids.Pairwise fun a b => (a == b) = false

theorem ids_of_documents {entries : List Stored} (h : Stored.Sound entries) {docs : List Document}
    (hd : Stored.documents entries = .ok docs) :
    docs.map (·.get? idField) = (entries.map (·.id)).map some := by
  induction entries generalizing docs with
  | nil => cases hd; rfl
  | cons e rest ih =>
    obtain ⟨doc, others, he, hr, rfl⟩ := ok_of_mapM_cons hd
    have hid := (h.1 e List.mem_cons_self).read_steady (h.2.1 _ List.mem_cons_self) he
    simp only [List.map_cons, hid, ih (h.sublist (List.sublist_cons_self ..)) hr]

theorem identified_of_sound {entries : List Stored} (h : Stored.Sound entries)
    {docs : List Document} (hd : Stored.documents entries = .ok docs) : Identified docs :=
  ⟨_, ids_of_documents h hd, h.2.2⟩

/-! ## Ids whose names do not ascend -/

/-- A document is inserted under an id that no entry has. -/
theorem run_insertOne {s : Store} {c : String} {doc : Document} {fresh : ObjectId} {e : Stored}
    (hu : s.unavailable = false) (he : Stored.ofDocument (doc.withId none fresh) = .ok e)
    (ht : (s.entries c).any (·.id == e.id) = false) :
    (perform (.insertOne c doc fresh)).run s =
      (.ok (.id e.id), (s.tick .insert).setEntries c (s.entries c ++ [e])) := by
  simp only [perform, insertOne, run_map, run_bind, run_begin, hu, run_place, accept_eq, he,
    entries_tick, ht, Bool.false_eq_true, if_false]
  rfl

/-- An update without changes writes a document as it is read. -/
theorem after_updateOne_nil {s : Store} {c : String} {e e' : Stored} {rest : List Stored}
    {doc : Document} (hu : s.unavailable = false) (hs : s.entries c = e :: rest)
    (hd : e.document = .ok doc) (he : Stored.ofDocument doc = .ok e') :
    ((perform (.updateOne c .all [])).run s).2 = (s.tick .update).setEntries c (e' :: rest) := by
  have hf : Stored.first? .all (e :: rest) 0 = .ok (some (0, doc)) := by
    rw [Stored.first?, hd]
    rfl
  have hn : updated [] doc = .ok doc := rfl
  simp only [perform, updateOne, run_map, run_begin, hu, run_bind, run_locate, entries_tick, hs, hf,
    run_lift, hn, run_overwrite, he, Bool.false_eq_true, if_false, run_pure, List.set_cons_zero]

/-- An id without a document: itself and nothing else. -/
def onlyId (v : Value) : Document := ⟨[(idField, v)]⟩

theorem withId_onlyId (v : Value) (fresh : ObjectId) : (onlyId v).withId none fresh = onlyId v := by
  simp [onlyId, Document.withId, Document.get?, Document.lookup]

theorem kept_onlyId {v : Value} (hn : v.hasNaN = false)
    (hs : v.everywhere Value.sized = true) (hd : v.everywhere Value.distinct = true) :
    ∃ b, Stored.ofDocument (onlyId v) = .ok ⟨v, b⟩ ∧
      Stored.ofDocument (onlyId v.canonical) = .ok ⟨v.canonical, b⟩ ∧
      ∀ id, (Stored.mk id b).document = .ok (onlyId v.canonical) := by
  have hc : (Value.document (onlyId v)).canonical = .document (onlyId v.canonical) := rfl
  obtain ⟨b, he, hb⟩ := Cbor.decode_encode (v := .document (onlyId v))
    (Value.hasNaN_document.2 (by simpa [onlyId] using hn))
  have hname : (Bytes.ofText idField).length ≤ Cbor.maxBytes := by decide
  have hsize : (Value.document (onlyId v)).sized = true := by
    simp [onlyId, Value.sized, hname, Cbor.maxEntries]
  have hgood : (Value.document (onlyId v)).everywhere Value.sized = true ∧
      (Value.document (onlyId v)).everywhere Value.distinct = true :=
    ⟨Value.everywhere_document.2 ⟨hsize, by simpa [onlyId] using hs⟩,
      Value.everywhere_document.2 ⟨by simp [Value.distinct], by simpa [onlyId] using hd⟩⟩
  rw [if_pos (by rw [hgood.1, hgood.2]; rfl), hc] at hb
  have he' : Cbor.encodeDocument (onlyId v.canonical) = .ok b := by
    rw [Cbor.encodeDocument, ← hc, Cbor.encode_canonical]
    exact he
  refine ⟨b, ?_, ?_, ?_⟩
  · rw [Stored.ofDocument, show (onlyId v).get? idField = some v from rfl,
      show Cbor.encodeDocument (onlyId v) = .ok b from he]
  · rw [Stored.ofDocument, show (onlyId v.canonical).get? idField = some v.canonical from rfl, he']
  · intro id
    rw [Stored.document, Cbor.decodeDocument, hb]
    rfl

/-- A document whose id has names that do not ascend, inserted, written again
as it is read and inserted once more. -/
def twice (v : Value) (fresh : ObjectId) : List Request :=
  [.insertOne "" (onlyId v) fresh, .updateOne "" .all [], .insertOne "" (onlyId v) fresh]

/-- It is then there two times. -/
theorem after_twice {v : Value} (hn : v.hasNaN = false) (hs : v.everywhere Value.sized = true)
    (hd : v.everywhere Value.distinct = true) (ho : ¬ v.everywhere Value.ordered = true)
    (fresh : ObjectId) : (empty.after (twice v fresh)).documents "" =
      .ok [onlyId v.canonical, onlyId v.canonical] := by
  obtain ⟨b, he, hc, hb⟩ := kept_onlyId hn hs hd
  have hne : (v.canonical == v) = false :=
    eq_false_of_ne_true fun h => ho ((Value.canonical_beq_iff hn hd).1 h)
  have hw : Stored.ofDocument ((onlyId v).withId none fresh) = .ok ⟨v, b⟩ := by
    rw [withId_onlyId, he]
  -- the store before, between and after the last two requests
  let s := (empty.tick .insert).setEntries "" [⟨v, b⟩]
  let t := (s.tick .update).setEntries "" [⟨v.canonical, b⟩]
  have hs : s.entries "" = [⟨v, b⟩] := by simp [s]
  have ht : t.entries "" = [⟨v.canonical, b⟩] := by simp [t]
  have first : ((perform (.insertOne "" (onlyId v) fresh)).run empty).2 = s :=
    congrArg Prod.snd (run_insertOne rfl hw rfl)
  have second : ((perform (.updateOne "" .all [])).run s).2 = t :=
    after_updateOne_nil rfl hs (hb v) hc
  have third : ((perform (.insertOne "" (onlyId v) fresh)).run t).2 =
      (t.tick .insert).setEntries "" (t.entries "" ++ [⟨v, b⟩]) :=
    congrArg Prod.snd (run_insertOne rfl hw (by simp [ht, hne]))
  have docs : [⟨v.canonical, b⟩, ⟨v, b⟩].mapM Stored.document =
      .ok [onlyId v.canonical, onlyId v.canonical] := by
    simp only [List.mapM_cons, hb]
    rfl
  rw [twice, after, first, after, second, after, third, after, documents, entries_setEntries,
    if_pos rfl, ht]
  exact docs

theorem not_identified_twice {v : Value} (hn : v.hasNaN = false) :
    ¬ Identified [onlyId v, onlyId v] := by
  rintro ⟨ids, hids, hdiff⟩
  have : ids = [v, v] := by
    have hmap : [v, v].map some = ids.map some := hids
    exact ((List.map_inj_right fun _ _ => Option.some.inj).1 hmap).symm
  subst this
  have := Value.beq_self hn
  simp_all

/-- The documents of every collection have different ids after every run of
requests on an empty store, if and only if the names in all ids handed in
ascend, but for ids that could not be read back. -/
theorem identified_iff (allowed : Value → Prop) :
    (∀ requests : List Request, (∀ r ∈ requests, ∀ id ∈ r.ids, allowed id) →
      ∀ c docs, (empty.after requests).documents c = .ok docs → Identified docs) ↔
    ∀ id, allowed id → id.Steady := by
  constructor
  · intro h id ha hn hs hd
    refine Decidable.byContradiction fun ho => ?_
    have hdocs := after_twice hn hs hd ho default
    refine not_identified_twice (Value.hasNaN_canonical.2 hn) (h (twice id default) ?_ "" _ hdocs)
    intro r hr w hw
    have hone : (onlyId id).get? idField = some id := by
      rw [onlyId, Document.get?, Document.lookup, if_pos rfl]
    simp only [twice, List.mem_cons, List.not_mem_nil, or_false] at hr
    rcases hr with rfl | rfl | rfl
    · simp only [Request.ids, hone, Option.mem_toList, Option.some.injEq] at hw
      exact hw ▸ ha
    · cases hw
    · simp only [Request.ids, hone, Option.mem_toList, Option.some.injEq] at hw
      exact hw ▸ ha
  · intro hs requests hr c docs hdocs
    refine identified_of_sound (after_keeps (s := empty) ?_ ?_ c) hdocs
    · exact fun r hm id hid => hs id (hr r hm id hid)
    · exact fun _ => Stored.sound_nil

end Store
end Folio
