import Folio.Proofs.Cbor.RoundTrip
import Folio.Proofs.Collection.Writing
import Folio.Proofs.Registry.Documents
import Folio.Proofs.Registry.Reload
import Folio.Proofs.Store.Identity

/-!
# Saving an entity

With the codecs known here, the entry that is written for an entity holds it:
whoever reads the entry back reads what the entity was encoded as.

Results:
* `holds_of_wrote`: the entry that is written holds the entity.
* `save_atomic`: one entry is new and holds what was saved, or all is as before.
-/
namespace Folio

namespace Registry

/-- There are no suppliers and no key, and what was found are the codecs known
here. -/
abbrev BuiltIn (r : Registry) : Prop := r.Plain fun _ => True

end Registry

theorem Document.get?_first {v : Value} {rest : List (String × Value)} :
    Document.get? ⟨(idField, v) :: rest⟩ idField = some v := by
  rw [Document.get?, Document.lookup, if_pos rfl]

/-- A document with its id first and nowhere else is given the same id. -/
theorem Document.withId_self {v : Value} {rest : List (String × Value)}
    (h : ∀ f ∈ rest, f.1 ≠ idField) {id : Option Value} (hid : id = none ∨ id = some v)
    (fresh : ObjectId) :
    Document.withId ⟨(idField, v) :: rest⟩ id fresh = ⟨(idField, v) :: rest⟩ := by
  have hrest : rest.filter (fun f => f.1 ≠ idField) = rest := by
    refine List.filter_eq_self.2 ?_
    exact fun f hf => decide_eq_true (h f hf)
  rcases hid with rfl | rfl
  · rw [Document.withId, get?_first, List.filter_cons_of_neg (by simp), hrest]
    rfl
  · rw [Document.withId, get?_first, List.filter_cons_of_neg (by simp), hrest]
    rfl

/-- The entry holds the entity: it is made of the canonical form of the document
that every built-in registry encodes the entity as, and reads back as it unless
it is too large to be read. -/
def Stored.Holds (entry : Stored) (e : Entity) : Prop :=
  ∃ doc : Document,
    (∀ r : Registry, r.BuiltIn → ∃ r', (Registry.encodeRecord e).run r = (.ok doc, r')) ∧
    Stored.ofDocument doc.canonical = .ok entry ∧
    ((Value.document doc).everywhere Value.sized = true → entry.document = .ok doc.canonical)

variable {e x : Entity} {b b' : Backend} {c : Collection} {ambient : Ambient}

/-- A document with distinct names and an object id is kept as its canonical
form is. -/
theorem Stored.ofDocument_canonical {doc : Document} (hn : (doc.fields.map (·.1)).Nodup)
    {id : ObjectId} (hid : doc.get? idField = some (.objectId id)) :
    Stored.ofDocument doc.canonical = Stored.ofDocument doc := by
  have hc : doc.canonical.get? idField = some (.objectId id) := by
    rw [Value.get?_canonical hn, hid]
    rfl
  rw [Stored.ofDocument, Stored.ofDocument, hc, hid, Cbor.encodeDocument_canonical]

/-- The entry of an encoded entity holds it. -/
theorem Stored.Holds.of_encoding {doc : Document} {entry : Stored}
    (hx : (FieldValue.entity x).Proper)
    (he : Registry.encodingFields x.attributes = .ok doc) (h : Stored.ofDocument doc = .ok entry)
    {id : ObjectId} (hid : doc.get? idField = some (.objectId id)) : entry.Holds x := by
  have hd := Registry.distinct_encodingFields hx he
  refine ⟨doc, ?_, ?_, ?_⟩
  · intro r hr
    obtain ⟨r', hrun, -⟩ := Registry.gives_encodeFields (fun _ _ _ _ => trivial) r hr
    rw [he] at hrun
    exact ⟨r', hrun⟩
  · obtain ⟨fields⟩ := doc
    have hn : (fields.map (·.1)).Nodup := of_decide_eq_true (Value.everywhere_document.1 hd).1
    rw [ofDocument_canonical hn hid, h]
  · intro hs
    have hbytes := (Stored.ofDocument_ok h).2
    obtain ⟨bytes, he, hread⟩ := Cbor.decode_encode (Cbor.hasNaN_of_encode hbytes)
    rw [Cbor.encodeDocument, he] at hbytes
    cases hbytes
    rw [if_pos (by rw [hs, hd]; rfl)] at hread
    obtain ⟨fields⟩ := doc
    rw [Stored.document, Cbor.decodeDocument, hread]
    rfl

namespace Collection

/-- A document with its id first and nowhere else replaces another as it is, if it
may. -/
theorem eq_of_replacement {rest : List (String × Value)} (h : ∀ f ∈ rest, f.1 ≠ idField)
    {existing next : Document} {id : ObjectId} {fresh : ObjectId}
    (hnext : Store.replacement existing ⟨(idField, .objectId id) :: rest⟩ fresh = .ok next) :
    next = ⟨(idField, .objectId id) :: rest⟩ := by
  rw [Store.replacement, Document.get?_first] at hnext
  cases hold : existing.get? idField with
  | none =>
    simp only [hold, Document.withId_self h (.inl rfl)] at hnext
    exact (Except.ok.inj hnext).symm
  | some old =>
    simp only [hold] at hnext
    split at hnext
    · cases hnext
    · next hsame =>
      have hid : old = .objectId id := by
        cases old with
        | objectId other =>
          have hbeq : (Value.objectId id == .objectId other) = true := by simpa [bne] using hsame
          rw [eq_of_beq (α := ObjectId) hbeq]
        | _ => exact absurd rfl hsame
      rw [hid, Document.withId_self h (.inr rfl)] at hnext
      exact (Except.ok.inj hnext).symm

/-- What is written of a stamped entity is the entry of its own document: the
last one, or one in the place of a document that matches its id. -/
theorem entry_of_wrote {id : ObjectId}
    (hkey : Keyed.get? Naming.idProperty x.attributes = some (.objectId id))
    (hb : b.registry.BuiltIn) {isNew : Bool} (h : c.Wrote ambient id x b b' isNew) :
    ∃ (doc : Document) (entry : Stored), Registry.encodingFields x.attributes = .ok doc ∧
      doc.get? idField = some (.objectId id) ∧ Stored.ofDocument doc = .ok entry ∧
      ((isNew = true ∧ b.store.Changed c.name (b.store.entries c.name ++ [entry]) b'.store) ∨
        isNew = false ∧ ∃ i existing, Stored.At (b.store.entries c.name) i existing ∧
          (Filter.id id).matchesDoc existing = true ∧
          b.store.Changed c.name ((b.store.entries c.name).set i entry) b'.store) := by
  cases h with
  | @inserted doc entry encoded kept changed =>
    have hencoding := Registry.encodingFields_of_run hb encoded
    obtain ⟨rest, rfl, hrest⟩ := Registry.encodingFields_id hkey hencoding
    rw [Document.withId_self hrest (.inl rfl)] at kept
    exact ⟨_, entry, hencoding, Document.get?_first, kept, .inl ⟨rfl, changed⟩⟩
  | @replaced doc existing next i entry encoded place found replacement kept changed =>
    have hencoding := Registry.encodingFields_of_run hb encoded
    obtain ⟨rest, rfl, hrest⟩ := Registry.encodingFields_id hkey hencoding
    rw [eq_of_replacement hrest replacement] at kept
    exact ⟨_, entry, hencoding, Document.get?_first, kept,
      .inr ⟨rfl, i, existing, place, found, changed⟩⟩

/-- It holds the entity, and where the ids are different object ids, its place is
that of the entity's id. -/
theorem holds_of_wrote {id : ObjectId} {docs : List Document} {ids : List ObjectId}
    (hx : (FieldValue.entity x).Proper)
    (hkey : Keyed.get? Naming.idProperty x.attributes = some (.objectId id))
    (hb : b.registry.BuiltIn) (hd : b.store.documents c.name = .ok docs)
    (hids : docs.map (·.get? idField) = ids.map fun id => some (.objectId id)) (hn : ids.Nodup)
    {isNew : Bool} (h : c.Wrote ambient id x b b' isNew) :
    ∃ entry : Stored, entry.Holds x ∧
      ((isNew = true ∧ b.store.Changed c.name (b.store.entries c.name ++ [entry]) b'.store) ∨
        isNew = false ∧ id ∈ ids ∧
          b.store.Changed c.name ((b.store.entries c.name).set (ids.idxOf id) entry) b'.store) := by
  obtain ⟨doc, entry, hencoding, hid, hentry, hchanged⟩ := entry_of_wrote hkey hb h
  refine ⟨entry, .of_encoding hx hencoding hentry hid, ?_⟩
  rcases hchanged with hnew | ⟨hold, i, existing, hplace, hfound, hchanged⟩
  · exact .inl hnew
  · obtain ⟨-, hmem, rfl⟩ := place_of_id hd hids hn hplace hfound
    exact .inr ⟨hold, hmem, hchanged⟩

/-- Saving a reachable entity of a class that keeps the base properties, in
whose documents no two fields have one name, where what is stored can be read
and has distinct object ids: either one entry is new, the last one or the one of
the entity's id, and it holds the entity that is answered and left; or the
entity and the store are as they were. -/
theorem save_atomic {s : Schema} {known : ClassRef → Prop} {docs : List Document}
    {ids : List ObjectId} (hr : e.Reachable s known) (hc : s.KeepsBase e.descriptor.cls)
    (he : ∀ doc, (FieldValue.document doc).PartOf (.entity e) →
      (Value.document doc).everywhere Value.distinct = true)
    (hb : b.registry.BuiltIn) (hd : b.store.documents c.name = .ok docs)
    (hids : docs.map (·.get? idField) = ids.map fun id => some (.objectId id)) (hn : ids.Nodup)
    {newId : Option ObjectId} {result : Except Failure (Option Entity)} {after : Held Entity}
    (hrun : (c.save newId ambient : HeldM Entity (Option Entity)).run ⟨e, b⟩ = (result, after)) :
    (∃ (saved : Entity) (entry : Stored), result = .ok (some saved) ∧ after.record = saved ∧
      entry.Holds saved ∧
        ((Record.id? e = none ∧
            b.store.Changed c.name (b.store.entries c.name ++ [entry]) after.backend.store) ∨
          ∃ id, Record.id? e = some id ∧ id ∈ ids ∧
            b.store.Changed c.name ((b.store.entries c.name).set (ids.idxOf id) entry)
              after.backend.store)) ∨
      (result = .ok none ∨ ∃ failure, result = .error failure) ∧ after.record = e ∧
        b.store.Same after.backend.store := by
  have hproper := FieldValue.proper_of_reachable hr he
  rcases save_outcomes (hr.based hc) hrun with ⟨rfl, hrecord, hwrote⟩ | hbefore
  · have hx := stamped_onSave (hr.based hc) newId ambient
    rw [← hrecord] at hx
    obtain ⟨entry, hholds, hcases⟩ := holds_of_wrote (hx.proper hproper) hx.id hb hd hids hn hwrote
    refine .inl ⟨_, entry, rfl, rfl, hholds, ?_⟩
    cases hid : Record.id? e with
    | none =>
      rw [hid] at hcases
      rcases hcases with ⟨-, hchanged⟩ | ⟨hnew, -⟩
      · exact .inl ⟨rfl, hchanged⟩
      · cases hnew
    | some id =>
      have hidOf : idOf e newId ambient = id := by rw [idOf, hid]; rfl
      rw [hid, hidOf] at hcases
      rcases hcases with ⟨hnew, -⟩ | ⟨-, hmem, hchanged⟩
      · cases hnew
      · exact .inr ⟨id, rfl, hmem, hchanged⟩
  · exact .inr hbefore

/-! ## A saved order -/

open Registry (shop orderRef orderClass order shopNames reachable_order storable_order methods_order)

/-- An order of which nothing but the id is known. -/
def blankOrder (id : ObjectId) : Stored :=
  ⟨.objectId id, (Cbor.encodeDocument (Store.onlyId (.objectId id))).toOption.getD []⟩

theorem document_blankOrder (id : ObjectId) :
    (blankOrder id).document = .ok (Store.onlyId (.objectId id)) := by
  obtain ⟨b, he, -, hb⟩ := Store.kept_onlyId (v := .objectId id) rfl rfl rfl
  rw [blankOrder, (Stored.ofDocument_ok he).2]
  exact hb _

/-- The orders. -/
def orders : Collection := ⟨orderRef, "orders", .plain⟩

/-- A store with two orders. -/
def desk : Backend :=
  ⟨{ collections := [("orders", [blankOrder (.ofParts 5 6), blankOrder (.ofParts 1 2)])] },
    ⟨⟨shop, [], []⟩, none, [], [], 0⟩⟩

/-- A second past the epoch. -/
def early : Ambient := ⟨⟨1000⟩, fun _ => .ofParts 7 7⟩

theorem keepsBase_order : shop.KeepsBase orderRef := by
  have hall : ∀ m ∈ Schema.declared orderClass, ∀ p ∈ Schema.baseProperties,
      ∀ q ∈ m.told?, q.1 ≠ p.1 := by decide +kernel
  intro d hd m hm p hp t ht
  rw [Schema.lineage_of_no_parents (d := orderClass) rfl rfl] at hd
  cases List.mem_singleton.1 hd
  exact hall m hm p hp (p.1, t) ht.told? rfl

theorem ofClass_order : Descriptor.ofClass shop orderRef =
    (Schema.baseMethods ++ orderClass.methods).foldl Descriptor.add (Descriptor.empty orderRef) := by
  rw [Descriptor.ofClass, methods_order]

theorem saved_order : ((orders.save none early : HeldM Entity (Option Entity)).run
    ⟨order, desk⟩).1.toOption.join.isSome = true := by
  rw [order, ofClass_order]
  decide +kernel

/-- The second of two orders is saved, in its place. -/
theorem save_atomic_order :
    ∃ (saved : Entity) (entry : Stored) (after : Held Entity),
      (orders.save none early : HeldM Entity (Option Entity)).run ⟨order, desk⟩ =
        (.ok (some saved), after) ∧ after.record = saved ∧ entry.Holds saved ∧
      after.backend.store.entries "orders" = [blankOrder (.ofParts 5 6), entry] := by
  rcases hrun : (orders.save none early : HeldM Entity (Option Entity)).run ⟨order, desk⟩
    with ⟨result, after⟩
  have hfound := saved_order
  rw [hrun] at hfound
  have hkeeps : shop.KeepsBase order.descriptor.cls := by
    rw [show order.descriptor = Descriptor.ofClass shop orderRef from rfl, Descriptor.cls_ofClass]
    exact keepsBase_order
  have hbuilt : desk.registry.BuiltIn := ⟨rfl, rfl, fun p hp => by cases hp⟩
  have hread : desk.store.documents "orders" =
      .ok [Store.onlyId (.objectId (.ofParts 5 6)), Store.onlyId (.objectId (.ofParts 1 2))] := by
    show [blankOrder _, blankOrder _].mapM Stored.document = _
    simp only [List.mapM_cons, document_blankOrder]
    rfl
  have hproper : ∀ doc, (FieldValue.document doc).PartOf (.entity order) →
      (Value.document doc).everywhere Value.distinct = true :=
    fun doc hd => Value.distinct_of_ordered (storable_order _ hd)
  have hids : [Store.onlyId (.objectId (.ofParts 5 6)), Store.onlyId (.objectId (.ofParts 1 2))].map
      (·.get? idField) =
        [ObjectId.ofParts 5 6, .ofParts 1 2].map fun id => some (.objectId id) := rfl
  rcases save_atomic reachable_order hkeeps hproper hbuilt hread hids (by decide) hrun with
    ⟨saved, entry, rfl, hsaved, hholds, h⟩ | ⟨rfl | ⟨failure, rfl⟩, -⟩
  · refine ⟨saved, entry, after, rfl, hsaved, hholds, ?_⟩
    rcases h with ⟨hid, -⟩ | ⟨id, hid, -, hchanged⟩
    · cases hid
    · cases hid
      exact hchanged.here
  · cases hfound
  · cases hfound

end Collection
end Folio
