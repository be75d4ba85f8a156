import Folio.Proofs.Collection.Saving
import Folio.Proofs.Registry.Reread

/-!
# Looking up what was saved

An entity that was saved is looked up by its id. What is found is the entity
with its documents in order.

Results:
* `Alike.storable`, `Alike.tidy_iff`: stamps make no difference to what storing
  loses of an entity, nor to the order in its documents.
* `findById_saved`: what is found under the id is the saved entity, tidied.
-/
namespace Folio

variable {names : Names} {schema : Schema} {e x : Entity}

/-! ## Stamps and documents -/

namespace FieldValue

/-- An id or a time has no parts and is no document. -/
theorem leaf_of_stamp {v : FieldValue} (h : v.type = .objectId ∨ v.type = .dateTime) :
    v.isLeaf = true ∧ ∀ doc, v ≠ document doc := by
  rcases h with h | h <;> cases v <;> cases h
  all_goals exact ⟨rfl, fun _ h => by cases h⟩

/-- Storing loses nothing of it. -/
theorem lossless_of_stamp {v : FieldValue} (h : v.type = .objectId ∨ v.type = .dateTime) :
    v.Lossless schema names := by
  rcases h with h | h <;> cases v <;> cases h
  all_goals trivial

theorem exact_of_stamp {v : FieldValue} (h : v.type = .objectId ∨ v.type = .dateTime)
    (t : ValueType) : v.Exact t := by
  rcases h with h | h <;> cases v <;> cases h
  all_goals cases t <;> trivial

theorem tidy_stamp {v : FieldValue} (h : v.type = .objectId ∨ v.type = .dateTime) : v.tidy = v :=
  tidy_leaf (leaf_of_stamp h).1 (leaf_of_stamp h).2

end FieldValue

namespace Entity

/-- Of entities that differ in their stamps only, both are storable once they are
tidied. -/
theorem Alike.storable (h : e.Alike x) (hx : x.Based)
    (hs : (FieldValue.entity e).tidy.Storable schema names) :
    (FieldValue.entity x).tidy.Storable schema names := by
  rw [FieldValue.tidy_entity] at hs ⊢
  obtain ⟨hclear, hexact⟩ := hs.here
  have htidied : ∀ a ∈ e.attributes, (a.1, a.2.tidy) ∈ e.tidy.attributes :=
    fun a ha => List.mem_map_of_mem (f := fun a : String × FieldValue => (a.1, a.2.tidy)) ha
  refine .of_entity ⟨?_, List.forall_mem_map.2 fun a ha => ?_⟩
    (List.forall_mem_map.2 fun a ha => ?_)
  · rw [show x.tidy.cls = x.cls from rfl, h.cls]
    exact hclear
  · rcases h.mem hx ha with ha | hstamp
    · rw [show x.tidy.descriptor = x.descriptor from rfl, h.descriptor]
      exact hexact _ (htidied a ha)
    · rw [FieldValue.tidy_stamp hstamp]
      exact FieldValue.exact_of_stamp hstamp _
  · rcases h.mem hx ha with ha | hstamp
    · exact hs.property (htidied a ha)
    · rw [FieldValue.tidy_stamp hstamp]
      exact .of_leaf (FieldValue.leaf_of_stamp hstamp).1 (FieldValue.lossless_of_stamp hstamp)

theorem Alike.tidy (h : e.Alike x) (hx : x.Based) (ht : (FieldValue.entity e).Tidy) :
    (FieldValue.entity x).Tidy := by
  refine FieldValue.tidy_entity_iff.2 fun a ha => ?_
  rcases h.mem hx ha with ha | hstamp
  · exact FieldValue.tidy_entity_iff.1 ht a ha
  · exact .of_leaf (FieldValue.leaf_of_stamp hstamp).1 (FieldValue.leaf_of_stamp hstamp).2

/-- The names ascend in the documents of both or of neither. -/
theorem Alike.tidy_iff (h : e.Alike x) (he : e.Based) (hx : x.Based) :
    (FieldValue.entity x).Tidy ↔ (FieldValue.entity e).Tidy :=
  ⟨(h.symm he.sorted).tidy he, h.tidy hx⟩

/-- A reachable entity of a class with a table that keeps the base properties, of
which bytes lose nothing but the order in its documents. -/
structure Rereadable (schema : Schema) (names : Names) (e : Entity) : Prop where
  reachable : e.Reachable schema names.Knows
  keepsBase : schema.KeepsBase e.cls
  entityClass : schema.isEntityClass e.cls = true
  storable : (FieldValue.entity e).tidy.Storable schema names

theorem Rereadable.based (h : e.Rereadable schema names) : e.Based := by
  refine h.reachable.based ?_
  rw [h.reachable.descriptor, Descriptor.cls_ofClass]
  exact h.keepsBase

/-- Stamps change nothing about that. -/
theorem Stamped.rereadable {id : ObjectId} (h : e.Stamped id x) (he : e.Rereadable schema names) :
    x.Rereadable schema names := by
  have hreach := h.reachable schema names.Knows he.reachable
  have hkeeps : schema.KeepsBase x.cls := by
    rw [h.alike.cls]
    exact he.keepsBase
  have hbased : x.Based := by
    refine hreach.based ?_
    rw [hreach.descriptor, Descriptor.cls_ofClass]
    exact hkeeps
  refine ⟨hreach, hkeeps, ?_, h.alike.storable hbased he.storable⟩
  rw [h.alike.cls]
  exact he.entityClass

/-- It can be encoded, and what is read back of its entry is its tidied form. -/
theorem Rereadable.inflate (h : e.Rereadable schema names) :
    ∃ doc, Registry.encodingFields e.attributes = .ok doc ∧
      ∀ entry back, Stored.ofDocument doc = .ok entry → entry.document = .ok back →
        ∀ r, r.Ready schema names → ∃ r',
          (Registry.inflate e.cls back : RegistryM Entity).run r = (.ok e.tidy, r') ∧
            r'.Ready schema names :=
  Registry.inflate_tidy h.reachable h.entityClass h.storable

/-- It equals its tidied form if the names in its documents ascend. -/
theorem Rereadable.same_tidy (h : e.Rereadable schema names) :
    Record.same e.tidy e = true ↔ (FieldValue.entity e).Tidy := by
  have hparts : ∀ n, (FieldValue.entity n).PartOf (.entity e) → n.Reachable schema names.Knows := by
    intro n hp
    cases hp with
    | whole => exact h.reachable
    | property ha hp => exact h.reachable.nested _ ha n hp
  have := FieldValue.tidy_beq_iff hparts rfl h.storable
  rwa [FieldValue.tidy_entity] at this

end Entity

namespace Collection

variable {c : Collection} {b b' : Backend} {ambient : Ambient}

/-- What is written of an entity is an entry of the collection afterwards, and
the store can be reached. -/
theorem Wrote.mem {id : ObjectId} {isNew : Bool} (h : c.Wrote ambient id x b b' isNew)
    (hkey : Keyed.get? Naming.idProperty x.attributes = some (.objectId id))
    (hb : b.registry.BuiltIn) :
    b'.store.unavailable = false ∧ ∃ (doc : Document) (entry : Stored),
      Registry.encodingFields x.attributes = .ok doc ∧ doc.get? idField = some (.objectId id) ∧
      Stored.ofDocument doc = .ok entry ∧ entry ∈ b'.store.entries c.name := by
  refine ⟨by cases h <;> assumption, ?_⟩
  obtain ⟨doc, entry, hdoc, hid, hentry, ⟨-, hchanged⟩ | ⟨-, i, existing, hplace, -, hchanged⟩⟩ :=
    entry_of_wrote hkey hb h
  · refine ⟨doc, entry, hdoc, hid, hentry, ?_⟩
    rw [hchanged.here]
    exact List.mem_append_right _ List.mem_cons_self
  · refine ⟨doc, entry, hdoc, hid, hentry, ?_⟩
    obtain ⟨old, hold, -⟩ := hplace
    rw [hchanged.here]
    exact List.mem_set (List.getElem?_eq_some_iff.1 hold).1 entry

/-- The saved entity is found under its id with its documents in order, where
what is stored can be read and has distinct object ids. -/
theorem findById_saved {id : ObjectId} {isNew : Bool} (hwrote : c.Wrote ambient id x b b' isNew)
    (hkey : Keyed.get? Naming.idProperty x.attributes = some (.objectId id))
    (hb : b.registry.BuiltIn) (hx : x.Rereadable schema names) (hcls : c.cls = x.cls)
    {docs : List Document} {ids : List ObjectId} (hd : b'.store.documents c.name = .ok docs)
    (hids : docs.map (·.get? idField) = ids.map fun id => some (.objectId id)) (hn : ids.Nodup)
    {later : Backend} (hstore : later.store = b'.store)
    (hready : later.registry.Ready schema names) :
    ∃ r, r.Ready schema names ∧
      (c.unscoped.findById (some id) : BackendM (Option Entity)).run later =
        (.ok (some x.tidy), ⟨later.store.tick .find, r⟩) := by
  obtain ⟨havailable, doc, entry, hdoc, hid, hentry, hmem⟩ := hwrote.mem hkey hb
  obtain ⟨_, hdoc', hread⟩ := hx.inflate
  cases hdoc.symm.trans hdoc'
  obtain ⟨back, hback, hdocument⟩ := ok_of_mem_mapM hd hmem
  have hbackId : back.get? idField = some (.objectId id) := by
    obtain ⟨rfl, -, hdistinct⟩ := Stored.document_of_encode (Stored.ofDocument_ok hentry).2 hdocument
    obtain ⟨fields⟩ := doc
    have hnames : (fields.map (·.1)).Nodup :=
      of_decide_eq_true (Value.everywhere_document.1 hdistinct).1
    rw [Value.get?_canonical hnames, hid]
    rfl
  obtain ⟨r, hinflate, hr⟩ := hread entry back hentry hdocument _ hready
  rw [← hcls] at hinflate
  refine ⟨r, hr, run_findById (c := c.unscoped) rfl ?_ ?_ hids hn hback hbackId hinflate⟩
  · rw [hstore]
    exact havailable
  · rw [hstore]
    exact hd

end Collection
end Folio
