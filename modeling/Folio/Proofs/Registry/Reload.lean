import Mathlib.Data.List.Perm.Basic
import Folio.Proofs.Cbor.RoundTrip
import Folio.Proofs.Registry.Decoding

/-!
# Storing and reading back

A storable entity is encoded as a document, the document as bytes, the bytes
are read as the canonical document, and that is decoded as the entity. The
encoding goes by the type that a value has and the decoding by the type that
is declared, so the induction is on the value and holds for every declared
type that keeps it.

Results:
* `reload`: what a storable value is encoded as is decoded as the value.
* `inflate_encodeRecord`: a reachable entity that is storable is read back.
-/
namespace Folio

variable {names : Names} {s : Schema}

namespace Registry

/-! ## Encodings of containers -/

/-- The encoding of a value that has one. -/
def stored (v : FieldValue) : Value :=
  match encoding v with
  | .ok w => w
  | .error _ => .null

theorem encodingItems_map {items : List FieldValue} (h : ∀ v ∈ items, encoding v = .ok (stored v)) :
    encodingItems items = .ok (items.map stored) := by
  induction items with
  | nil => rfl
  | cons v rest ih =>
    rw [encodingItems, h v List.mem_cons_self, ih fun w hw => h w (List.mem_cons_of_mem v hw)]
    rfl

theorem encoding_list {items : List FieldValue} (h : ∀ v ∈ items, encoding v = .ok (stored v)) :
    encoding (.list items) = .ok (.array (items.map stored)) := by
  rw [encoding, encodingItems_map h]
  rfl

theorem encodingRest_filter {attributes : Fields}
    (h : ∀ a ∈ attributes, encoding a.2 = .ok (stored a.2)) :
    encodingRest attributes = .ok ((attributes.filter fun a => !decide (a.1 = Naming.idProperty)).map
      fun a => (a.1, stored a.2)) := by
  induction attributes with
  | nil => rfl
  | cons a rest ih =>
    obtain ⟨k, v⟩ := a
    have hrest := ih fun b hb => h b (List.mem_cons_of_mem _ hb)
    rw [encodingRest]
    by_cases hk : k = Naming.idProperty
    · rw [if_pos hk, hrest, List.filter_cons_of_neg (by simp [hk])]
    · rw [if_neg hk, h (k, v) List.mem_cons_self, hrest, List.filter_cons_of_pos (by simp [hk])]
      rfl

theorem encodingId_filter {attributes : Fields} (hn : (attributes.map (·.1)).Nodup)
    (h : ∀ a ∈ attributes, encoding a.2 = .ok (stored a.2)) :
    encodingId attributes = .ok ((attributes.filter fun a => decide (a.1 = Naming.idProperty)).map
      fun a => (a.1, stored a.2)) := by
  induction attributes with
  | nil => rfl
  | cons a rest ih =>
    obtain ⟨k, v⟩ := a
    obtain ⟨hout, hn⟩ := List.nodup_cons.1 hn
    rw [encodingId]
    by_cases hk : k = Naming.idProperty
    · have hnone : rest.filter (fun a => decide (a.1 = Naming.idProperty)) = [] := by
        refine List.filter_eq_nil_iff.2 ?_
        intro b hb heq
        exact hout (List.mem_map.2 ⟨b, hb, (of_decide_eq_true heq).trans hk.symm⟩)
      rw [if_pos hk, h (k, v) List.mem_cons_self, List.filter_cons_of_pos (by simp [hk]), hnone]
      rfl
    · rw [if_neg hk, List.filter_cons_of_neg (by simp [hk])]
      exact ih hn fun b hb => h b (List.mem_cons_of_mem _ hb)

/-- The document of properties has one field for each, in some order. -/
theorem encodingFields_perm {attributes : Fields} (hn : (attributes.map (·.1)).Nodup)
    (h : ∀ a ∈ attributes, encoding a.2 = .ok (stored a.2)) :
    ∃ fields, encodingFields attributes = .ok ⟨fields⟩ ∧
      fields.Perm (attributes.map fun a => (a.1, stored a.2)) := by
  rw [encodingFields, encodingId_filter hn h, encodingRest_filter h]
  refine ⟨_, rfl, ?_⟩
  rw [← List.map_append]
  exact (List.filter_append_perm _ attributes).map _

/-- So its canonical form has one field for each property, in some order. -/
theorem canonical_perm {fields : List (String × Value)} {attributes : Fields}
    (h : fields.Perm (attributes.map fun a => (a.1, stored a.2))) :
    ∃ as : Fields, as.Perm attributes ∧ (Value.document ⟨fields⟩).canonical =
      .document ⟨as.map fun a => (a.1, (stored a.2).canonical)⟩ := by
  have hcanonical : (Value.arrange (fields.map fun f => (f.1, f.2.canonical))).Perm
      (attributes.map fun a => (a.1, (stored a.2).canonical)) := by
    refine (Value.arrange_perm _).trans ?_
    have := h.map fun f : String × Value => (f.1, f.2.canonical)
    rwa [List.map_map] at this
  rw [Value.canonical_document]
  have hcomp := List.eq_map_comp_perm fun a : String × FieldValue => (a.1, (stored a.2).canonical)
  obtain ⟨as, heq, hp⟩ := (congrFun (congrFun hcomp _) _).mpr hcanonical
  exact ⟨as, hp, by rw [heq]⟩

/-! ## Values -/

/-- The value has an encoding that can be written and read, and its canonical
form is decoded as the value, as the declared type and with fuel for its depth. -/
structure Reloads (s : Schema) (names : Names) (t : ValueType) (v : FieldValue) : Prop where
  encoded : encoding v = .ok (stored v)
  number : (stored v).hasNaN = false
  distinct : (stored v).everywhere Value.distinct = true
  decoded : ∀ fuel, 2 * (stored v).canonical.depth ≤ fuel →
    Decoder.Decodes s names (Decoder.value fuel t) (stored v).canonical (some v)

theorem stored_eq {v : FieldValue} {w : Value} (h : encoding v = .ok w) : stored v = w := by
  rw [stored, h]

theorem Reloads.of_encoding {t : ValueType} {v : FieldValue} {w : Value} (he : encoding v = .ok w)
    (hn : w.hasNaN = false) (hd : w.everywhere Value.distinct = true)
    (hdecoded : ∀ fuel, 2 * w.canonical.depth ≤ fuel →
      Decoder.Decodes s names (Decoder.value fuel t) w.canonical (some v)) :
    Reloads s names t v := by
  have hw := stored_eq he
  subst hw
  exact ⟨he, hn, hd, hdecoded⟩

/-- Every leaf but those from outside has an encoding, without NaN if it has none. -/
theorem encodingLeaf_number {v : FieldValue} (hl : v.isLeaf = true) (hforeign : ∀ g, v ≠ .foreign g)
    (hn : v.hasNaN = false) : ∃ w, encodingLeaf v = .ok w ∧ w.hasNaN = false := by
  cases v with
  | list items => cases hl
  | entity e => cases hl
  | foreign g => exact absurd rfl (hforeign g)
  | float x => exact ⟨_, storable_ok.2 ⟨Number.isNaN_toDouble hn, rfl⟩, Number.isNaN_toDouble hn⟩
  | double x => exact ⟨_, storable_ok.2 ⟨hn, rfl⟩, hn⟩
  | document doc =>
    obtain ⟨fields⟩ := doc
    exact ⟨.document ⟨fields⟩, rfl, hn⟩
  | _ => exact ⟨_, rfl, rfl⟩

/-- Every leaf that storing loses nothing of has an encoding. -/
theorem encodingLeaf_ok {v : FieldValue} (hl : v.isLeaf = true) (hv : v.Lossless s names)
    (hn : v.hasNaN = false) :
    ∃ w, encodingLeaf v = .ok w ∧ w.hasNaN = false ∧ w.everywhere Value.distinct = true := by
  obtain ⟨w, hw, hnumber⟩ := encodingLeaf_number hl (fun g h => by rw [h] at hv; exact hv) hn
  refine ⟨w, hw, hnumber, ?_⟩
  cases v with
  | list items => cases hl
  | entity e => cases hl
  | foreign f => exact hv.elim
  | float x => rw [(storable_ok.1 hw).2]; rfl
  | double x => rw [(storable_ok.1 hw).2]; rfl
  | document doc =>
    obtain ⟨fields⟩ := doc
    cases hw
    exact Value.distinct_of_ordered hv
  | _ =>
    cases hw
    rfl

theorem reloads_leaf {t : ValueType} (ht : t.Named names) {v : FieldValue} (hl : v.isLeaf = true)
    (hv : v.Lossless s names) (hk : v.Kept s t) : Reloads s names t v := by
  obtain ⟨w, hw, hn, hd⟩ := encodingLeaf_ok hl hv hk.number
  refine .of_encoding ((encoding_leaf hl).trans hw) hn hd ?_
  intro fuel hf
  have := Value.depth_pos w.canonical
  obtain ⟨fuel, rfl⟩ : ∃ k, fuel = k + 2 := ⟨fuel - 2, by omega⟩
  rw [Decoder.canonical_leaf hv hw]
  exact Decoder.decodes_leaf ht hl hv hk hw

/-- A list fits lists and any only. -/
theorem fits_of_list {t : ValueType} {items : List FieldValue}
    (h : (FieldValue.list items).fits s t = true) : t = .any ∨ ∃ u, t = .list u := by
  cases t with
  | any => exact .inl rfl
  | list u => exact .inr ⟨u, rfl⟩
  | _ => simp only [FieldValue.fits] at h; cases h

/-- An entity that a property keeps is of a declared class. -/
theorem class_of_kept {t : ValueType} {e : Entity} (h : (FieldValue.entity e).Kept s t) :
    ∃ c, t = .entity c := by
  have hf := h.fits
  cases t with
  | entity c => exact ⟨c, rfl⟩
  | any => cases h.stored
  | _ => simp only [FieldValue.fits] at hf; cases hf

/-- A list of values that can be read back can be encoded. -/
theorem stored_list {u : ValueType} {items : List FieldValue}
    (h : ∀ v ∈ items, Reloads s names u v) :
    encoding (.list items) = .ok (.array (items.map stored)) ∧
      (Value.array (items.map stored)).hasNaN = false ∧
      (Value.array (items.map stored)).everywhere Value.distinct = true := by
  refine ⟨encoding_list fun v hv => (h v hv).encoded, Value.hasNaN_array.2 ?_,
    Value.everywhere_array.2 ⟨rfl, ?_⟩⟩
  · intro w hw
    obtain ⟨v, hv, rfl⟩ := List.mem_map.1 hw
    exact (h v hv).number
  · intro w hw
    obtain ⟨v, hv, rfl⟩ := List.mem_map.1 hw
    exact (h v hv).distinct

theorem canonical_list (items : List FieldValue) :
    (Value.array (items.map stored)).canonical =
      .array (items.map fun v => (stored v).canonical) := by
  rw [Value.canonical_array, List.map_map]
  rfl

/-- Items of a declared type are read back as a list of that type. -/
theorem decodes_items {u : ValueType} (hu : u.Named names) {items : List FieldValue}
    (h : ∀ v ∈ items, Reloads s names u v) {fuel : Nat}
    (hf : (Value.array (items.map fun v => (stored v).canonical)).depth * 2 ≤ fuel + 2) :
    Decoder.Decodes s names (Decoder.value (fuel + 1) (.list u))
      (.array (items.map fun v => (stored v).canonical)) (some (.list items)) := by
  refine Decoder.decodes_list hu fun v hv => (h v hv).decoded fuel ?_
  have := Value.depth_le_items (List.mem_map_of_mem (f := fun v => (stored v).canonical) hv)
  rw [Value.depth] at hf
  omega

theorem reloads_list {u : ValueType} (hu : u.Named names) {items : List FieldValue}
    (h : ∀ v ∈ items, Reloads s names u v) : Reloads s names (.list u) (.list items) := by
  obtain ⟨he, hn, hd⟩ := stored_list h
  refine .of_encoding he hn hd ?_
  rw [canonical_list]
  intro fuel hf
  have := Value.depth_pos (.array (items.map fun v => (stored v).canonical))
  obtain ⟨fuel, rfl⟩ : ∃ k, fuel = k + 1 := ⟨fuel - 1, by omega⟩
  exact decodes_items hu h (by omega)

theorem reloads_list_any {items : List FieldValue} (h : ∀ v ∈ items, Reloads s names .any v) :
    Reloads s names .any (.list items) := by
  obtain ⟨he, hn, hd⟩ := stored_list h
  refine .of_encoding he hn hd ?_
  rw [canonical_list]
  intro fuel hf
  have := Value.depth_pos (.array (items.map fun v => (stored v).canonical))
  obtain ⟨fuel, rfl⟩ : ∃ k, fuel = k + 2 := ⟨fuel - 2, by omega⟩
  exact Decoder.decodes_any_array (decodes_items (u := .any) trivial h (by omega))

/-- The properties of a reachable entity can be encoded if each can be read
back, and the canonical document has them in some order. -/
theorem stored_entity {e : Entity} (hsorted : Keyed.Sorted e.attributes)
    (h : ∀ a ∈ e.attributes, Reloads s names (e.descriptor.typeOf a.1) a.2) :
    ∃ fields as, encodingFields e.attributes = .ok ⟨fields⟩ ∧
      (Value.document ⟨fields⟩).hasNaN = false ∧
      (Value.document ⟨fields⟩).everywhere Value.distinct = true ∧
      List.Perm as e.attributes ∧ (Value.document ⟨fields⟩).canonical =
        .document ⟨as.map fun a => (a.1, (stored a.2).canonical)⟩ := by
  obtain ⟨fields, he, hp⟩ := encodingFields_perm hsorted.nodup fun a ha => (h a ha).encoded
  obtain ⟨as, has, hcanonical⟩ := canonical_perm hp
  have hfield : ∀ f ∈ fields, ∃ a ∈ e.attributes, f = (a.1, stored a.2) := by
    intro f hf
    obtain ⟨a, ha, rfl⟩ := List.mem_map.1 (hp.mem_iff.1 hf)
    exact ⟨a, ha, rfl⟩
  have hnames : (fields.map (·.1)).Nodup := by
    refine (hp.map _).nodup_iff.2 ?_
    rw [List.map_map]
    exact hsorted.nodup
  refine ⟨fields, as, he, Value.hasNaN_document.2 ?_, Value.everywhere_document.2 ⟨?_, ?_⟩, has,
    hcanonical⟩
  · intro f hf
    obtain ⟨a, ha, rfl⟩ := hfield f hf
    exact (h a ha).number
  · exact decide_eq_true hnames
  · intro f hf
    obtain ⟨a, ha, rfl⟩ := hfield f hf
    exact (h a ha).distinct

theorem reloads_entity {e : Entity} (hr : e.Reachable s names.Knows) (hc : s.Clear names e.cls)
    (h : ∀ a ∈ e.attributes, Reloads s names (e.descriptor.typeOf a.1) a.2) :
    Reloads s names (.entity e.cls) (.entity e) := by
  obtain ⟨fields, as, he, hn, hd, has, hcanonical⟩ := stored_entity hr.sound.sorted h
  refine .of_encoding (by rw [encoding_entity, he]; rfl) hn hd ?_
  rw [hcanonical]
  intro fuel hf
  have := Value.depth_pos (.document ⟨as.map fun a => (a.1, (stored a.2).canonical)⟩)
  obtain ⟨fuel, rfl⟩ : ∃ k, fuel = k + 1 := ⟨fuel - 1, by omega⟩
  rw [Decoder.value]
  refine Decoder.decodes_entity (f := fun v => (stored v).canonical) hr hc has ?_
  intro a ha
  refine (h a ha).decoded fuel ?_
  have hm := List.mem_map_of_mem (f := fun a : String × FieldValue => (a.1, (stored a.2).canonical))
    (has.mem_iff.2 ha)
  have : (stored a.2).canonical.depth ≤ _ := Value.depth_le_fields hm
  rw [Value.depth] at hf
  omega

/-- A storable value of reachable entities is read back as any declared type
that keeps it and names the classes of its entities. -/
theorem reload {v : FieldValue} (hs : v.Storable s names)
    (hr : ∀ n, (FieldValue.entity n).PartOf v → n.Reachable s names.Knows) {t : ValueType}
    (ht : t.Named names) (hk : v.Kept s t) (he : v.Exact t) : Reloads s names t v := by
  induction v using FieldValue.tree generalizing t with
  | leaf v hl => exact reloads_leaf ht hl hs.here hk
  | list items ih =>
    have reach : ∀ v ∈ items, ∀ n, (FieldValue.entity n).PartOf v → n.Reachable s names.Knows :=
      fun v hv n hp => hr n (.item hv hp)
    have number := FieldValue.hasNaN_list.1 hk.number
    rcases fits_of_list hk.fits with rfl | ⟨u, rfl⟩
    · obtain ⟨ws, hws, heq⟩ := FieldValue.untyped_list.1 hk.stored
      cases heq
      refine reloads_list_any fun v hv => ih v hv (hs.item hv) (reach v hv) trivial ?_ ?_
      · exact ⟨by cases v <;> rfl, number v hv, FieldValue.self_of_mapM hws v hv⟩
      · cases v <;> trivial
    · obtain ⟨ws, hws, heq⟩ := FieldValue.storedForm_list.1 hk.stored
      cases heq
      refine reloads_list (u := u) ht fun v hv =>
        ih v hv (hs.item hv) (reach v hv) (t := u) ht ?_ (he v hv)
      exact ⟨FieldValue.fits_list.1 hk.fits v hv, number v hv, FieldValue.self_of_mapM hws v hv⟩
  | entity e ih =>
    obtain ⟨c, rfl⟩ := class_of_kept hk
    cases (show e.cls = c from he)
    have hreach := hr e (.whole _)
    obtain ⟨hc, hexact⟩ := hs.here
    refine reloads_entity hreach hc fun a ha => ?_
    refine ih a ha (hs.property ha) (fun n hp => hr n (.property ha hp)) ?_
      (hreach.kept_typeOf hc ha) (hexact a ha)
    rw [hreach.descriptor]
    exact Descriptor.named_typeOf hc a.1

/-! ## Records -/

/-- A record of a class with a table is made again of its properties. -/
theorem run_create {e : Entity} (hr : e.Reachable s names.Knows) (hc : s.Clear names e.cls)
    (hclass : s.isEntityClass e.cls = true) {k : Catalog} (hk : k.Genuine s names.Knows) :
    ∃ k', (Record.create e.cls (some e.attributes) : CatalogM Entity).run k = (.ok e, k') ∧
      k'.Genuine s names.Knows := by
  obtain ⟨k', hrun, hk'⟩ := hr.run_instantiate hc hk
  refine ⟨k', ?_, hk'⟩
  have hinstantiate : (Record.instantiate e.cls (some e.attributes) : CatalogM Entity).run k =
      (.ok e, k') := hrun
  simp only [Record.create, run_bind, run_get, hk.schema, hclass]
  rw [show (!true) = false from rfl, if_neg Bool.false_ne_true]
  rw [run_tryCatch, hinstantiate]

/-- The properties of an entity are decoded from its document, with fuel for
the depth of each. -/
theorem decodes_properties {e : Entity} (hr : e.Reachable s names.Knows) (hc : s.Clear names e.cls)
    {as : Fields} (has : as.Perm e.attributes)
    (h : ∀ a ∈ e.attributes, Reloads s names (e.descriptor.typeOf a.1) a.2) {fuel : Nat}
    (hf : 2 * Value.depthFields (as.map fun a => (a.1, (stored a.2).canonical)) ≤ fuel) :
    Decoder.Decodes s names (Decoder.fields (Decoder.value fuel) e.cls)
      (.document ⟨as.map fun a => (a.1, (stored a.2).canonical)⟩) e.attributes := by
  have hall : ∀ a ∈ as, Decoder.Decodes s names
      (Decoder.value fuel ((Descriptor.ofClass s e.cls).typeOf a.1)) (stored a.2).canonical
      (some a.2) := by
    intro a ha
    rw [← hr.descriptor]
    refine (h a (has.mem_iff.1 ha)).decoded fuel ?_
    have hm := List.mem_map_of_mem (f := fun a : String × FieldValue => (a.1, (stored a.2).canonical)) ha
    have : (stored a.2).canonical.depth ≤ _ := Value.depth_le_fields hm
    omega
  have := Decoder.decodes_fields (f := fun v => (stored v).canonical) hc.known hall
  rwa [Keyed.ofList_of_perm has hr.sound.sorted] at this

theorem fuel_le (fields : List (String × Value)) :
    2 * Value.depthFields fields ≤ Decoder.fuel (Reader.ofDocument ⟨fields⟩) := by
  have : (Reader.ofDocument ⟨fields⟩).depth = max (Value.depthFields fields + 1) 0 := rfl
  rw [Decoder.fuel, this]
  omega

theorem run_decoding {α : Type} {step : Decoder.Step α} {r r' : Registry} {doc : Document}
    {rd : Reader} {a : α} (h : step.run ⟨r, ⟨[], some (.document doc)⟩⟩ = (.ok a, ⟨r', rd⟩)) :
    (decoding (Reader.ofDocument doc) step).run r = (.ok a, r') := by
  show ((step.run ⟨r, Reader.ofDocument doc⟩).1, (step.run ⟨r, Reader.ofDocument doc⟩).2.registry) = _
  rw [Reader.ofDocument, h]

/-- A storable entity that is reachable in a class with a table is encoded,
whatever the registry has found before, and if its document has sizes that are
allowed, then the bytes of the document are read back and decoded as the
entity. -/
theorem inflate_encodeRecord {e : Entity} (hr : e.Reachable s names.Knows)
    (hclass : s.isEntityClass e.cls = true) (hs : (FieldValue.entity e).Storable s names) :
    ∃ doc,
      (∀ r, r.Ready s names → ∃ r', (encodeRecord e).run r = (.ok doc, r') ∧ r'.Ready s names) ∧
      ((Value.document doc).everywhere Value.sized = true →
        ∃ bytes back, Cbor.encodeDocument doc = .ok bytes ∧ Cbor.decodeDocument bytes = .ok back ∧
          ∀ r, r.Ready s names → ∃ r',
            (inflate e.cls back : RegistryM Entity).run r = (.ok e, r') ∧ r'.Ready s names) := by
  obtain ⟨hc, hexact⟩ := hs.here
  have reloads : ∀ a ∈ e.attributes, Reloads s names (e.descriptor.typeOf a.1) a.2 := by
    intro a ha
    refine reload (hs.property ha) (hr.nested a ha) ?_ (hr.kept_typeOf hc ha) (hexact a ha)
    rw [hr.descriptor]
    exact Descriptor.named_typeOf hc a.1
  obtain ⟨fields, as, he, hn, hd, has, hcanonical⟩ := stored_entity hr.sound.sorted reloads
  refine ⟨⟨fields⟩, ?_, ?_⟩
  · intro r hready
    have named : ∀ a ∈ e.attributes, ∀ x : FieldValue, x.PartOf a.2 → x.type.Named names :=
      fun a ha x hx => (hs x (.property ha hx)).named
    obtain ⟨r', hrun, hplain, hcatalog⟩ := gives_encodeFields named r hready.plain
    rw [he] at hrun
    exact ⟨r', hrun, hplain, by rw [hcatalog]; exact hready.catalog⟩
  · intro hsized
    obtain ⟨bytes, hbytes, hback⟩ := Cbor.decode_encode hn
    rw [if_pos (by rw [hsized, hd]; rfl), hcanonical] at hback
    refine ⟨bytes, _, hbytes, by rw [Cbor.decodeDocument, hback]; rfl, ?_⟩
    intro r hready
    obtain ⟨r', hrun, hready'⟩ := decodes_properties hr hc has reloads
      (fuel_le _) r _ _ hready (.current [])
    obtain ⟨k, hcreate, hk⟩ := run_create hr hc hclass hready'.catalog
    refine ⟨_, ?_, Decoder.ready_catalog hready' hk⟩
    rw [inflate, run_bind_ok (run_decoding hrun), Decoder.run_withCatalog hcreate]


/-! ## An order and its lines -/

/-- A line of an order. -/
def lineClass : EntityClass :=
  { name := "shop::Line", form := .trait
    methods := [.getter "getCount" (.primitive .int), .setter "setCount" (.primitive .int)] }

/-- The reference to the class of lines. -/
def lineRef : ClassRef := ⟨0, "shop::Line"⟩

/-- How far an order has come. -/
def stateEnum : EnumClass := ⟨"shop::State", ["open", "sent"]⟩

/-- An order with its lines and its state. -/
def orderClass : EntityClass :=
  { name := "shop::Order", form := .trait, table := some "orders"
    methods := [.setter "setLines" (.list (.entity lineRef)), .setter "setState" (.enum stateEnum)] }

/-- The reference to the class of orders. -/
def orderRef : ClassRef := ⟨1, "shop::Order"⟩

/-- The two classes. -/
def shop : Schema := ⟨[lineClass, orderClass]⟩

/-- What the names of the shop stand for. -/
def shopNames : Names := ⟨fun n => if n = "shop::Line" then lineRef else orderRef, fun _ => stateEnum⟩

/-- Three of something. -/
def line : Entity := ⟨lineRef, Descriptor.ofClass shop lineRef, [("count", .int 3)]⟩

/-- An order that was sent. -/
def order : Entity :=
  ⟨orderRef, Descriptor.ofClass shop orderRef, [("_id", .objectId (.ofParts 1 2)),
    ("lines", .list [.entity line]), ("state", .enum ⟨stateEnum, 1⟩)]⟩

theorem methods_line : shop.allMethods lineRef = Schema.baseMethods ++ lineClass.methods := by
  rw [Schema.allMethods, Schema.lineage_of_no_parents (d := lineClass) rfl rfl]
  decide

theorem methods_order : shop.allMethods orderRef = Schema.baseMethods ++ orderClass.methods := by
  rw [Schema.allMethods, Schema.lineage_of_no_parents (d := orderClass) rfl rfl]
  decide

theorem clear_line : shop.Clear shopNames lineRef := by
  refine Schema.clear_of_tellings rfl ?_ ?_ <;> rw [Schema.tellings, methods_line]
  · decide
  · decide +kernel

theorem clear_order : shop.Clear shopNames orderRef := by
  refine Schema.clear_of_tellings rfl ?_ ?_ <;> rw [Schema.tellings, methods_order]
  · decide
  · decide +kernel


theorem types_line : (Descriptor.ofClass shop lineRef).typeOf "count" = .primitive .int ∧
    (Descriptor.ofClass shop lineRef).defaults = [("count", .int)] := by
  rw [Descriptor.ofClass, methods_line]
  decide +kernel

theorem types_order : (Descriptor.ofClass shop orderRef).typeOf "_id" = .objectId ∧
    (Descriptor.ofClass shop orderRef).typeOf "lines" = .list (.entity lineRef) ∧
    (Descriptor.ofClass shop orderRef).typeOf "state" = .enum stateEnum ∧
    (Descriptor.ofClass shop orderRef).defaults = [] := by
  rw [Descriptor.ofClass, methods_order]
  decide +kernel

theorem isA_line : shop.isA lineRef lineRef = true := by
  rw [Schema.isA, Schema.lineage_of_no_parents (d := lineClass) rfl rfl]
  decide

theorem reachable_line : line.Reachable shop shopNames.Knows := by
  refine .of_kept rfl ⟨lineClass, rfl, rfl⟩ (List.pairwise_singleton ..) ?_ ?_ ?_
  · intro a ha
    rw [List.mem_singleton.1 ha, types_line.1]
    exact ⟨rfl, rfl, rfl⟩
  · rw [types_line.2]
    decide
  · intro a ha n hp
    rw [List.mem_singleton.1 ha] at hp
    cases FieldValue.eq_of_partOf_leaf rfl hp

theorem storable_line : (FieldValue.entity line).Storable shop shopNames := by
  refine .of_entity ⟨clear_line, ?_⟩ ?_
  · intro a ha
    rw [List.mem_singleton.1 ha]
    show (FieldValue.int 3).Exact ((Descriptor.ofClass shop lineRef).typeOf "count")
    rw [types_line.1]
    trivial
  · intro a ha
    rw [List.mem_singleton.1 ha]
    exact .of_leaf rfl trivial

theorem reachable_order : order.Reachable shop shopNames.Knows := by
  obtain ⟨hid, hlines, hstate, hdefaults⟩ := types_order
  refine .of_kept rfl ⟨orderClass, rfl, rfl⟩ (by decide) ?_ ?_ ?_
  · intro a ha
    simp only [List.mem_cons, List.not_mem_nil, or_false] at ha
    rcases ha with rfl | rfl | rfl
    · rw [hid]
      exact ⟨rfl, rfl, rfl⟩
    · rw [hlines]
      refine ⟨?_, rfl, rfl⟩
      simp only [FieldValue.fits, FieldValue.list?, List.all_cons, List.all_nil, Bool.and_true]
      exact isA_line
    · rw [hstate]
      exact ⟨rfl, rfl, rfl⟩
  · rw [hdefaults]
    exact fun p hp => by cases hp
  · intro a ha n hp
    simp only [List.mem_cons, List.not_mem_nil, or_false] at ha
    rcases ha with rfl | rfl | rfl
    · cases FieldValue.eq_of_partOf_leaf rfl hp
    · cases hp with
      | item hv hp =>
        rw [List.mem_singleton.1 hv] at hp
        cases hp with
        | whole => exact reachable_line
        | property ha hp => exact reachable_line.nested _ ha n hp
    · cases FieldValue.eq_of_partOf_leaf rfl hp

theorem storable_order : (FieldValue.entity order).Storable shop shopNames := by
  obtain ⟨hid, hlines, hstate, -⟩ := types_order
  refine .of_entity ⟨clear_order, ?_⟩ ?_
  · intro a ha
    simp only [order, List.mem_cons, List.not_mem_nil, or_false] at ha
    rcases ha with rfl | rfl | rfl
    · show FieldValue.Exact ((Descriptor.ofClass shop orderRef).typeOf "_id") _
      rw [hid]
      trivial
    · show FieldValue.Exact ((Descriptor.ofClass shop orderRef).typeOf "lines") _
      rw [hlines]
      intro v hv
      rw [List.mem_singleton.1 hv]
      rfl
    · show FieldValue.Exact ((Descriptor.ofClass shop orderRef).typeOf "state") _
      rw [hstate]
      trivial
  · intro a ha
    simp only [order, List.mem_cons, List.not_mem_nil, or_false] at ha
    rcases ha with rfl | rfl | rfl
    · exact .of_leaf rfl trivial
    · refine .of_list fun v hv => ?_
      rw [List.mem_singleton.1 hv]
      exact storable_line
    · exact .of_leaf rfl ⟨rfl, by decide, by decide⟩

/-- A sent order with a line comes back from its bytes. -/
theorem inflate_encodeRecord_order :
    ∃ doc bytes back r r',
      (encodeRecord order).run ⟨⟨shop, [], []⟩, none, [], [], 0⟩ = (.ok doc, r) ∧
      Cbor.encodeDocument doc = .ok bytes ∧ Cbor.decodeDocument bytes = .ok back ∧
      (inflate order.cls back : RegistryM Entity).run r = (.ok order, r') := by
  obtain ⟨doc, hencode, hback⟩ := inflate_encodeRecord reachable_order rfl storable_order
  have hready : Registry.Ready shop shopNames ⟨⟨shop, [], []⟩, none, [], [], 0⟩ :=
    ⟨⟨rfl, rfl, fun p hp => by cases hp⟩, ⟨rfl, fun p hp => by cases hp⟩⟩
  obtain ⟨r, hrun, hr⟩ := hencode _ hready
  have hdoc : encodingFields order.attributes = .ok doc := by
    obtain ⟨_, h, -⟩ := gives_encodeFields (fun a ha x hx => (storable_order x (.property ha hx)).named)
      _ hready.plain
    have := congrArg Prod.fst (h.symm.trans hrun)
    exact this
  have hsized : (Value.document doc).everywhere Value.sized = true := by
    cases hdoc
    decide +kernel
  obtain ⟨bytes, back, hbytes, hdecode, hinflate⟩ := hback hsized
  obtain ⟨r', hrun', -⟩ := hinflate r hr
  exact ⟨doc, bytes, back, r, r', hrun, hbytes, hdecode, hrun'⟩

end Registry
end Folio
