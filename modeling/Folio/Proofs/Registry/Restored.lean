import Folio.Proofs.Registry.Exact
import Folio.Proofs.Value.Arrangement

/-!
# Rebuilding marked and named records

The mark that a document has is the mark of the record that it is rebuilt as,
whatever else the document holds, and a text that it has is the text of the
record. Whether or not the record can be rebuilt, the registry stays sound.

Results:
* `sustains_inflate`: rebuilding leaves a sound registry, with the same suppliers.
* `stored_inflate`, `unset_inflate`: what comes back of one field.
* `mark_inflate`: the mark of the document is that of the record.
-/
namespace Folio

variable {s : Schema} {known : ClassRef → Prop} {suppliers : List Provider}

namespace Entity

/-- What is filled in replaces nothing. -/
theorem get?_fill {defaults : List (String × Primitive)} {fields : Fields} {k : String}
    {v : FieldValue} (h : Keyed.get? k fields = some v) :
    Keyed.get? k (fill defaults fields) = some v := by
  induction defaults generalizing fields with
  | nil => exact h
  | cons d rest ih =>
    rw [fill, List.foldl_cons]
    refine ih ?_
    unfold Keyed.insertIfAbsent
    split
    · exact h
    · next habsent =>
      rw [Keyed.get?_insert, if_neg, h]
      rintro rfl
      exact habsent (by rw [h]; rfl)

/-- Only defaults are filled in. -/
theorem get?_fill_of_notMem {defaults : List (String × Primitive)} {fields : Fields} {k : String}
    (hk : k ∉ defaults.map (·.1)) : Keyed.get? k (fill defaults fields) = Keyed.get? k fields := by
  induction defaults generalizing fields with
  | nil => rfl
  | cons d rest ih =>
    rw [List.map_cons, List.mem_cons, not_or] at hk
    obtain ⟨hd, hrest⟩ := hk
    rw [fill, List.foldl_cons]
    refine (ih hrest).trans ?_
    unfold Keyed.insertIfAbsent
    split
    · rfl
    · rw [Keyed.get?_insert, if_neg hd]

/-- A write leaves the other properties alone. -/
theorem get?_write {e next : Entity} {property k : String} {t : ValueType}
    {value : Option FieldValue} (hk : k ≠ property) (hw : e.write s property t value = .ok next) :
    Keyed.get? k next.attributes = Keyed.get? k e.attributes := by
  rcases write_cases hw with ⟨-, -, rfl⟩ | ⟨v, stored, -, -, -, -, rfl⟩
  · rw [Keyed.get?_erase, if_neg hk]
  · rw [Keyed.get?_insert, if_neg hk]

/-- A property that is set once, to a value that it keeps, has the value. -/
theorem get?_seeded {seed : Fields} {e next : Entity} {k : String} {v : FieldValue}
    (hn : (seed.map (·.1)).Nodup) (hm : (k, v) ∈ seed) (hv : v.Kept s (e.descriptor.typeOf k))
    (h : seed.foldlM (fun (e : Entity) f => e.set s f.1 (some f.2)) e = .ok next) :
    Keyed.get? k next.attributes = some v := by
  induction seed generalizing e with
  | nil => cases hm
  | cons a rest ih =>
    rw [List.foldlM_cons] at h
    obtain ⟨e', ha, h⟩ := ok_of_bind h
    obtain ⟨hother, hn⟩ := List.nodup_cons.1 hn
    rcases List.mem_cons.1 hm with rfl | hm
    · -- the rest sets other properties
      rw [set, write_kept hv] at ha
      cases ha
      refine foldlM_set (P := fun e => Keyed.get? k e.attributes = some v) ?_ ?_ h
      · rw [Keyed.get?_insert, if_pos rfl]
      · intro b hb e next he hset
        rw [get?_write (fun heq => hother ?_) hset, he]
        exact List.mem_map.2 ⟨b, hb, heq.symm⟩
    · exact ih hn hm (by rw [(write_ok ha).2]; exact hv) h

/-- A property that is never set stays as it was. -/
theorem get?_unseeded {seed : Fields} {e next : Entity} {k : String} (hk : k ∉ seed.map (·.1))
    (h : seed.foldlM (fun (e : Entity) f => e.set s f.1 (some f.2)) e = .ok next) :
    Keyed.get? k next.attributes = Keyed.get? k e.attributes := by
  refine foldlM_set (P := fun next => Keyed.get? k next.attributes = Keyed.get? k e.attributes) rfl ?_ h
  intro a ha e' next' he hset
  have hne : k ≠ a.1 := by
    rintro rfl
    exact hk (List.mem_map_of_mem ha)
  rw [get?_write hne hset, he]

/-- A record is made if an instance is. -/
theorem run_instantiate_of_create {c : ClassRef} {seed : Option Fields} {k k' : Catalog} {e : Entity}
    (h : (Record.create c seed : CatalogM Entity).run k = (.ok e, k')) :
    (instantiate c seed).run k = (.ok e, k') := by
  obtain ⟨k₀, k₁, hget, h⟩ := ok_of_run_bind h
  cases hget
  split at h
  · cases h
  rw [run_tryCatch] at h
  rcases hrun : (Record.instantiate c seed : CatalogM Entity).run k with ⟨failure | made, k₂⟩
  · rw [hrun] at h
    cases h
  · rw [hrun] at h
    cases h
    rfl

theorem genuine_create {c : ClassRef} (hc : known c) (seed : Option Fields) :
    Within (fun k k' => k.Genuine s known → k'.Genuine s known)
      (Record.create c seed : CatalogM Entity) := by
  have hframe : Frame fun k k' : Catalog => k.Genuine s known → k'.Genuine s known :=
    ⟨fun _ h => h, fun h h' hk => h' (h hk)⟩
  refine hframe.within_bind hframe.within_get fun k => ?_
  dsimp only
  split
  · exact hframe.within_throw _
  · exact hframe.within_tryCatch (genuine_instantiate hc seed) fun _ => hframe.within_throw _

end Entity

/-- The class is a known one, and whatever class is known by its name has a mark. -/
structure Schema.Markable (s : Schema) (known : ClassRef → Prop) (c : ClassRef) : Prop where
  isKnown : known c
  closed : s.Closed known
  marks : ∀ c', known c' → c'.name = c.name → s.Marks c'

namespace Decoder

/-- What a field is decoded as has its name, and is the one value of a field whose
value is decoded in one way. -/
def Restores (suppliers : List Provider) (d : Descriptor) (f : String × Value)
    (answer : Option (String × FieldValue)) : Prop :=
  (∀ a, answer = some a → a.1 = f.1) ∧
    ∀ x, Settles suppliers (d.typeOf f.1) f.2 x → answer = x.map (f.1, ·)

variable {n : Nat} {d : Descriptor}

theorem leads_restored (hclosed : s.Closed known) {c : ClassRef} (hc : known c)
    (f : String × Value) (rest : List (String × Value)) (below : List Reader.Frame) :
    Leads s known suppliers ⟨.document (f :: rest) :: below, none⟩
      (field (value (n + 1)) (Descriptor.ofClass s c)) fun answer after =>
        Restores suppliers (Descriptor.ofClass s c) f answer ∧
          after = ⟨.document rest :: below, none⟩ := by
  have hvalue : Leads s known suppliers ⟨.document rest :: below, some f.2⟩
      (value (n + 1) ((Descriptor.ofClass s c).typeOf f.1)) fun answer after =>
        (∀ x, Settles suppliers ((Descriptor.ofClass s c).typeOf f.1) f.2 x → answer = x) ∧
          after = ⟨.document rest :: below, none⟩ := by
    by_cases hsettles : ∃ x, Settles suppliers ((Descriptor.ofClass s c).typeOf f.1) f.2 x
    · obtain ⟨x, hx⟩ := hsettles
      refine (known_value n hx (.current _)).imp ?_
      rintro answer after ⟨rfl, rfl⟩
      exact ⟨fun y hy => hx.unique hy, rfl⟩
    · refine (exact_value hclosed (n + 1) (hclosed.typeOf hc f.1) _ _ _ (.current _)).imp ?_
      exact fun answer after hafter => ⟨fun x hx => absurd ⟨x, hx⟩ hsettles, hafter⟩
  refine (leads_field hvalue).imp ?_
  rintro answer after ⟨⟨x, hx, rfl⟩, rfl⟩
  refine ⟨⟨fun a ha => ?_, fun y hy => by rw [hx y hy]⟩, rfl⟩
  obtain ⟨y, -, rfl⟩ := Option.map_eq_some_iff.1 ha
  rfl

variable {fields : List (String × Value)} {answers : List (Option (String × FieldValue))}

theorem names_restored (h : List.Forall₂ (Restores suppliers d) fields answers) :
    (answers.reduceOption.map (·.1)).Sublist (fields.map (·.1)) := by
  induction h with
  | nil => exact .slnil
  | @cons f answer fields answers hf _ ih =>
    cases answer with
    | none => exact ih.cons f.1
    | some a =>
      rw [List.reduceOption_cons_of_some, List.map_cons, List.map_cons, hf.1 a rfl]
      exact ih.cons_cons f.1

theorem mem_restored (h : List.Forall₂ (Restores suppliers d) fields answers) {k : String} {v : Value}
    {x : FieldValue} (hx : Settles suppliers (d.typeOf k) v (some x)) (hm : (k, v) ∈ fields) :
    (k, x) ∈ answers.reduceOption := by
  induction h with
  | nil => cases hm
  | @cons f answer fields answers hf _ ih =>
    rcases List.mem_cons.1 hm with rfl | hm
    · rw [hf.2 _ hx]
      exact List.mem_cons_self
    · cases answer with
      | none => exact ih hm
      | some a => exact List.mem_cons_of_mem a (ih hm)

theorem notMem_restored (h : List.Forall₂ (Restores suppliers d) fields answers) {k : String}
    (hk : ∀ v, (k, v) ∈ fields → Settles suppliers (d.typeOf k) v none) :
    k ∉ answers.reduceOption.map (·.1) := by
  induction h with
  | nil => exact List.not_mem_nil
  | @cons f answer fields answers hf _ ih =>
    have hrest := ih fun v hv => hk v (List.mem_cons_of_mem f hv)
    cases answer with
    | none => exact hrest
    | some a =>
      rw [List.reduceOption_cons_of_some, List.map_cons, List.mem_cons, not_or]
      refine ⟨?_, hrest⟩
      rintro rfl
      -- the field of this name is decoded as nothing
      obtain ⟨name, v⟩ := f
      obtain rfl : a.1 = name := hf.1 a rfl
      cases hf.2 none (hk v List.mem_cons_self)

/-- Fields of different names are all kept. -/
theorem ofList_restored (h : List.Forall₂ (Restores suppliers d) fields answers)
    (hn : (fields.map (·.1)).Nodup) :
    ((Keyed.ofList answers.reduceOption).map (·.1)).Nodup ∧
      ∀ a, a ∈ Keyed.ofList answers.reduceOption ↔ a ∈ answers.reduceOption := by
  obtain ⟨hsorted, hmem⟩ := Keyed.mem_foldl_insert (show Keyed.Sorted ([] : Fields) from .nil)
    ((names_restored h).nodup hn) (by simp)
  exact ⟨hsorted.nodup, fun a => (hmem a).trans (or_iff_left List.not_mem_nil)⟩

end Decoder

namespace Registry

variable {c : ClassRef} {doc : Document} {r r' : Registry}

/-- The fields of a document are decoded each as its class declares it. -/
theorem restored_fields (hclosed : s.Closed known) (hc : known c) (hr : r.From s known suppliers)
    {result : Except Failure Fields}
    (h : (decoding (Reader.ofDocument doc)
      (Decoder.fields (Decoder.value (Decoder.fuel (Reader.ofDocument doc))) c)).run r = (result, r')) :
    r'.From s known suppliers ∧ ∀ found, result = .ok found →
      ∃ c' answers, known c' ∧ c'.name = c.name ∧
        List.Forall₂ (Decoder.Restores suppliers (Descriptor.ofClass s c')) doc.fields answers ∧
        found = Keyed.ofList answers.reduceOption := by
  have hdue : Reader.Due (.document doc) (Reader.ofDocument doc) ⟨[], none⟩ := .current []
  have hleads := Decoder.leads_fields (Q := Decoder.Restores suppliers) hc hdue fun c' hc' f rest below =>
    Decoder.leads_restored (n := 2 * (Reader.ofDocument doc).depth + 1) hclosed hc' f rest below
  cases h
  obtain ⟨hr', hfound⟩ := hleads r hr _ _ rfl
  refine ⟨hr', fun found hok => ?_⟩
  obtain ⟨⟨doc', hdoc, c', hc', hname, answers, hall, rfl⟩, -⟩ := hfound found hok
  cases hdoc
  exact ⟨c', answers, hc', hname, hall, rfl⟩

/-- Rebuilding leaves a sound registry. -/
theorem sustains_inflate (hclosed : s.Closed known) (hc : known c) (doc : Document) :
    Within (Sustains s known) (inflate c doc : RegistryM Entity) := by
  refine sustains_frame.within_bind (fun r suppliers hr => (restored_fields hclosed hc hr rfl).1)
    fun found => ?_
  exact fun r suppliers hr => hr.withCatalog (Entity.genuine_create hc _ _ hr.sound.catalog)

/-- A record that is rebuilt has what the fields are decoded as, and then defaults.
Both are told by known classes of the name. -/
theorem inflate_cases (hclosed : s.Closed known) (hc : known c) (hr : r.From s known suppliers)
    {e : Entity} (h : (inflate c doc : RegistryM Entity).run r = (.ok e, r')) :
    ∃ c₁ c₂ answers filled, (known c₁ ∧ c₁.name = c.name) ∧ (known c₂ ∧ c₂.name = c.name) ∧
      List.Forall₂ (Decoder.Restores suppliers (Descriptor.ofClass s c₁)) doc.fields answers ∧
      (Keyed.ofList answers.reduceOption).foldlM (fun (e : Entity) f => e.set s f.1 (some f.2))
        ⟨c, Descriptor.ofClass s c₂, []⟩ = .ok filled ∧ e = filled.fillDefaults := by
  obtain ⟨found, t, hfound, h⟩ := ok_of_run_bind h
  obtain ⟨ht, hrestored⟩ := restored_fields hclosed hc hr hfound
  obtain ⟨c₁, answers, hc₁, hname₁, hall, rfl⟩ := hrestored found rfl
  have hcreate : ((Record.create c (some (Keyed.ofList answers.reduceOption)) :
      CatalogM Entity).run t.catalog).1 = .ok e := congrArg Prod.fst h
  rcases hrun : (Record.create c (some (Keyed.ofList answers.reduceOption)) :
    CatalogM Entity).run t.catalog with ⟨made, k⟩
  rw [hrun] at hcreate
  subst hcreate
  obtain ⟨c', filled, hblank, hfilled, rfl⟩ :=
    Entity.run_instantiate ht.sound.catalog hc (Entity.run_instantiate_of_create hrun)
  obtain ⟨c₂, hc₂, hname₂, hd⟩ := hblank.descriptor
  rw [show Descriptor.ofClass s c' = Descriptor.ofClass s c₂ from hd] at hfilled
  exact ⟨c₁, c₂, answers, filled, ⟨hc₁, hname₁⟩, ⟨hc₂, hname₂⟩, hall, hfilled, rfl⟩

variable {k : String} {t : ValueType}

/-- The one value that a field is decoded as is that of the record. -/
theorem stored_inflate (hclosed : s.Closed known) (hc : known c) (hr : r.From s known suppliers)
    (hn : (doc.fields.map (·.1)).Nodup)
    (htype : ∀ c', known c' → c'.name = c.name → (Descriptor.ofClass s c').typeOf k = t)
    {v : Value} {x : FieldValue} (hx : Decoder.Settles suppliers t v (some x)) (hkept : x.Kept s t)
    (hdoc : doc.get? k = some v) {e : Entity}
    (h : (inflate c doc : RegistryM Entity).run r = (.ok e, r')) :
    Keyed.get? k e.attributes = some x := by
  obtain ⟨c₁, c₂, answers, filled, ⟨hc₁, hname₁⟩, ⟨hc₂, hname₂⟩, hall, hfilled, rfl⟩ :=
    inflate_cases hclosed hc hr h
  obtain ⟨hnames, hmem⟩ := Decoder.ofList_restored hall hn
  have hmember : (k, x) ∈ answers.reduceOption :=
    Decoder.mem_restored hall (htype c₁ hc₁ hname₁ ▸ hx) ((Value.lookup_iff_mem hn).1 hdoc)
  have hkept' : x.Kept s ((Descriptor.ofClass s c₂).typeOf k) := htype c₂ hc₂ hname₂ ▸ hkept
  exact Entity.get?_fill (Entity.get?_seeded hnames ((hmem _).2 hmember) hkept' hfilled)

/-- A property without a default is not set if its field is not there, or is decoded
as nothing. -/
theorem unset_inflate (hclosed : s.Closed known) (hc : known c) (hr : r.From s known suppliers)
    (hn : (doc.fields.map (·.1)).Nodup)
    (htype : ∀ c', known c' → c'.name = c.name → (Descriptor.ofClass s c').typeOf k = t)
    (hdefault : ∀ c', known c' → c'.name = c.name → k ∉ (Descriptor.ofClass s c').defaults.map (·.1))
    (hdoc : ∀ v, doc.get? k = some v → Decoder.Settles suppliers t v none) {e : Entity}
    (h : (inflate c doc : RegistryM Entity).run r = (.ok e, r')) :
    Keyed.get? k e.attributes = none := by
  obtain ⟨c₁, c₂, answers, filled, ⟨hc₁, hname₁⟩, ⟨hc₂, hname₂⟩, hall, hfilled, rfl⟩ :=
    inflate_cases hclosed hc hr h
  have hunset : k ∉ answers.reduceOption.map (·.1) := by
    refine Decoder.notMem_restored hall fun v hv => ?_
    rw [htype c₁ hc₁ hname₁]
    exact hdoc v ((Value.lookup_iff_mem hn).2 hv)
  have hseed : k ∉ (Keyed.ofList answers.reduceOption).map (·.1) := by
    intro hk
    obtain ⟨a, ha, rfl⟩ := List.mem_map.1 hk
    exact hunset (List.mem_map_of_mem (((Decoder.ofList_restored hall hn).2 a).1 ha))
  have hdescriptor : filled.descriptor = Descriptor.ofClass s c₂ :=
    Entity.foldlM_set (P := fun e => e.descriptor = Descriptor.ofClass s c₂) rfl
      (fun a _ e next he hset => (Entity.write_ok hset).2.trans he) hfilled
  have hfill : Keyed.get? k filled.fillDefaults.attributes = Keyed.get? k filled.attributes := by
    refine Entity.get?_fill_of_notMem ?_
    rw [hdescriptor]
    exact hdefault c₂ hc₂ hname₂
  rw [hfill, Entity.get?_unseeded hseed hfilled]
  rfl

/-- The mark of a document is that of the record that it is rebuilt as. -/
theorem mark_inflate (hc : s.Markable known c) (hr : r.Sound s known)
    (hn : (doc.fields.map (·.1)).Nodup) {flag : Bool}
    (hdoc : doc.get? defunctProperty = some (.bool flag)) {e : Entity}
    (h : (inflate c doc : RegistryM Entity).run r = (.ok e, r')) :
    Keyed.get? defunctProperty e.attributes = some (.bool flag) :=
  stored_inflate hc.closed hc.isKnown hr.own hn
    (fun c' hc' hname => Descriptor.typeOf_mark (hc.marks c' hc' hname)) (.flag flag) ⟨rfl, rfl, rfl⟩
    hdoc h

end Registry
end Folio
