import Folio.Proofs.Entity.Reachable
import Folio.Proofs.Schema.Named
import Folio.Proofs.Value.Arrangement

/-!
# Entities that survive storing

A document keeps neither the class of a nested record nor the enumeration of a
symbol nor the order of a nested document's fields: all three are taken from
the declared type or from the canonical order. A storable entity is one that
loses nothing by that.

Results:
* `Reachable.kept_typeOf`: each property of a reachable entity of a clear class
  holds a value that its declared type keeps.
* `Reachable.run_instantiate`: made again of its properties, it is the same.
* `Reachable.of_kept`: whatever may be an entity of a class is reachable.
-/
namespace Folio

variable {names : Names} {s : Schema}

/-- The descriptor that is found for a known class is its own. -/
theorem Catalog.Genuine.run_ofClass {k : Catalog} (hk : k.Genuine s names.Knows) {c : ClassRef}
    (hc : names.Knows c) :
    ∃ k', (Catalog.descriptor c).run k = (Descriptor.ofClass s c, k') ∧
      k'.Genuine s names.Knows := by
  obtain ⟨c', k', hrun, hc', hn, hk'⟩ := hk.run_descriptor hc
  rw [hc'.ext hc hn] at hrun
  exact ⟨k', hrun, hk'⟩

namespace FieldValue

/-- Where the type names a class, also for the items of a list, the value is
of this very class. -/
def Exact : ValueType → FieldValue → Prop
  | .entity c, entity e => e.cls = c
  | .list t, list items => ∀ v ∈ items, Exact t v
  | _, _ => True

/-- What storing asks of a value itself. -/
def Lossless (s : Schema) (names : Names) : FieldValue → Prop
  | enum e =>
    names.enum e.cls.name = e.cls ∧ e.cls.symbols.Nodup ∧ e.ordinal < e.cls.symbols.length
  | document doc => (Value.document doc).everywhere Value.ordered = true
  | entity e => s.Clear names e.cls ∧ ∀ a ∈ e.attributes, a.2.Exact (e.descriptor.typeOf a.1)
  | foreign _ => False
  | _ => True

/-- A value all of whose parts are lossless. -/
def Storable (s : Schema) (names : Names) (v : FieldValue) : Prop :=
  ∀ x : FieldValue, x.PartOf v → x.Lossless s names

theorem Storable.here {v : FieldValue} (h : v.Storable s names) : v.Lossless s names :=
  h v (.whole v)

theorem Storable.item {items : List FieldValue} (h : (list items).Storable s names)
    {v : FieldValue} (hv : v ∈ items) : v.Storable s names :=
  fun x hx => h x (.item hv hx)

theorem Storable.property {e : Entity} (h : (entity e).Storable s names) {a : String × FieldValue}
    (ha : a ∈ e.attributes) : a.2.Storable s names :=
  fun x hx => h x (.property ha hx)

theorem Storable.of_leaf {v : FieldValue} (hl : v.isLeaf = true) (h : v.Lossless s names) :
    v.Storable s names := by
  intro x hx
  rw [eq_of_partOf_leaf hl hx]
  exact h

theorem Storable.of_list {items : List FieldValue} (h : ∀ v ∈ items, v.Storable s names) :
    (list items).Storable s names := by
  intro x hx
  cases hx with
  | whole => trivial
  | item hv hx => exact h _ hv x hx

theorem Storable.of_entity {e : Entity} (h : (entity e).Lossless s names)
    (ha : ∀ a ∈ e.attributes, a.2.Storable s names) : (entity e).Storable s names := by
  intro x hx
  cases hx with
  | whole => exact h
  | property hm hx => exact ha _ hm x hx

/-- The type of a lossless value has known names. -/
theorem Lossless.named {v : FieldValue} (h : v.Lossless s names) : v.type.Named names := by
  cases v with
  | enum e => exact h.1
  | entity e => exact h.1.known
  | _ => trivial

end FieldValue

namespace Entity

/-- The descriptor of a reachable entity whose name is its own. -/
theorem Reachable.descriptor {e : Entity} (h : e.Reachable s names.Knows) :
    e.descriptor = Descriptor.ofClass s e.cls := by
  obtain ⟨c, hc, hn, hd⟩ := h.sound.descriptor
  rw [hd, hc.ext h.sound.named hn]

/-- What a property of a reachable entity holds is kept by its declared type. -/
theorem Reachable.kept_typeOf {e : Entity} (h : e.Reachable s names.Knows)
    (hc : s.Clear names e.cls) {a : String × FieldValue} (ha : a ∈ e.attributes) :
    a.2.Kept s (e.descriptor.typeOf a.1) := by
  obtain ⟨t, ht, hk⟩ := h.sound.kept a ha
  have : t = e.descriptor.typeOf a.1 := by
    rcases ht with ht | ⟨name, hm⟩
    · exact ht
    · rw [h.descriptor] at hm ⊢
      exact (Descriptor.typeOf_eq_of_told hc (Descriptor.told_of_write hm)).symm
  rwa [← this]

/-! ## Making an entity again -/

theorem foldlM_set_kept {c : ClassRef} {d : Descriptor} {seed : Fields}
    (hk : ∀ a ∈ seed, a.2.Kept s (d.typeOf a.1)) (fields : Fields) :
    seed.foldlM (fun (e : Entity) f => e.set s f.1 (some f.2)) ⟨c, d, fields⟩ =
      .ok ⟨c, d, seed.foldl (fun fields a => Keyed.insert a.1 a.2 fields) fields⟩ := by
  induction seed generalizing fields with
  | nil => rfl
  | cons a rest ih =>
    have ha : Entity.set s ⟨c, d, fields⟩ a.1 (some a.2) =
        .ok ⟨c, d, Keyed.insert a.1 a.2 fields⟩ := write_kept (hk a List.mem_cons_self) _ _
    rw [List.foldlM_cons, ha]
    exact ih (fun b hb => hk b (List.mem_cons_of_mem a hb)) _

/-- Properties that are kept are set as they are, and then the defaults are. -/
theorem create_of_kept {c : ClassRef} {d : Descriptor} {seed : Fields}
    (hk : ∀ a ∈ seed, a.2.Kept s (d.typeOf a.1)) :
    create s d c seed = .ok (fillDefaults ⟨c, d, Keyed.ofList seed⟩) := by
  rw [create, foldlM_set_kept hk]
  rfl

/-- So is an instance made of them, with the descriptor that is found. -/
theorem run_instantiate_of_kept {k k' : Catalog} (hschema : k.schema = s) {c : ClassRef}
    {d : Descriptor} (hform : ∃ declared, s.find? c = some declared ∧ declared.form = .trait)
    (hrun : (Catalog.descriptor c).run k = (d, k')) {seed : Fields}
    (hk : ∀ a ∈ seed, a.2.Kept s (d.typeOf a.1)) :
    (instantiate c (some seed)).run k = (.ok (fillDefaults ⟨c, d, Keyed.ofList seed⟩), k') := by
  obtain ⟨declared, hf, ht⟩ := hform
  simp only [instantiate, run_bind, run_getThe, hschema, hf, Option.map_some, Option.getD_some, ht,
    ne_eq, not_true_eq_false, if_false, run_monadLift, hrun, run_lift, create_of_kept hk]

/-- Only classes that are declared alone have instances. -/
theorem run_instantiate_refused {k : Catalog} (hschema : k.schema = s) {c : ClassRef}
    (h : ¬ ∃ declared, s.find? c = some declared ∧ declared.form = .trait) (seed : Option Fields) :
    ∃ cause, (instantiate c seed).run k = (.error (.unsupported cause), k) := by
  have hne : ((s.find? c).map (·.form)).getD .abstract ≠ .trait := by
    cases hfind : s.find? c with
    | none => simp
    | some declared => exact fun hform => h ⟨declared, hfind, hform⟩
  simp only [instantiate, run_bind, run_getThe, hschema]
  rw [if_pos hne]
  exact ⟨_, rfl⟩

/-- Properties that are kept and lack no default are those of the instance that
is made of them. -/
theorem run_instantiate_kept {k k' : Catalog} {c : ClassRef} {attributes : Fields}
    (hschema : k.schema = s) (hform : ∃ d, s.find? c = some d ∧ d.form = .trait)
    (hrun : (Catalog.descriptor c).run k = (Descriptor.ofClass s c, k'))
    (hs : Keyed.Sorted attributes)
    (hk : ∀ a ∈ attributes, a.2.Kept s ((Descriptor.ofClass s c).typeOf a.1))
    (hd : ∀ p ∈ (Descriptor.ofClass s c).defaults, (Keyed.get? p.1 attributes).isSome = true) :
    (instantiate c (some attributes)).run k = (.ok ⟨c, Descriptor.ofClass s c, attributes⟩, k') := by
  have hfill : (Descriptor.ofClass s c).defaults.foldl _ attributes = attributes := fill_of_isSome hd
  rw [run_instantiate_of_kept hschema hform hrun hk, Keyed.ofList_of_perm (.refl _) hs, fillDefaults,
    hfill]

/-- An entity is made again of its own properties: none is refused or changed,
and no default is missing. -/
theorem Reachable.run_instantiate {e : Entity} (h : e.Reachable s names.Knows)
    (hc : s.Clear names e.cls) {k : Catalog} (hk : k.Genuine s names.Knows) :
    ∃ k', (instantiate e.cls (some e.attributes)).run k = (.ok e, k') ∧
      k'.Genuine s names.Knows := by
  obtain ⟨k', hrun, hk'⟩ := hk.run_ofClass hc.known
  have hd := h.descriptor
  have hkept : ∀ a ∈ e.attributes, a.2.Kept s ((Descriptor.ofClass s e.cls).typeOf a.1) := by
    rw [← hd]
    exact fun a ha => h.kept_typeOf hc ha
  have hcomplete := h.complete hd hc.agrees
  rw [Complete, hd] at hcomplete
  have hself : (⟨e.cls, Descriptor.ofClass s e.cls, e.attributes⟩ : Entity) = e := by
    rw [← hd]
    cases e
    rfl
  refine ⟨k', ?_, hk'⟩
  rw [run_instantiate_kept hk.schema h.sound.form hrun h.sound.sorted hkept hcomplete, hself]

/-- What has all that the entities of a class have is one that is made of its
properties. -/
theorem Reachable.of_kept {c : ClassRef} {attributes : Fields} (hc : names.Knows c)
    (hform : ∃ d, s.find? c = some d ∧ d.form = .trait) (hs : Keyed.Sorted attributes)
    (hk : ∀ a ∈ attributes, a.2.Kept s ((Descriptor.ofClass s c).typeOf a.1))
    (hd : ∀ p ∈ (Descriptor.ofClass s c).defaults, (Keyed.get? p.1 attributes).isSome = true)
    (hn : ∀ a ∈ attributes, ∀ n, (FieldValue.entity n).PartOf a.2 → n.Reachable s names.Knows) :
    Reachable s names.Knows ⟨c, Descriptor.ofClass s c, attributes⟩ := by
  have hgenuine : Catalog.Genuine s names.Knows ⟨s, [], []⟩ := ⟨rfl, fun p hp => by cases hp⟩
  have hrun := run_instantiate_kept (k := ⟨s, [], []⟩) rfl hform rfl hs hk hd
  refine .create hgenuine hc ?_ hrun
  exact hn

end Entity
end Folio
