import Folio.Proofs.Entity.StoredForm
import Folio.Proofs.Keyed
import Folio.Proofs.Run
import Folio.Proofs.Schema.Descriptors

/-!
# Reachable entities

An entity comes from a catalog that made it of its class, and goes through
settings of its properties, by name or by accessor. Whatever is done to it,
its properties stay sorted and checked: each fits a type that the class takes
for it, holds no NaN and is in stored form.

Results:
* `Reachable.sound`: the invariant of every reachable entity.
* `Reachable.nested`: entities in the properties are reachable themselves.
* `Reachable.complete`: properties with defaults are set.
-/
namespace Folio

/-- The catalog is one of the schema, and each descriptor that was found is
that of a known class of its name. -/
structure Catalog.Genuine (s : Schema) (known : ClassRef → Prop) (k : Catalog) : Prop where
  schema : k.schema = s
  descriptors : ∀ p ∈ k.descriptors, ∃ c, known c ∧ c.name = p.1 ∧ p.2 = Descriptor.ofClass s c

variable {s : Schema} {known : ClassRef → Prop}

theorem Catalog.run_descriptor_some {k : Catalog} {c : ClassRef} {d : Descriptor}
    (h : k.descriptors.lookup c.name = some d) : (Catalog.descriptor c).run k = (d, k) := by
  unfold Catalog.descriptor
  simp only [bind, StateT.run, StateT.bind, get, getThe, MonadStateOf.get, StateT.get, pure, h]
  rfl

theorem Catalog.run_descriptor_none {k : Catalog} {c : ClassRef}
    (h : k.descriptors.lookup c.name = none) :
    (Catalog.descriptor c).run k = (Descriptor.ofClass k.schema c,
      { k with descriptors := (c.name, Descriptor.ofClass k.schema c) :: k.descriptors }) := by
  unfold Catalog.descriptor
  simp only [bind, StateT.run, StateT.bind, get, getThe, MonadStateOf.get, StateT.get, pure, h]
  rfl

/-- The descriptor that is found for a class is its own, or that of a known
class of the same name. -/
theorem Catalog.Genuine.run_descriptor {k : Catalog} (hk : k.Genuine s known) {c : ClassRef}
    (hc : known c) : ∃ c' k', (Catalog.descriptor c).run k = (Descriptor.ofClass s c', k') ∧
      known c' ∧ c'.name = c.name ∧ k'.Genuine s known := by
  cases hl : k.descriptors.lookup c.name with
  | some d =>
    obtain ⟨name, hm, hname⟩ := mem_of_lookup hl
    obtain ⟨c', hc', hn, hd⟩ := hk.descriptors _ hm
    refine ⟨c', k, ?_, hc', hn.trans (eq_of_beq hname).symm, hk⟩
    rw [Catalog.run_descriptor_some hl, ← hd]
  | none =>
    refine ⟨c, { k with descriptors := (c.name, Descriptor.ofClass s c) :: k.descriptors }, ?_, hc,
      rfl, hk.schema, ?_⟩
    · rw [Catalog.run_descriptor_none hl, hk.schema]
    · intro p hp
      rcases List.mem_cons.1 hp with rfl | hp
      · exact ⟨c, hc, rfl, rfl⟩
      · exact hk.descriptors p hp

/-- The descriptor has the property take values of the type: it is declared of
it, or a setter has it. -/
def Descriptor.Takes (d : Descriptor) (property : String) (t : ValueType) : Prop :=
  t = d.typeOf property ∨ ∃ name, (name, .write property t) ∈ d.accessors

/-- The value is one that a property of the type keeps. -/
structure FieldValue.Kept (s : Schema) (t : ValueType) (v : FieldValue) : Prop where
  fits : v.fits s t = true
  number : v.hasNaN = false
  stored : v.storedForm t = .ok v

namespace Entity

/-- What holds of every entity that is reachable. -/
structure Sound (s : Schema) (known : ClassRef → Prop) (e : Entity) : Prop where
  named : known e.cls
  form : ∃ d, s.find? e.cls = some d ∧ d.form = .trait
  descriptor : ∃ c, known c ∧ c.name = e.cls.name ∧ e.descriptor = Descriptor.ofClass s c
  sorted : Keyed.Sorted e.attributes
  kept : ∀ a ∈ e.attributes, ∃ t, e.descriptor.Takes a.1 t ∧ a.2.Kept s t

/-- An entity that differs in its properties only. -/
theorem Sound.attributes {e : Entity} (h : e.Sound s known) {attributes : Fields}
    (hs : Keyed.Sorted attributes)
    (hk : ∀ a ∈ attributes, ∃ t, e.descriptor.Takes a.1 t ∧ a.2.Kept s t) :
    Entity.Sound s known { e with attributes := attributes } :=
  ⟨h.named, h.form, h.descriptor, hs, hk⟩

/-- What a write does. -/
theorem write_cases {e next : Entity} {property : String} {t : ValueType}
    {value : Option FieldValue} (h : e.write s property t value = .ok next) :
    (value = none ∧ t.isPrimitive = false ∧
      next = { e with attributes := Keyed.erase property e.attributes }) ∨
    ∃ v stored, value = some v ∧ v.fits s t = true ∧ v.hasNaN = false ∧
      v.storedForm t = .ok stored ∧
      next = { e with attributes := Keyed.insert property stored e.attributes } := by
  unfold write at h
  cases value with
  | none =>
    by_cases hp : t.isPrimitive = true
    · simp only [if_pos hp] at h
      cases h
    · simp only [if_neg hp] at h
      cases h
      exact .inl ⟨rfl, eq_false_of_ne_true hp, rfl⟩
  | some v =>
    cases hf : v.fits s t with
    | false => simp [hf] at h
    | true =>
      cases hn : v.hasNaN with
      | true => simp [hf, hn] at h
      | false =>
        cases hst : v.storedForm t with
        | error type => simp [hf, hn, hst] at h
        | ok stored =>
          simp only [hf, hn, hst, Bool.not_true, Bool.false_eq_true, if_false] at h
          cases h
          exact .inr ⟨v, stored, rfl, hf, hn, hst, rfl⟩

theorem write_some {t : ValueType} {v stored : FieldValue} (hf : v.fits s t = true)
    (hn : v.hasNaN = false) (hst : v.storedForm t = .ok stored) (e : Entity) (property : String) :
    e.write s property t (some v) =
      .ok { e with attributes := Keyed.insert property stored e.attributes } := by
  rw [write, hf, hn, hst]
  rfl

/-- A value that a property keeps is kept as it is. -/
theorem write_kept {t : ValueType} {v : FieldValue} (hk : v.Kept s t) (e : Entity)
    (property : String) :
    e.write s property t (some v) =
      .ok { e with attributes := Keyed.insert property v e.attributes } :=
  write_some hk.fits hk.number hk.stored e property

theorem Sound.write {e next : Entity} (h : e.Sound s known) {property : String} {t : ValueType}
    {value : Option FieldValue} (ht : e.descriptor.Takes property t)
    (hw : e.write s property t value = .ok next) : next.Sound s known := by
  rcases write_cases hw with ⟨-, -, rfl⟩ | ⟨v, stored, -, hf, hn, hst, rfl⟩
  · refine h.attributes (Keyed.erase_sorted property h.sorted) ?_
    intro a ha
    exact h.kept a (List.mem_filter.1 ha |>.1)
  · refine h.attributes (Keyed.insert_sorted property stored h.sorted) ?_
    intro a ha
    rcases (Keyed.mem_insert h.sorted).1 ha with rfl | ⟨ha, -⟩
    · exact ⟨t, ht, FieldValue.fits_storedForm hst hf, FieldValue.hasNaN_storedForm hst hn,
        FieldValue.storedForm_storedForm hst⟩
    · exact h.kept a ha

theorem zero_kept (s : Schema) (p : Primitive) : p.zero.Kept s (.primitive p) := by
  cases p <;> exact ⟨rfl, by decide, rfl⟩

/-- The defaults that are filled in are those of setters. -/
theorem takes_default {e : Entity} (h : e.Sound s known) {p : String × Primitive}
    (hp : p ∈ e.descriptor.defaults) : e.descriptor.Takes p.1 (.primitive p.2) := by
  obtain ⟨c, -, -, hd⟩ := h.descriptor
  rw [hd] at hp ⊢
  exact .inr (Descriptor.accessor_of_default hp)

/-- Fields with more of them filled in. -/
def fill (defaults : List (String × Primitive)) (fields : Fields) : Fields :=
  defaults.foldl (fun fields d => Keyed.insertIfAbsent d.1 d.2.zero fields) fields

theorem mem_insertIfAbsent {k : String} {v : FieldValue} {fields : Fields}
    (hs : Keyed.Sorted fields) {a : String × FieldValue}
    (ha : a ∈ Keyed.insertIfAbsent k v fields) : a = (k, v) ∨ a ∈ fields := by
  unfold Keyed.insertIfAbsent at ha
  split at ha
  · exact .inr ha
  · rcases (Keyed.mem_insert hs).1 ha with h | ⟨h, -⟩
    · exact .inl h
    · exact .inr h

theorem fill_sorted (defaults : List (String × Primitive)) {fields : Fields}
    (hs : Keyed.Sorted fields) : Keyed.Sorted (fill defaults fields) :=
  List.foldlRecOn defaults _ hs fun _ h d _ => Keyed.insertIfAbsent_sorted d.1 d.2.zero h

theorem mem_fill {defaults : List (String × Primitive)} {fields : Fields}
    (hs : Keyed.Sorted fields) {a : String × FieldValue} (ha : a ∈ fill defaults fields) :
    a ∈ fields ∨ ∃ d ∈ defaults, a = (d.1, d.2.zero) := by
  induction defaults generalizing fields with
  | nil => exact .inl ha
  | cons d rest ih =>
    rcases ih (Keyed.insertIfAbsent_sorted d.1 d.2.zero hs) ha with h | ⟨d', hd', h⟩
    · rcases mem_insertIfAbsent hs h with h | h
      · exact .inr ⟨d, List.mem_cons_self, h⟩
      · exact .inl h
    · exact .inr ⟨d', List.mem_cons_of_mem d hd', h⟩

theorem Sound.fillDefaults {e : Entity} (h : e.Sound s known) : e.fillDefaults.Sound s known := by
  refine h.attributes (fill_sorted _ h.sorted) ?_
  intro a ha
  rcases mem_fill h.sorted ha with ha | ⟨d, hd, rfl⟩
  · exact h.kept a ha
  · exact ⟨_, takes_default h hd, zero_kept s d.2⟩

/-- What every setting of one more property keeps, setting them all keeps. -/
theorem foldlM_set {P : Entity → Prop} {seed : Fields} {e next : Entity} (he : P e)
    (hstep : ∀ a ∈ seed, ∀ e next, P e → e.set s a.1 (some a.2) = .ok next → P next)
    (h : seed.foldlM (fun (e : Entity) f => e.set s f.1 (some f.2)) e = .ok next) : P next := by
  induction seed generalizing e with
  | nil => cases h; exact he
  | cons a rest ih =>
    rw [List.foldlM_cons] at h
    obtain ⟨e', ha, h⟩ := ok_of_bind h
    exact ih (hstep a List.mem_cons_self e e' he ha)
      (fun b hb => hstep b (List.mem_cons_of_mem a hb)) h

/-- An entity without properties is sound. -/
theorem sound_blank {c c' : ClassRef} (hc : known c) (hc' : known c') (hn : c'.name = c.name)
    (hf : ∃ d, s.find? c = some d ∧ d.form = .trait) :
    Sound s known ⟨c, Descriptor.ofClass s c', []⟩ :=
  ⟨hc, hf, ⟨c', hc', hn, rfl⟩, .nil, fun a ha => by cases ha⟩

/-- An instance of a class begins without properties, gets those handed in and
then the defaults. -/
theorem run_instantiate {k k' : Catalog} (hk : k.Genuine s known) {c : ClassRef} (hc : known c)
    {seed : Option Fields} {e : Entity} (h : (instantiate c seed).run k = (.ok e, k')) :
    ∃ c' filled, Sound s known ⟨c, Descriptor.ofClass s c', []⟩ ∧
      (seed.getD []).foldlM (fun (e : Entity) f => e.set s f.1 (some f.2))
        ⟨c, Descriptor.ofClass s c', []⟩ = .ok filled ∧ e = filled.fillDefaults := by
  obtain ⟨c', k'', hd, hc', hn, -⟩ := hk.run_descriptor hc
  simp only [instantiate, run_bind, run_getThe, hk.schema] at h
  cases hf : s.find? c with
  | none =>
    simp [hf] at h
    cases (Prod.mk.inj h).1
  | some d =>
    by_cases ht : d.form = .trait
    · simp only [hf, Option.map_some, Option.getD_some, ht, ne_eq, not_true_eq_false, if_false,
        run_bind, run_monadLift, hd, run_lift] at h
      obtain ⟨filled, hm, h⟩ := ok_of_bind (Prod.mk.inj h).1
      cases h
      exact ⟨c', filled, sound_blank hc hc' hn ⟨d, hf, ht⟩, hm, rfl⟩
    · simp [hf, ht] at h
      cases (Prod.mk.inj h).1

/-- Making an instance looks up one descriptor. -/
theorem genuine_instantiate {c : ClassRef} (hc : known c) (seed : Option Fields) :
    Within (fun k k' => k.Genuine s known → k'.Genuine s known) (instantiate c seed) := by
  have hframe : Frame fun k k' : Catalog => k.Genuine s known → k'.Genuine s known :=
    ⟨fun _ h => h, fun h h' hk => h' (h hk)⟩
  refine hframe.within_bind hframe.within_get fun k => ?_
  dsimp only
  split
  · exact hframe.within_throw _
  · refine hframe.within_bind (fun k hk => ?_) fun d => hframe.within_lift _
    obtain ⟨c', k', hrun, -, -, hk'⟩ := hk.run_descriptor hc
    rw [run_monadLift, hrun]
    exact hk'

/-- The entities that a catalog makes and that settings of their properties
lead to, where values are made of reachable entities too. -/
inductive Reachable (s : Schema) (known : ClassRef → Prop) : Entity → Prop
  | create {k k' : Catalog} {c : ClassRef} {seed : Option Fields} {e : Entity} :
    k.Genuine s known → known c →
    (∀ a ∈ seed.getD [], ∀ n, (FieldValue.entity n).PartOf a.2 → Reachable s known n) →
    (instantiate c seed).run k = (.ok e, k') → Reachable s known e
  | set {e next : Entity} {property : String} {value : Option FieldValue} :
    Reachable s known e →
    (∀ v, value = some v → ∀ n, (FieldValue.entity n).PartOf v → Reachable s known n) →
    e.set s property value = .ok next → Reachable s known next
  | invoke {e next : Entity} {method : String} {args : List (Option FieldValue)}
      {answer : Option FieldValue} :
    Reachable s known e →
    (∀ v, some v ∈ args → ∀ n, (FieldValue.entity n).PartOf v → Reachable s known n) →
    e.invoke s method args = .ok (answer, next) → Reachable s known next

/-- A call of an accessor leaves the entity as it is, or is a write. -/
theorem invoke_cases {e next : Entity} {method : String} {args : List (Option FieldValue)}
    {answer : Option FieldValue} (h : e.invoke s method args = .ok (answer, next)) :
    next = e ∨ ∃ property t value, e.descriptor.accessor? method = some (.write property t) ∧
      args = [value] ∧ e.write s property t value = .ok next := by
  unfold invoke at h
  split at h
  · cases h; exact .inl rfl
  · next property t value ha =>
    obtain ⟨e', hw, h⟩ := ok_of_bind h
    cases h
    exact .inr ⟨property, t, value, ha, rfl, hw⟩
  · cases h; exact .inl rfl
  · cases h

/-- Every reachable entity has its class's descriptor, and sorted properties
with values that they may keep. -/
theorem Reachable.sound {e : Entity} (h : e.Reachable s known) : e.Sound s known := by
  induction h with
  | @create k k' c seed e hk hc _ hrun _ =>
    obtain ⟨c', filled, hblank, hm, rfl⟩ := run_instantiate hk hc hrun
    refine Sound.fillDefaults (foldlM_set (P := Sound s known) hblank ?_ hm)
    exact fun a _ e next he hset => he.write (.inl rfl) hset
  | set _ _ hset ih => exact ih.write (.inl rfl) hset
  | invoke _ _ hinv ih =>
    rcases invoke_cases hinv with rfl | ⟨property, t, value, ha, -, hw⟩
    · exact ih
    · exact ih.write (.inr ⟨_, Descriptor.mem_of_accessor? ha⟩) hw

/-! ## Nested entities -/

/-- The entities in the properties are reachable. -/
def Nested (s : Schema) (known : ClassRef → Prop) (e : Entity) : Prop :=
  ∀ a ∈ e.attributes, ∀ n, (FieldValue.entity n).PartOf a.2 → Reachable s known n

theorem Nested.write {e next : Entity} (hs : Keyed.Sorted e.attributes) (h : e.Nested s known)
    {property : String} {t : ValueType} {value : Option FieldValue}
    (hv : ∀ v, value = some v → ∀ n, (FieldValue.entity n).PartOf v → Reachable s known n)
    (hw : e.write s property t value = .ok next) : next.Nested s known := by
  rcases write_cases hw with ⟨-, -, rfl⟩ | ⟨v, stored, hval, -, -, hst, rfl⟩
  · exact fun a ha => h a (List.mem_filter.1 ha).1
  · intro a ha n hp
    rcases (Keyed.mem_insert hs).1 ha with rfl | ⟨ha, -⟩
    · exact hv v hval n (FieldValue.partOf_storedForm hst hp)
    · exact h a ha n hp

theorem zero_leaf (p : Primitive) : p.zero.isLeaf = true := by cases p <;> rfl

theorem Nested.fillDefaults {e : Entity} (hs : Keyed.Sorted e.attributes) (h : e.Nested s known) :
    e.fillDefaults.Nested s known := by
  intro a ha n hp
  rcases mem_fill hs ha with ha | ⟨d, -, rfl⟩
  · exact h a ha n hp
  · have heq := FieldValue.eq_of_partOf_leaf (zero_leaf d.2) hp
    have hl := zero_leaf d.2
    rw [← heq] at hl
    cases hl

/-- Every entity in the properties of a reachable one is reachable. -/
theorem Reachable.nested {e : Entity} (h : e.Reachable s known) : e.Nested s known := by
  induction h with
  | @create k k' c seed e hk hc hseed hrun _ =>
    obtain ⟨c', filled, hblank, hm, rfl⟩ := run_instantiate hk hc hrun
    have both : filled.Sound s known ∧ filled.Nested s known := by
      refine foldlM_set (P := fun e => e.Sound s known ∧ e.Nested s known)
        ⟨hblank, fun a ha => by cases ha⟩ ?_ hm
      rintro a ha e next ⟨hsound, hnest⟩ hset
      refine ⟨hsound.write (.inl rfl) hset, hnest.write hsound.sorted ?_ hset⟩
      intro v hv n hp
      cases hv
      exact hseed a ha n hp
    exact both.2.fillDefaults both.1.sorted
  | set he hv hset ih _ => exact ih.write he.sound.sorted hv hset
  | invoke he hv hinv ih _ =>
    rcases invoke_cases hinv with rfl | ⟨property, t, value, -, rfl, hw⟩
    · exact ih
    · exact ih.write he.sound.sorted (fun v h => hv v (by simp [h])) hw

/-! ## Defaults -/

theorem isSome_insertIfAbsent {k key : String} {v : FieldValue} {fields : Fields} :
    (Keyed.get? k (Keyed.insertIfAbsent key v fields)).isSome = true ↔
      k = key ∨ (Keyed.get? k fields).isSome = true := by
  unfold Keyed.insertIfAbsent
  by_cases hk : k = key
  · subst hk
    split
    · next h => simp [h]
    · simp
  · split <;> simp [hk]

theorem isSome_fill {defaults : List (String × Primitive)} {fields : Fields} {k : String} :
    (Keyed.get? k (fill defaults fields)).isSome = true ↔
      k ∈ defaults.map (·.1) ∨ (Keyed.get? k fields).isSome = true := by
  induction defaults generalizing fields with
  | nil => simp [fill]
  | cons d rest ih =>
    rw [fill, List.foldl_cons]
    refine ih.trans ?_
    rw [isSome_insertIfAbsent, List.map_cons, List.mem_cons]
    constructor
    · rintro (h | h | h)
      · exact .inl (.inr h)
      · exact .inl (.inl h)
      · exact .inr h
    · rintro ((h | h) | h)
      · exact .inr (.inl h)
      · exact .inl h
      · exact .inr (.inr h)

/-- Nothing is filled in where nothing is missing. -/
theorem fill_of_isSome {defaults : List (String × Primitive)} {fields : Fields}
    (h : ∀ d ∈ defaults, (Keyed.get? d.1 fields).isSome = true) : fill defaults fields = fields := by
  induction defaults generalizing fields with
  | nil => rfl
  | cons d rest ih =>
    have hd : Keyed.insertIfAbsent d.1 d.2.zero fields = fields :=
      if_pos (h d List.mem_cons_self)
    rw [fill, List.foldl_cons, hd]
    exact ih fun d' hd' => h d' (List.mem_cons_of_mem d hd')

theorem eq_primitive {t : ValueType} {p : Primitive} (h : (t == .primitive p) = true) :
    t = .primitive p := by
  cases t with
  | primitive q => rw [eq_of_beq (α := Primitive) h]
  | _ => cases h

/-- A property with a default takes values of the default's type only, if its
accessors agree. -/
theorem takes_of_default {c : ClassRef} {p : String × Primitive} (hc : s.AgreesOn c p.1)
    (hp : p ∈ (Descriptor.ofClass s c).defaults) {t : ValueType}
    (ht : (Descriptor.ofClass s c).Takes p.1 t) : t = .primitive p.2 := by
  obtain ⟨name, hm⟩ := Descriptor.accessor_of_default hp
  have htold := Descriptor.told_of_write hm
  rcases ht with rfl | ⟨name', hm'⟩
  · exact eq_primitive (Descriptor.typeOf_of_told hc htold).2
  · exact eq_primitive (hc _ _ (Descriptor.told_of_write hm') htold)

/-- A property with a default stays set. -/
theorem isSome_write {e next : Entity} {c : ClassRef} (hd : e.descriptor = Descriptor.ofClass s c)
    {p : String × Primitive} (hc : s.AgreesOn c p.1) (hp : p ∈ (Descriptor.ofClass s c).defaults)
    (h : (Keyed.get? p.1 e.attributes).isSome = true) {property : String} {t : ValueType}
    {value : Option FieldValue} (ht : e.descriptor.Takes property t)
    (hw : e.write s property t value = .ok next) :
    (Keyed.get? p.1 next.attributes).isSome = true := by
  rcases write_cases hw with ⟨-, hprimitive, rfl⟩ | ⟨v, stored, -, -, -, -, rfl⟩
  · have hne : p.1 ≠ property := by
      rintro rfl
      rw [hd] at ht
      rw [takes_of_default hc hp ht] at hprimitive
      cases hprimitive
    rw [Keyed.get?_erase, if_neg hne]
    exact h
  · rw [Keyed.get?_insert]
    split
    · rfl
    · exact h

/-- A property with a default is set in every reachable entity of a class whose
accessors of the property agree. -/
theorem Reachable.isSome_default {e : Entity} (h : e.Reachable s known) {c : ClassRef}
    (hd : e.descriptor = Descriptor.ofClass s c) {p : String × Primitive} (hc : s.AgreesOn c p.1)
    (hp : p ∈ (Descriptor.ofClass s c).defaults) :
    (Keyed.get? p.1 e.attributes).isSome = true := by
  induction h with
  | @create k k' c' seed e hk hc' _ hrun _ =>
    obtain ⟨c'', filled, -, -, rfl⟩ := run_instantiate hk hc' hrun
    rw [← hd] at hp
    exact isSome_fill.2 (.inl (List.mem_map_of_mem hp))
  | set _ _ hset ih =>
    have hd' := (write_ok hset).2.symm.trans hd
    exact isSome_write hd' hc hp (ih hd') (.inl rfl) hset
  | invoke _ _ hinv ih =>
    rcases invoke_cases hinv with rfl | ⟨property, t, value, ha, -, hw⟩
    · exact ih hd
    · have hd' := (write_ok hw).2.symm.trans hd
      exact isSome_write hd' hc hp (ih hd') (.inr ⟨_, Descriptor.mem_of_accessor? ha⟩) hw

/-- Each property with a default is set. -/
def Complete (e : Entity) : Prop :=
  ∀ d ∈ e.descriptor.defaults, (Keyed.get? d.1 e.attributes).isSome = true

/-- The properties with defaults are set in every reachable entity of a class
whose accessors agree. -/
theorem Reachable.complete {e : Entity} (h : e.Reachable s known) {c : ClassRef}
    (hd : e.descriptor = Descriptor.ofClass s c) (hc : s.Agrees c) : e.Complete :=
  fun _ hp => h.isSome_default hd (hc _) (hd ▸ hp)

end Entity
end Folio
