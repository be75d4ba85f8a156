import Folio.Proofs.Entity.Reachable
import Folio.Proofs.Schema.Setters

/-!
# What entities keep under the types of their properties

A property is written in three ways: by its name, under the type that the
descriptor gives it; by a setter, under the type of the setter's parameter; and
in a new entity, where nothing else is set, with the zero of a setter of a
primitive type. A descriptor gives a property any type where its accessors
disagree, so the three agree only where a setter has the type of its property,
or takes nothing that would be kept otherwise where no type is declared.

Results:
* `Settles.of_settles`: a check of the descriptor for it.
* `kept_of_setter`: what a settled setter keeps, the property keeps.
* `Checked.write`, `checked_create`: entities of settled classes are checked.
-/
namespace Folio

variable {s : Schema} {known : ClassRef → Prop} {c : ClassRef}

theorem ValueType.isPrimitive_congr {t u : ValueType} (h : (t == u) = true) :
    t.isPrimitive = u.isPrimitive := by
  cases t <;> cases u <;> first | rfl | cases h

namespace FieldValue

/-- Values fit types that count as the same alike. -/
theorem fits_congr {t u : ValueType} (h : (t == u) = true) (v : FieldValue) :
    v.fits s t = v.fits s u := by
  change ValueType.same t u = true at h
  induction t generalizing u v with
  | list t ih =>
    cases u with
    | list u =>
      rw [fits, fits]
      cases v.list? with
      | none => rfl
      | some items => exact List.all_congr rfl fun v => ih v h
    | _ => cases h
  | enum e =>
    cases u with
    | enum f =>
      have hname : e.name = f.name := eq_of_beq h
      cases v with
      | enum x =>
        show (x.cls.name == e.name) = (x.cls.name == f.name)
        rw [hname]
      | _ => rfl
    | _ => cases h
  | entity c =>
    cases u with
    | entity d =>
      have hname : c.name = d.name := eq_of_beq h
      cases v with
      | entity e => simp only [fits, Schema.isA, hname]
      | _ => rfl
    | _ => cases h
  | primitive p =>
    cases u with
    | primitive q => rw [eq_of_beq (α := Primitive) h]
    | _ => cases h
  | boxed p =>
    cases u with
    | boxed q => rw [eq_of_beq (α := Primitive) h]
    | _ => cases h
  | foreign name =>
    cases u with
    | foreign other => rw [eq_of_beq (α := String) h]
    | _ => cases h
  | _ => cases u <;> first | rfl | cases h

theorem storedForm_congr {t u : ValueType} (h : (t == u) = true) (v : FieldValue) :
    v.storedForm t = v.storedForm u := by
  change ValueType.same t u = true at h
  induction t generalizing u v with
  | list t ih =>
    cases u with
    | list u =>
      cases v with
      | list items =>
        have hitems : storedForm t = storedForm u := funext fun v => ih v h
        rw [storedForm, storedForm, hitems]
      | _ => rfl
    | _ => cases h
  | _ => cases u <;> cases v <;> first | rfl | cases h

theorem Kept.congr {t u : ValueType} {v : FieldValue} (h : (t == u) = true) (hv : v.Kept s u) :
    v.Kept s t :=
  ⟨(fits_congr h v).trans hv.fits, hv.number, (storedForm_congr h v).trans hv.stored⟩

/-- What a property keeps of a value is kept by it. -/
theorem kept_storedForm {t : ValueType} {v stored : FieldValue} (hf : v.fits s t = true)
    (hn : v.hasNaN = false) (h : v.storedForm t = .ok stored) : stored.Kept s t :=
  ⟨fits_storedForm h hf, hasNaN_storedForm h hn, storedForm_storedForm h⟩

/-- A value as it may be handed in: entities in it are reachable, and symbols are
some of their enumerations. -/
structure Real (s : Schema) (known : ClassRef → Prop) (v : FieldValue) : Prop where
  entities : ∀ n, (entity n).PartOf v → n.Reachable s known
  symbols : ∀ e, (enum e).PartOf v → e.ordinal < e.cls.symbols.length

end FieldValue

/-- What is kept of values of the type is kept of them too where no type is
declared. -/
def ValueType.Plain (s : Schema) (known : ClassRef → Prop) (t : ValueType) : Prop :=
  ∀ v stored : FieldValue, v.Real s known → v.fits s t = true → v.hasNaN = false →
    v.storedForm t = .ok stored → stored.untyped = .ok stored

/-- Whether values of the kind are no others where no type is declared. -/
def Primitive.isSteady : Primitive → Bool
  | bool | long | double => true
  | _ => false

/-- Whether no value of the type becomes another one where no type is declared. -/
def ValueType.isSteady : ValueType → Bool
  | .primitive p | .boxed p => p.isSteady
  | .enum _ | .entity _ | .foreign _ => false
  | .list t => t.isSteady
  | _ => true

theorem FieldValue.untyped_of_primitive {p : Primitive} (hp : p.isSteady = true) {v : FieldValue}
    (h : (v.type == .primitive p) = true) : v.untyped = .ok v := by
  cases p with
  | bool => cases v <;> first | rfl | cases h
  | long => cases v <;> first | rfl | cases h
  | double => cases v <;> first | rfl | cases h
  | _ => cases hp

theorem FieldValue.untyped_of_isSteady {t : ValueType} (ht : t.isSteady = true)
    {v stored : FieldValue} (hf : v.fits s t = true) (h : v.storedForm t = .ok stored) :
    stored.untyped = .ok stored := by
  induction t generalizing v stored with
  | any => exact (untyped_ok h).1
  | list t ih =>
    obtain ⟨items, rfl⟩ : ∃ items, v = list items := by
      cases v with
      | list items => exact ⟨items, rfl⟩
      | _ => cases hf
    obtain ⟨ws, hws, rfl⟩ := storedForm_list.1 h
    refine untyped_list.2 ⟨ws, mapM_self fun w hw => ?_, rfl⟩
    obtain ⟨x, hx, hxw⟩ := mem_of_mapM hws w hw
    exact ih ht (fits_list.1 hf x hx) hxw
  | primitive p =>
    cases h
    exact untyped_of_primitive ht hf
  | boxed p =>
    cases h
    exact untyped_of_primitive ht hf
  | enum e => cases ht
  | entity c => cases ht
  | foreign name => cases ht
  | _ =>
    cases h
    cases v <;> first | rfl | cases hf

/-- Each setter of the class has the type of its property, or a type of values that
may be unset and are kept alike where no type is declared. -/
def Schema.Settles (s : Schema) (known : ClassRef → Prop) (c : ClassRef) : Prop :=
  ∀ name property t, (Descriptor.ofClass s c).accessor? name = some (.write property t) →
    ((Descriptor.ofClass s c).typeOf property == t) = true ∨
      t.isPrimitive = false ∧ t.Plain s known

/-- Whether each setter has the type of its property, or one of values that may be
unset and do not become others where no type is declared. -/
def Descriptor.settles (d : Descriptor) : Bool :=
  d.accessors.all fun a =>
    match a.2 with
    | .write property t => d.typeOf property == t || !t.isPrimitive && t.isSteady
    | _ => true

namespace Schema.Settles

theorem of_settles (h : (Descriptor.ofClass s c).settles = true) : s.Settles known c := by
  intro name property t ha
  have hone := List.all_eq_true.1 h _ (Descriptor.mem_of_accessor? ha)
  rcases Bool.or_eq_true_iff.1 hone with heq | hsteady
  · exact .inl heq
  · obtain ⟨hp, ht⟩ := Bool.and_eq_true_iff.1 hsteady
    refine .inr ⟨by simpa using hp, fun v stored _ hf _ hst => ?_⟩
    exact FieldValue.untyped_of_isSteady ht hf hst

variable {name property : String} {t : ValueType}

/-- The property of a setter of a primitive type has this type. -/
theorem typeOf (h : s.Settles known c) {p : Primitive}
    (ha : (Descriptor.ofClass s c).accessor? name = some (.write property (.primitive p))) :
    (Descriptor.ofClass s c).typeOf property = .primitive p := by
  rcases h name property _ ha with heq | ⟨hp, -⟩
  · exact Entity.eq_primitive heq
  · cases hp

/-- So has the property of a default. -/
theorem typeOf_default (h : s.Settles known c) {d : String × Primitive}
    (hd : d ∈ (Descriptor.ofClass s c).defaults) :
    (Descriptor.ofClass s c).typeOf d.1 = .primitive d.2 := by
  obtain ⟨name, hm⟩ := Descriptor.accessor_of_default hd
  exact h.typeOf (Descriptor.accessor?_of_mem hm)

/-- What a settled setter keeps, its property keeps. -/
theorem kept_of_setter (h : s.Settles known c)
    (ha : (Descriptor.ofClass s c).accessor? name = some (.write property t))
    {v stored : FieldValue} (hv : v.Real s known) (hf : v.fits s t = true) (hn : v.hasNaN = false)
    (hst : v.storedForm t = .ok stored) :
    stored.Kept s ((Descriptor.ofClass s c).typeOf property) := by
  have hkept := FieldValue.kept_storedForm hf hn hst
  rcases Descriptor.typeOf_told (Descriptor.told_of_write (Descriptor.mem_of_accessor? ha))
    with heq | hany
  · exact hkept.congr heq
  · rcases h name property t ha with heq | ⟨-, hplain⟩
    · exact hkept.congr heq
    · rw [hany]
      refine ⟨?_, hkept.number, hplain v stored hv hf hn hst⟩
      cases stored <;> rfl

end Schema.Settles

namespace Entity

/-- What each property holds is kept under the type that the descriptor gives it,
and properties with setters of primitive types are set. -/
structure Checked (s : Schema) (e : Entity) : Prop where
  kept : ∀ a ∈ e.attributes, a.2.Kept s (e.descriptor.typeOf a.1)
  present : ∀ name property p, e.descriptor.accessor? name = some (.write property (.primitive p)) →
    (e.get? property).isSome = true

/-- The property is written under the type that the descriptor or a setter gives it. -/
def WrittenAs (e : Entity) (property : String) (t : ValueType) : Prop :=
  t = e.descriptor.typeOf property ∨ ∃ name, e.descriptor.accessor? name = some (.write property t)

variable {e next : Entity} {property : String} {t : ValueType} {value : Option FieldValue}

theorem sorted_write (hsorted : Keyed.Sorted e.attributes)
    (hw : e.write s property t value = .ok next) : Keyed.Sorted next.attributes := by
  rcases write_cases hw with ⟨-, -, rfl⟩ | ⟨v, stored, -, -, -, -, rfl⟩
  · exact Keyed.erase_sorted property hsorted
  · exact Keyed.insert_sorted property stored hsorted

theorem kept_write (hs : s.Settles known c) (hd : e.descriptor = Descriptor.ofClass s c)
    (hsorted : Keyed.Sorted e.attributes)
    (he : ∀ a ∈ e.attributes, a.2.Kept s (e.descriptor.typeOf a.1)) (ht : e.WrittenAs property t)
    (hv : ∀ v, value = some v → v.Real s known) (hw : e.write s property t value = .ok next) :
    ∀ a ∈ next.attributes, a.2.Kept s (next.descriptor.typeOf a.1) := by
  rw [(write_ok hw).2]
  rcases write_cases hw with ⟨-, -, rfl⟩ | ⟨v, stored, hval, hf, hn, hst, rfl⟩
  · exact fun a ha => he a (List.mem_filter.1 ha).1
  · intro a ha
    rcases (Keyed.mem_insert hsorted).1 ha with rfl | ⟨ha, -⟩
    · rcases ht with rfl | ⟨name, hname⟩
      · exact FieldValue.kept_storedForm hf hn hst
      · rw [hd] at hname ⊢
        exact hs.kept_of_setter hname (hv v hval) hf hn hst
    · exact he a ha

/-- A property with a setter of a primitive type is not written as if it could be
unset. -/
theorem WrittenAs.isPrimitive (ht : e.WrittenAs property t) (hs : s.Settles known c)
    (hd : e.descriptor = Descriptor.ofClass s c) {name : String} {p : Primitive}
    (ha : e.descriptor.accessor? name = some (.write property (.primitive p))) :
    t.isPrimitive = true := by
  unfold WrittenAs at ht
  rw [hd] at ha ht
  have htype := hs.typeOf ha
  rcases ht with rfl | ⟨other, hother⟩
  · rw [htype]
    rfl
  · rcases Descriptor.typeOf_told (Descriptor.told_of_write (Descriptor.mem_of_accessor? hother))
      with heq | hany
    · rw [← ValueType.isPrimitive_congr heq, htype]
      rfl
    · cases htype.symm.trans hany

theorem present_write (hs : s.Settles known c) (hd : e.descriptor = Descriptor.ofClass s c)
    (ht : e.WrittenAs property t) (hw : e.write s property t value = .ok next) {name k : String}
    {p : Primitive} (ha : e.descriptor.accessor? name = some (.write k (.primitive p)))
    (he : (e.get? k).isSome = true) : (next.get? k).isSome = true := by
  rcases write_cases hw with ⟨-, hprimitive, rfl⟩ | ⟨v, stored, -, -, -, -, rfl⟩
  · have hne : k ≠ property := by
      rintro rfl
      cases hprimitive.symm.trans (ht.isPrimitive hs hd ha)
    rw [get?, Keyed.get?_erase, if_neg hne]
    exact he
  · rw [get?, Keyed.get?_insert]
    split
    · rfl
    · exact he

/-- An entity of a settled class stays checked. -/
theorem Checked.write (he : e.Checked s) (hs : s.Settles known c)
    (hd : e.descriptor = Descriptor.ofClass s c) (hsorted : Keyed.Sorted e.attributes)
    (ht : e.WrittenAs property t) (hv : ∀ v, value = some v → v.Real s known)
    (hw : e.write s property t value = .ok next) : next.Checked s := by
  refine ⟨kept_write hs hd hsorted he.kept ht hv hw, fun name k p ha => ?_⟩
  rw [(write_ok hw).2] at ha
  exact present_write hs hd ht hw ha (he.present name k p ha)

/-- Properties that are set one after another are kept. -/
theorem kept_seed (hs : s.Settles known c) {d : ClassRef} {seed : Fields}
    (hseed : ∀ a ∈ seed, a.2.Real s known) {filled : Entity}
    (h : seed.foldlM (fun (e : Entity) f => e.set s f.1 (some f.2))
      ⟨d, Descriptor.ofClass s c, []⟩ = .ok filled) :
    filled.descriptor = Descriptor.ofClass s c ∧ Keyed.Sorted filled.attributes ∧
      ∀ a ∈ filled.attributes, a.2.Kept s (filled.descriptor.typeOf a.1) := by
  refine foldlM_set (P := fun e => e.descriptor = Descriptor.ofClass s c ∧
    Keyed.Sorted e.attributes ∧ ∀ a ∈ e.attributes, a.2.Kept s (e.descriptor.typeOf a.1))
    ⟨rfl, .nil, fun a ha => by cases ha⟩ ?_ h
  rintro a ha e next ⟨hd, hsorted, hkept⟩ hset
  refine ⟨(write_ok hset).2.trans hd, sorted_write hsorted hset, ?_⟩
  exact kept_write hs hd hsorted hkept (.inl rfl) (fun v hv => by cases hv; exact hseed a ha) hset

/-- An entity that is made of a settled class is checked. -/
theorem checked_create (hs : s.Settles known c) {d : ClassRef} {seed : Fields}
    (hseed : ∀ a ∈ seed, a.2.Real s known) {filled : Entity}
    (h : seed.foldlM (fun (e : Entity) f => e.set s f.1 (some f.2))
      ⟨d, Descriptor.ofClass s c, []⟩ = .ok filled) : filled.fillDefaults.Checked s := by
  obtain ⟨hd, hsorted, hkept⟩ := kept_seed hs hseed h
  constructor
  · intro a ha
    rcases mem_fill hsorted ha with ha | ⟨p, hp, rfl⟩
    · exact hkept a ha
    · show p.2.zero.Kept s (filled.descriptor.typeOf p.1)
      rw [hd] at hp ⊢
      rw [hs.typeOf_default hp]
      exact zero_kept s p.2
  · intro name property p ha
    have ha : filled.descriptor.accessor? name = some (.write property (.primitive p)) := ha
    rw [hd] at ha
    obtain ⟨m, hm, -, hwrite⟩ := Descriptor.mem_accessors (Descriptor.mem_of_accessor? ha)
    obtain ⟨q, hq⟩ := Descriptor.default_of_mem hm hwrite (Descriptor.empty c)
    refine isSome_fill.2 (.inl (List.mem_map.2 ⟨(property, q), ?_, rfl⟩))
    rw [hd]
    exact hq

/-- A call of a setter writes under its type. -/
theorem invoke_write {name : String}
    (ha : e.descriptor.accessor? name = some (.write property t))
    (hw : e.write s property t value = .ok next) : e.invoke s name [value] = .ok (none, next) := by
  unfold invoke
  rw [ha]
  show (e.write s property t value).map (none, ·) = _
  rw [hw]
  rfl

/-- What is written is reached by setting or by calling the setter. -/
theorem Reachable.written (he : e.Reachable s known) (ht : e.WrittenAs property t)
    (hv : ∀ v, value = some v → v.Real s known) (hw : e.write s property t value = .ok next) :
    next.Reachable s known := by
  rcases ht with rfl | ⟨name, hname⟩
  · exact .set he (fun v h => (hv v h).entities) hw
  · refine .invoke he (fun v h => ?_) (invoke_write hname hw)
    exact (hv v (List.mem_singleton.1 h).symm).entities

end Entity
end Folio
