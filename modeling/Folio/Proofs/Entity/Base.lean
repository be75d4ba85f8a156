import Folio.Entity.Record
import Folio.Proofs.Entity.Reachable
import Folio.Proofs.Schema.Methods
import Folio.Proofs.Schema.Named

/-!
# Base properties

Every class has accessors for an identity and two times. A class whose lineage
declares no others for them keeps their types, so that an entity of the class
has no other values in them. Any entity can be stamped: no stamp is refused, and
taking one away is never refused either.

Results:
* `takes_base`: what a base property takes.
* `Reachable.based`: the base properties of a reachable entity hold an id and
  two times.
* `set_stamp`: setting or unsetting a base property succeeds.
-/
namespace Folio

variable {s : Schema} {c : ClassRef}

namespace Schema

/-- The names of the base properties and their types. -/
def baseProperties : List (String × ValueType) :=
  [(Naming.idProperty, .objectId), (Record.createdProperty, .dateTime),
    (Record.modifiedProperty, .dateTime)]

theorem id_base : (Naming.idProperty, .objectId) ∈ baseProperties := .head _

theorem created_base : (Record.createdProperty, .dateTime) ∈ baseProperties := .tail _ (.head _)

theorem modified_base : (Record.modifiedProperty, .dateTime) ∈ baseProperties :=
  .tail _ (.tail _ (.head _))

theorem type_base {p : String × ValueType} (hp : p ∈ baseProperties) :
    p.2 = .objectId ∨ p.2 = .dateTime := by
  simp only [baseProperties, List.mem_cons, List.not_mem_nil, or_false] at hp
  rcases hp with rfl | rfl | rfl
  · exact .inl rfl
  · exact .inr rfl
  · exact .inr rfl

/-- No class of the lineage declares an accessor of a base property. -/
def KeepsBase (s : Schema) (c : ClassRef) : Prop :=
  ∀ d ∈ s.lineage c, ∀ m ∈ declared d, ∀ p ∈ baseProperties, ∀ t, ¬ m.Tells p.1 t

/-- The base methods tell the base properties, and nothing else. -/
theorem told_baseMethods : baseMethods.map Method.told? = baseProperties.map some := by
  decide +kernel

theorem tells_base {p : String × ValueType} (hp : p ∈ baseProperties) :
    ∃ m ∈ baseMethods, m.Tells p.1 p.2 := by
  simp only [baseProperties, List.mem_cons, List.not_mem_nil, or_false] at hp
  rcases hp with rfl | rfl | rfl
  · exact ⟨.getter "getId" .objectId, by decide, .inl ⟨by decide +kernel, rfl⟩⟩
  · exact ⟨.getter "getDateCreated" .dateTime, by decide, .inl ⟨by decide +kernel, rfl⟩⟩
  · exact ⟨.getter "getLastModified" .dateTime, by decide, .inl ⟨by decide +kernel, rfl⟩⟩

/-- What is told of a base property is its type. -/
theorem eq_of_told_base (hc : s.KeepsBase c) {p : String × ValueType} (hp : p ∈ baseProperties)
    {t : ValueType} (h : s.Told c p.1 t) : t = p.2 := by
  obtain ⟨m, hm, htells⟩ := h
  rcases mem_allMethods hm with hm | ⟨d, hd, hm⟩
  · have htold : some (p.1, t) ∈ baseProperties.map some := by
      rw [← told_baseMethods, ← htells.told?]
      exact List.mem_map_of_mem hm
    obtain ⟨q, hq, heq⟩ := List.mem_map.1 htold
    have once : ∀ p ∈ baseProperties, ∀ q ∈ baseProperties, q.1 = p.1 → q.2 = p.2 := by
      decide
    cases Option.some.inj heq
    exact once p hp _ hq rfl
  · exact absurd htells (hc d hd m hm p hp t)

end Schema

namespace Descriptor

theorem typeOf_base (hc : s.KeepsBase c) {p : String × ValueType}
    (hp : p ∈ Schema.baseProperties) : (ofClass s c).typeOf p.1 = p.2 := by
  obtain ⟨m, hm, htells⟩ := Schema.tells_base hp
  have agrees : s.AgreesOn c p.1 := by
    intro t u ht hu
    rw [Schema.eq_of_told_base hc hp ht, Schema.eq_of_told_base hc hp hu]
    exact ValueType.beq_refl p.2
  have := (typeOf_of_told agrees ⟨m, Schema.base_mem_allMethods hm, htells⟩).1
  exact Schema.eq_of_told_base hc hp this

/-- Whatever a class declares, a base property has its type, or takes any value. -/
theorem typeOf_base_or (s : Schema) (c : ClassRef) {p : String × ValueType}
    (hp : p ∈ Schema.baseProperties) :
    (ofClass s c).typeOf p.1 = p.2 ∨ (ofClass s c).typeOf p.1 = .any := by
  obtain ⟨m, hm, htells⟩ := Schema.tells_base hp
  rcases typeOf_told ⟨m, Schema.base_mem_allMethods (s := s) (c := c) hm, htells⟩ with hsame | hany
  · refine .inl ?_
    generalize (ofClass s c).typeOf p.1 = t at hsame
    rcases Schema.type_base hp with hbase | hbase <;> rw [hbase] at hsame ⊢
    all_goals cases t <;> first | rfl | cases hsame
  · exact .inr hany

theorem takes_base (hc : s.KeepsBase c) {p : String × ValueType} (hp : p ∈ Schema.baseProperties)
    {t : ValueType} (ht : (ofClass s c).Takes p.1 t) : t = p.2 := by
  rcases ht with rfl | ⟨name, hm⟩
  · exact typeOf_base hc hp
  · exact Schema.eq_of_told_base hc hp (told_of_write hm)

end Descriptor

namespace Entity

/-- The base properties can be set, and what is set of them has their types. -/
structure Based (e : Entity) : Prop where
  sorted : Keyed.Sorted e.attributes
  types : ∀ p ∈ Schema.baseProperties, e.descriptor.typeOf p.1 = p.2
  values : ∀ p ∈ Schema.baseProperties, ∀ v, Keyed.get? p.1 e.attributes = some v → v.type = p.2

/-- A reachable entity is based, if the class that its descriptor is of keeps
the base properties. -/
theorem Reachable.based {known : ClassRef → Prop} {e : Entity} (h : e.Reachable s known)
    (hc : s.KeepsBase e.descriptor.cls) : e.Based := by
  obtain ⟨c, -, -, hd⟩ := h.sound.descriptor
  rw [hd, Descriptor.cls_ofClass] at hc
  refine ⟨h.sound.sorted, ?_, ?_⟩
  · rw [hd]
    exact fun p => Descriptor.typeOf_base hc
  · intro p hp v hv
    obtain ⟨t, ht, hk⟩ := h.sound.kept _ (Keyed.mem_of_get? hv)
    rw [hd] at ht
    have hfits := hk.fits
    rw [Descriptor.takes_base hc hp ht] at hfits
    rcases Schema.type_base hp with ht | ht <;> rw [ht] at hfits ⊢
    · cases v <;> first | rfl | (simp only [FieldValue.fits] at hfits; cases hfits)
    · cases v <;> first | rfl | (simp only [FieldValue.fits] at hfits; cases hfits)

/-- What is set of the base properties has their types. -/
def HoldsStamps (e : Entity) : Prop :=
  ∀ p ∈ Schema.baseProperties, ∀ v, Keyed.get? p.1 e.attributes = some v → v.type = p.2

/-- Each base property has its type, or takes any value. -/
def TakesStamps (e : Entity) : Prop :=
  ∀ p ∈ Schema.baseProperties, e.descriptor.typeOf p.1 = p.2 ∨ e.descriptor.typeOf p.1 = .any

theorem Based.takesStamps {e : Entity} (h : e.Based) : e.TakesStamps :=
  fun p hp => .inl (h.types p hp)

theorem Reachable.takesStamps {known : ClassRef → Prop} {e : Entity} (h : e.Reachable s known) :
    e.TakesStamps := by
  obtain ⟨c, -, -, hd⟩ := h.sound.descriptor
  intro p hp
  rw [hd]
  exact Descriptor.typeOf_base_or s c hp

/-- A value of a base property's type is kept by the property. -/
theorem kept_base {p : String × ValueType} (hp : p ∈ Schema.baseProperties) {v : FieldValue}
    (hv : v.type = p.2) {t : ValueType} (ht : t = p.2 ∨ t = .any) : v.Kept s t := by
  rcases Schema.type_base hp with hbase | hbase <;> rw [hbase] at hv ht
  all_goals
    cases v <;> cases hv
    rcases ht with rfl | rfl <;> exact ⟨rfl, rfl, rfl⟩

/-- Setting or unsetting a base property succeeds. -/
theorem set_stamp {e : Entity} (h : e.TakesStamps) {name : String} {t : ValueType}
    (hp : (name, t) ∈ Schema.baseProperties) {value : Option FieldValue}
    (hv : ∀ v, value = some v → v.type = t) (s : Schema) :
    e.set s name value = .ok { e with attributes := Keyed.set name value e.attributes } := by
  rw [set]
  cases value with
  | some v => exact write_kept (kept_base hp (hv v rfl) (h _ hp)) e name
  | none =>
    have : ∀ p ∈ Schema.baseProperties, p.2.isPrimitive = false := by decide
    have htype : (e.descriptor.typeOf name).isPrimitive = false := by
      rcases h _ hp with ht | ht <;> rw [ht]
      · exact this _ hp
      · rfl
    rw [write, htype]
    rfl

/-- A reachable entity with another stamp is reachable. -/
theorem Reachable.stamp {known : ClassRef → Prop} {e : Entity} (h : e.Reachable s known)
    {name : String} {t : ValueType} (hp : (name, t) ∈ Schema.baseProperties)
    (value : Option FieldValue) (hv : ∀ v, value = some v → v.type = t) :
    Reachable s known { e with attributes := Keyed.set name value e.attributes } := by
  refine .set h (fun v hvalue n hn => ?_) (set_stamp h.takesStamps hp hv s)
  have htype := hv v hvalue
  -- neither an id nor a time has parts
  rcases Schema.type_base hp with h | h <;> rw [show t = _ from h] at htype
  all_goals
    cases v <;> cases htype
    cases FieldValue.eq_of_partOf_leaf rfl hn

end Entity
end Folio
