import Folio.Proofs.Entity.Base
import Folio.Service.Builtin

/-!
# Properties that capabilities bring

A capability has accessors for a property. Where a class has the capability, and
its lineage neither gives the property another type nor puts another method in the
place of the accessor, the property takes values of its type only. So a property
that is a text is a text or not set, in every entity of the class.

Results:
* `Schema.Carries`: what is asked of a class.
* `takes_feature`, `typeOf_feature`: what the property takes.
* `Reachable.text`: the property of a reachable entity, if it is a text.
-/
namespace Folio

/-- A property that comes with a capability, and one of its accessors. It is none of
the properties of all classes. -/
structure Feature where
  capability : Capability
  accessor : Method
  property : String
  type : ValueType
  mem : accessor ∈ capability.methods
  tells : accessor.Tells property type
  unstamped : property ∉ Schema.baseProperties.map (·.1)
  unlike : accessor.name ∉ Schema.baseMethods.map (·.name)

namespace Feature

/-- The name of a record. -/
def naming : Feature where
  capability := .namable
  accessor := .getter "getName" .text
  property := nameProperty
  type := .text
  mem := List.mem_cons_self
  tells := .inl ⟨by decide +kernel, rfl⟩
  unstamped := by decide
  unlike := by decide

/-- The description of a record. -/
def describing : Feature where
  capability := .describable
  accessor := .getter "getDescription" .text
  property := descriptionProperty
  type := .text
  mem := List.mem_cons_self
  tells := .inl ⟨by decide +kernel, rfl⟩
  unstamped := by decide
  unlike := by decide

/-- The mark of a defunct record. -/
def marking : Feature where
  capability := .defunctable
  accessor := .setter "setDefunct" (.primitive .bool)
  property := defunctProperty
  type := .primitive .bool
  mem := List.mem_cons_of_mem _ List.mem_cons_self
  tells := .inr (by decide +kernel)
  unstamped := by decide
  unlike := by decide

end Feature

variable {s : Schema} {c : ClassRef} {f : Feature}

namespace Schema

/-- The class has the capability; along its lineage every accessor of the property
gives it the type, and no other method has the name and the number of parameters
of the accessor. -/
structure Carries (s : Schema) (f : Feature) (c : ClassRef) : Prop where
  capable : ∃ d ∈ s.lineage c, f.capability ∈ d.capabilities
  types : ∀ d ∈ s.lineage c, ∀ m ∈ declared d, ∀ t, m.Tells f.property t → t = f.type
  alone : ∀ d ∈ s.lineage c, ∀ m ∈ declared d, m.name = f.accessor.name →
    m.params.length = f.accessor.params.length → m = f.accessor

theorem Carries.implements (h : s.Carries f c) : s.implements c f.capability = true := by
  obtain ⟨d, hd, hm⟩ := h.capable
  exact List.any_eq_true.2 ⟨d, hd, List.any_eq_true.2 ⟨_, hm, beq_self_eq_true _⟩⟩

/-- A class without parents has the property as it declares it. -/
theorem Carries.of_lineage {d : EntityClass} (hlineage : s.lineage c = [d])
    (hcapable : f.capability ∈ d.capabilities)
    (htypes : ∀ m ∈ declared d, ∀ p ∈ m.told?, p.1 = f.property → p.2 = f.type)
    (halone : ∀ m ∈ declared d, m.name = f.accessor.name →
      m.params.length = f.accessor.params.length → m = f.accessor) : s.Carries f c := by
  refine ⟨?_, ?_, ?_⟩ <;> rw [hlineage]
  · exact ⟨d, List.mem_singleton_self d, hcapable⟩
  · intro d' hd m hm t ht
    cases List.mem_singleton.1 hd
    exact htypes m hm _ ht.told? rfl
  · intro d' hd
    cases List.mem_singleton.1 hd
    exact halone

/-- What is told of the property is its type. -/
theorem Carries.told (h : s.Carries f c) {t : ValueType} (ht : s.Told c f.property t) :
    t = f.type := by
  obtain ⟨m, hm, htells⟩ := ht
  rcases mem_allMethods hm with hm | ⟨d, hd, hm⟩
  · have htold : some (f.property, t) ∈ baseProperties.map some := by
      rw [← told_baseMethods, ← htells.told?]
      exact List.mem_map_of_mem hm
    obtain ⟨p, hp, heq⟩ := List.mem_map.1 htold
    cases heq
    exact absurd (List.mem_map_of_mem hp) f.unstamped
  · exact h.types d hd m hm t htells

theorem Carries.agreesOn (h : s.Carries f c) : s.AgreesOn c f.property := by
  intro t u ht hu
  rw [h.told ht, h.told hu]
  exact ValueType.beq_refl _

theorem Carries.accessor_mem (h : s.Carries f c) : f.accessor ∈ s.allMethods c := by
  obtain ⟨d, hd, hcapable⟩ := h.capable
  have hdeclared : f.accessor ∈ declared d :=
    List.mem_append_right _ (List.mem_flatMap.2 ⟨_, hcapable, f.mem⟩)
  refine mem_foldl_of_alone (List.mem_append_right _ (List.mem_flatMap.2 ⟨d, hd, hdeclared⟩)) ?_
  intro n hn hname hparams
  rcases hn with hn | hn
  · cases hn
  · rcases List.mem_append.1 hn with hn | hn
    · exact absurd (hname ▸ List.mem_map_of_mem hn) f.unlike
    · obtain ⟨d', hd', hn⟩ := List.mem_flatMap.1 hn
      exact h.alone d' hd' n hn hname hparams

end Schema

namespace Descriptor

theorem typeOf_feature (h : s.Carries f c) : (ofClass s c).typeOf f.property = f.type :=
  h.told (typeOf_of_told h.agreesOn ⟨f.accessor, h.accessor_mem, f.tells⟩).1

theorem takes_feature (h : s.Carries f c) {t : ValueType} (ht : (ofClass s c).Takes f.property t) :
    t = f.type := by
  rcases ht with rfl | ⟨name, hm⟩
  · exact typeOf_feature h
  · exact h.told (told_of_write hm)

/-- Only a property of a primitive type has a default. -/
theorem notMem_defaults (h : s.Carries f c) (hf : f.type.isPrimitive = false) :
    f.property ∉ (ofClass s c).defaults.map (·.1) := by
  intro hmem
  obtain ⟨p, hp, hname⟩ := List.mem_map.1 hmem
  obtain ⟨name, hm⟩ := accessor_of_default hp
  rw [hname] at hm
  rw [← h.told (told_of_write hm)] at hf
  cases hf

end Descriptor

/-- The descriptor of a reachable entity is of a known class with the name of its
own. -/
theorem Entity.Reachable.cls_descriptor {known : ClassRef → Prop} {e : Entity}
    (h : e.Reachable s known) : known e.descriptor.cls ∧ e.descriptor.cls.name = e.cls.name := by
  obtain ⟨c, hknown, hown, hd⟩ := h.sound.descriptor
  rw [hd, Descriptor.cls_ofClass]
  exact ⟨hknown, hown⟩

/-- A property that is a text is a text or not set. -/
theorem Entity.Reachable.text {known : ClassRef → Prop} {e : Entity} (h : e.Reachable s known)
    (hc : s.Carries f e.descriptor.cls) (hf : f.type = .text) :
    ∃ text : Option String, Keyed.get? f.property e.attributes = text.map .text := by
  obtain ⟨c, -, -, hd⟩ := h.sound.descriptor
  rw [hd, Descriptor.cls_ofClass] at hc
  cases hv : Keyed.get? f.property e.attributes with
  | none => exact ⟨none, rfl⟩
  | some v =>
    obtain ⟨t, ht, hkept⟩ := h.sound.kept _ (Keyed.mem_of_get? hv)
    rw [hd] at ht
    have hfits := hkept.fits
    rw [Descriptor.takes_feature hc ht, hf] at hfits
    cases v <;> first | cases hfits; done | exact ⟨some _, rfl⟩

end Folio
