import Folio.Proofs.Entity.Features

/-!
# The mark of a defunct record

Where a class can be defunct, the capability has the accessors of its mark. If
the lineage has no accessor of the mark with another type, and no other method
in the place of the setter, then the mark of an entity is a flag and is never
unset.

Results:
* `typeOf_mark`: the type of the mark.
* `Reachable.mark`: a reachable entity has a mark.
-/
namespace Folio

variable {s : Schema} {c : ClassRef}

/-- The setter of the mark. -/
def Method.setDefunct : Method := .setter "setDefunct" (.primitive .bool)

namespace Schema

/-- The class can be defunct; along its lineage every accessor of the mark is one
of a flag, and no other method has the name and the parameter of the setter. -/
structure Marks (s : Schema) (c : ClassRef) : Prop where
  capable : ∃ d ∈ s.lineage c, Capability.defunctable ∈ d.capabilities
  flags : ∀ d ∈ s.lineage c, ∀ m ∈ declared d, ∀ t, m.Tells defunctProperty t → t = .primitive .bool
  setter : ∀ d ∈ s.lineage c, ∀ m ∈ declared d, m.name = Method.setDefunct.name →
    m.params.length = 1 → m = .setDefunct

theorem Marks.carries (h : s.Marks c) : s.Carries .marking c := ⟨h.capable, h.flags, h.setter⟩

/-- The mark is never unset. -/
theorem Marks.default (h : s.Marks c) :
    (defunctProperty, .bool) ∈ (Descriptor.ofClass s c).defaults := by
  have hwrites : Accessor.ofMethod? .setDefunct = some (.write defunctProperty (.primitive .bool)) := by
    decide +kernel
  obtain ⟨p, hp⟩ := Descriptor.default_of_mem h.carries.accessor_mem hwrites (.empty c)
  obtain ⟨name, hm⟩ := Descriptor.accessor_of_default hp
  cases h.carries.told (f := .marking) (Descriptor.told_of_write hm)
  exact hp

end Schema

theorem Descriptor.typeOf_mark (h : s.Marks c) :
    (ofClass s c).typeOf defunctProperty = .primitive .bool := typeOf_feature h.carries

/-- A reachable entity has a mark, if the class that its descriptor is of has. -/
theorem Entity.Reachable.mark {known : ClassRef → Prop} {e : Entity} (h : e.Reachable s known)
    (hm : s.Marks e.descriptor.cls) :
    ∃ flag, Keyed.get? defunctProperty e.attributes = some (.bool flag) := by
  obtain ⟨c, -, -, hd⟩ := h.sound.descriptor
  rw [hd, Descriptor.cls_ofClass] at hm
  obtain ⟨v, hv⟩ := Option.isSome_iff_exists.1 (h.isSome_default hd hm.carries.agreesOn hm.default)
  obtain ⟨t, ht, hkept⟩ := h.sound.kept _ (Keyed.mem_of_get? hv)
  rw [hd] at ht
  have hfits := hkept.fits
  rw [Descriptor.takes_feature (f := .marking) hm.carries ht] at hfits
  have htype := Entity.eq_primitive hfits
  cases v <;> cases htype
  exact ⟨_, hv⟩

end Folio
