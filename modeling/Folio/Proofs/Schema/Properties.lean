import Folio.Proofs.Schema.Descriptors
import Folio.Proofs.Schema.Methods

/-!
# Properties and their accessors

What a descriptor says of the properties of a class is told by the accessors that the
class has, in whatever order they come: which properties there are, of which type each
of them is, how it can be accessed and whether it has a default.

Results:
* `name_mem_iff`: a property is listed if it has an accessor.
* `shape_iff`: the shape of a property is made by its accessors.
* `covers_of_methods`: classes with the same accessors have the same properties.
* `covers_of_declares`: so it does not matter in which order the same accessors are declared.
* `properties_told`: all that a descriptor says of properties, told by the accessors.
-/
namespace Folio

variable {s s' : Schema} {c c' : ClassRef} {k : String} {p : Property}

namespace Schema

/-- The class has an accessor that reads the property. -/
def Reads (s : Schema) (c : ClassRef) (property : String) : Prop :=
  ∃ m ∈ s.allMethods c, Accessor.ofMethod? m = some (.read property)

/-- The class has an accessor that writes the property. -/
def Writes (s : Schema) (c : ClassRef) (property : String) : Prop :=
  ∃ m ∈ s.allMethods c, ∃ t, Accessor.ofMethod? m = some (.write property t)

theorem reads_iff : s.Reads c k ↔ ∃ a ∈ given k (s.allMethods c), a.2 ≠ .writeOnly := by
  simp only [Reads, Method.reads_iff, exists_given]

theorem writes_iff : s.Writes c k ↔ ∃ a ∈ given k (s.allMethods c), a.2 ≠ .readOnly := by
  simp only [Writes, Method.writes_iff, exists_given]

/-- An accessor of a property reads or writes it. -/
theorem reads_or_writes_iff : s.Reads c k ∨ s.Writes c k ↔ ∃ t, s.Told c k t := by
  rw [reads_iff, writes_iff]
  simp only [Descriptor.told_iff]
  constructor
  · rintro (⟨a, ha, -⟩ | ⟨a, ha, -⟩)
    · exact ⟨a.1, a, ha, rfl⟩
    · exact ⟨a.1, a, ha, rfl⟩
  · rintro ⟨-, a, ha, -⟩
    by_cases hshape : a.2 = .writeOnly
    · exact .inr ⟨a, ha, by simp [hshape]⟩
    · exact .inl ⟨a, ha, hshape⟩

end Schema

namespace Descriptor

/-! ## One class -/

/-- A property is listed if it has an accessor. -/
theorem name_mem_iff :
    k ∈ (ofClass s c).properties.map (·.name) ↔ s.Reads c k ∨ s.Writes c k := by
  rw [Schema.reads_or_writes_iff, List.mem_map]
  constructor
  · rintro ⟨p, hp, rfl⟩
    obtain ⟨-, hsums⟩ := sums_of_property? (property?_of_mem hp)
    rcases hsums.type with ⟨⟨a, ha, -⟩, -⟩ | ⟨-, a, ha, -⟩
    · exact ⟨a.1, told_iff.2 ⟨a, ha, rfl⟩⟩
    · exact ⟨a.1, told_iff.2 ⟨a, ha, rfl⟩⟩
  · rintro ⟨t, htold⟩
    obtain ⟨p, hp⟩ := property?_of_told htold
    exact ⟨p, List.mem_of_find?_eq_some hp, (sums_of_property? hp).1⟩

/-- A property that only has readers or only has writers has the shape of those, and any
other has both. -/
theorem shape_iff (h : p ∈ (ofClass s c).properties) :
    (p.shape = .readOnly ↔ s.Reads c p.name ∧ ¬ s.Writes c p.name) ∧
    (p.shape = .writeOnly ↔ ¬ s.Reads c p.name ∧ s.Writes c p.name) ∧
    (p.shape = .readWrite ↔ s.Reads c p.name ∧ s.Writes c p.name) := by
  obtain ⟨-, hsums⟩ := sums_of_property? (property?_of_mem h)
  have hread : s.Reads c p.name ↔ p.shape ≠ .writeOnly := by
    rw [Schema.reads_iff, ne_eq, hsums.shape .writeOnly (by decide)]
    simp only [not_forall, exists_prop, ne_eq]
  have hwrite : s.Writes c p.name ↔ p.shape ≠ .readOnly := by
    rw [Schema.writes_iff, ne_eq, hsums.shape .readOnly (by decide)]
    simp only [not_forall, exists_prop, ne_eq]
  rw [hread, hwrite]
  cases p.shape <;> simp

/-- Defaults are of different properties. -/
theorem defaults_nodup (s : Schema) (c : ClassRef) : ((ofClass s c).defaults.map (·.1)).Nodup := by
  refine List.foldlRecOn (motive := fun d : Descriptor => (d.defaults.map (·.1)).Nodup)
    (s.allMethods c) add ?_ ?_
  · exact List.nodup_nil
  intro d hd m _
  rcases d.add_cases m with ⟨-, he⟩ | ⟨-, he⟩ | ⟨_, _, -, -, he⟩ | ⟨name, t, -, he⟩
  all_goals rw [he]
  · exact hd
  · exact hd
  · exact hd
  · show ((addDefault name t d.defaults).map (·.1)).Nodup
    unfold addDefault
    split
    · split
      · exact hd
      · next hnone =>
        rw [List.map_append, List.nodup_append]
        refine ⟨hd, List.nodup_singleton _, ?_⟩
        rintro a ha b hb rfl
        obtain ⟨p, hp, rfl⟩ := List.mem_map.1 ha
        rw [List.map_singleton, List.mem_singleton] at hb
        rw [Option.not_isSome_iff_eq_none, List.lookup_eq_none_iff] at hnone
        simpa [hb] using hnone p hp
    · exact hd

/-- A property has a default if one of its setters takes a primitive. -/
theorem default_iff : (∃ z, (k, z) ∈ (ofClass s c).defaults) ↔
    ∃ m ∈ s.allMethods c, ∃ z, Accessor.ofMethod? m = some (.write k (.primitive z)) := by
  constructor
  · rintro ⟨z, hz⟩
    obtain ⟨name, hwrite⟩ := accessor_of_default hz
    obtain ⟨m, hm, -, ha⟩ := mem_accessors hwrite
    exact ⟨m, hm, z, ha⟩
  · rintro ⟨m, hm, z, ha⟩
    exact default_of_mem hm ha (empty c)

/-! ## Classes with the same accessors -/

/-- Each property of the second descriptor is one of the first, accessed in the same way
and of a type that counts as the same. -/
def Covers (d d' : Descriptor) : Prop :=
  ∀ p ∈ d'.properties, ∃ q ∈ d.properties,
    q.name = p.name ∧ q.shape = p.shape ∧ (q.type == p.type) = true

/-- Classes with the same accessors have the same properties. -/
theorem covers_of_methods (h : ∀ m, m ∈ s'.allMethods c' ↔ m ∈ s.allMethods c) :
    (ofClass s' c').Covers (ofClass s c) := by
  have htold : ∀ k t, s'.Told c' k t ↔ s.Told c k t := by
    intro k t
    simp only [Schema.Told, h]
  have hreads : ∀ k, s'.Reads c' k ↔ s.Reads c k := by
    intro k
    simp only [Schema.Reads, h]
  have hwrites : ∀ k, s'.Writes c' k ↔ s.Writes c k := by
    intro k
    simp only [Schema.Writes, h]
  intro p hp
  have hname : p.name ∈ (ofClass s' c').properties.map (·.name) := by
    rw [name_mem_iff, hreads, hwrites, ← name_mem_iff]
    exact List.mem_map_of_mem hp
  obtain ⟨q, hq, hname⟩ := List.mem_map.1 hname
  refine ⟨q, hq, hname, ?_, ?_⟩
  · obtain ⟨hro, hwo, hrw⟩ := shape_iff hp
    obtain ⟨hro', hwo', hrw'⟩ := shape_iff hq
    rw [hname, hreads, hwrites] at hro' hwo' hrw'
    cases hshape : p.shape with
    | readOnly => rw [hro', ← hro, hshape]
    | writeOnly => rw [hwo', ← hwo, hshape]
    | readWrite => rw [hrw', ← hrw, hshape]
  · have hagrees : s'.AgreesOn c' p.name ↔ s.AgreesOn c p.name := by
      simp only [Schema.AgreesOn, htold]
    have hq' := property?_of_mem hq
    rw [hname] at hq'
    rcases type_of_property? (property?_of_mem hp) with ⟨ha, htype, -⟩ | ⟨hno, hany⟩
    · rcases type_of_property? hq' with ⟨-, -, hall⟩ | ⟨hno, -⟩
      · exact hall p.type ((htold _ _).2 htype)
      · exact absurd (hagrees.2 ha) hno
    · rcases type_of_property? hq' with ⟨ha, -⟩ | ⟨-, hany'⟩
      · exact absurd (hagrees.1 ha) hno
      · rw [hany, hany']
        rfl

/-- Where each accessor is declared one way, the order of declarations does not matter. -/
theorem covers_of_declares (h : ∀ m, s'.Declares c' m ↔ s.Declares c m)
    (hone : ∀ m n, s.Declares c m → s.Declares c n →
      Schema.signature m = Schema.signature n → m = n) :
    (ofClass s' c').Covers (ofClass s c) := by
  refine covers_of_methods fun m => ?_
  rw [Schema.mem_allMethods_iff hone, Schema.mem_allMethods_iff (by simpa only [h] using hone), h]

/-- What the descriptor of a class says of its properties. Each property with an accessor is
listed once. It has the type that its accessors give it if they agree, and any type if
they do not, and the shape that they make. Classes with the same accessors have the same
properties. There is one default for each property with a setter of a primitive type. -/
theorem properties_told (s : Schema) (c : ClassRef) :
    ((ofClass s c).properties.map (·.name)).Nodup ∧
    (∀ k, k ∈ (ofClass s c).properties.map (·.name) ↔ s.Reads c k ∨ s.Writes c k) ∧
    (∀ p ∈ (ofClass s c).properties,
      (s.AgreesOn c p.name →
        s.Told c p.name p.type ∧ ∀ t, s.Told c p.name t → (p.type == t) = true) ∧
      (¬ s.AgreesOn c p.name → p.type = .any) ∧
      (p.shape = .readOnly ↔ s.Reads c p.name ∧ ¬ s.Writes c p.name) ∧
      (p.shape = .writeOnly ↔ ¬ s.Reads c p.name ∧ s.Writes c p.name) ∧
      (p.shape = .readWrite ↔ s.Reads c p.name ∧ s.Writes c p.name)) ∧
    (∀ s' c', (∀ m, m ∈ s'.allMethods c' ↔ m ∈ s.allMethods c) →
      (ofClass s' c').Covers (ofClass s c) ∧ (ofClass s c).Covers (ofClass s' c')) ∧
    ((ofClass s c).defaults.map (·.1)).Nodup ∧
    ∀ k, (∃ z, (k, z) ∈ (ofClass s c).defaults) ↔
      ∃ m ∈ s.allMethods c, ∃ z, Accessor.ofMethod? m = some (.write k (.primitive z)) := by
  refine ⟨names_nodup s c, fun _ => name_mem_iff, ?_, ?_, defaults_nodup s c, fun _ => default_iff⟩
  · intro p hp
    refine ⟨?_, ?_, shape_iff hp⟩
    · intro ha
      rcases type_of_property? (property?_of_mem hp) with ⟨-, htype⟩ | ⟨hno, -⟩
      · exact htype
      · exact absurd ha hno
    · intro hno
      rcases type_of_property? (property?_of_mem hp) with ⟨ha, -⟩ | ⟨-, hany⟩
      · exact absurd ha hno
      · exact hany
  · intro s' c' h
    exact ⟨covers_of_methods h, covers_of_methods fun m => (h m).symm⟩

/-- Two classes with the same accessors in different places. Two of them disagree. -/
def twins : Schema where
  classes :=
    [{ name := "Gauge", form := .trait,
        methods := [.getter "getCount" (.primitive .int), .setter "setCount" (.primitive .int),
          .getter "getLabel" .text, .setter "setLabel" .bytes] },
      { name := "Meter", form := .trait,
        methods := [.setter "setLabel" .bytes, .setter "setCount" (.primitive .int)],
        capabilities :=
          [⟨"Read", [.getter "getLabel" .text, .getter "getCount" (.primitive .int)]⟩] }]

/-- The two references. -/
def gauge : ClassRef := ⟨0, "Gauge"⟩

@[inherit_doc gauge]
def meter : ClassRef := ⟨1, "Meter"⟩

theorem methods_gauge : twins.allMethods gauge = Schema.baseMethods ++
    [.getter "getCount" (.primitive .int), .setter "setCount" (.primitive .int),
      .getter "getLabel" .text, .setter "setLabel" .bytes] := by
  rw [Schema.allMethods, Schema.lineage_of_no_parents (d := twins.classes[0]) rfl rfl]
  decide

theorem methods_meter : twins.allMethods meter = Schema.baseMethods ++
    [.setter "setLabel" .bytes, .setter "setCount" (.primitive .int),
      .getter "getLabel" .text, .getter "getCount" (.primitive .int)] := by
  rw [Schema.allMethods, Schema.lineage_of_no_parents (d := twins.classes[1]) rfl rfl]
  decide

theorem properties_told_gauge :
    (∀ m, m ∈ twins.allMethods meter ↔ m ∈ twins.allMethods gauge) ∧
    (ofClass twins meter).Covers (ofClass twins gauge) ∧
    ¬ twins.AgreesOn gauge "label" ∧
    (∃ p ∈ (ofClass twins gauge).properties,
      p.name = "label" ∧ p.type = .any ∧ p.shape = .readWrite) ∧
    ∃ z, ("count", z) ∈ (ofClass twins gauge).defaults := by
  obtain ⟨-, hlisted, hall, hcovers, -, hdefault⟩ := properties_told twins gauge
  have hsame : ∀ m, m ∈ twins.allMethods meter ↔ m ∈ twins.allMethods gauge := by
    intro m
    rw [methods_meter, methods_gauge]
    simp only [List.mem_append, List.mem_cons, List.not_mem_nil, or_false]
    tauto
  have hget : Method.getter "getLabel" .text ∈ twins.allMethods gauge := by
    rw [methods_gauge]
    decide +kernel
  have hset : Method.setter "setLabel" .bytes ∈ twins.allMethods gauge := by
    rw [methods_gauge]
    decide +kernel
  have hcount : Method.setter "setCount" (.primitive .int) ∈ twins.allMethods gauge := by
    rw [methods_gauge]
    decide +kernel
  have hreads : twins.Reads gauge "label" := ⟨_, hget, by decide +kernel⟩
  have hwrites : twins.Writes gauge "label" := ⟨_, hset, .bytes, by decide +kernel⟩
  have hno : ¬ twins.AgreesOn gauge "label" := by
    intro hagrees
    have hbeq := hagrees .text .bytes ⟨_, hget, .inl ⟨by decide +kernel, rfl⟩⟩
      ⟨_, hset, .inr (by decide +kernel)⟩
    cases hbeq
  obtain ⟨p, hp, hname⟩ := List.mem_map.1 ((hlisted "label").2 (.inl hreads))
  obtain ⟨-, hany, -, -, hboth⟩ := hall p hp
  rw [hname] at hany hboth
  refine ⟨hsame, (hcovers twins meter hsame).1, hno, ?_, ?_⟩
  · exact ⟨p, hp, hname, hany hno, hboth.2 ⟨hreads, hwrites⟩⟩
  · exact (hdefault "count").2 ⟨_, hcount, .int, by decide +kernel⟩

end Descriptor
end Folio
