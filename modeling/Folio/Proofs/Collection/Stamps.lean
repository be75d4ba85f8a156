import Folio.Collection.Save
import Folio.Proofs.Entity.Base
import Folio.Proofs.Registry.Documents

/-!
# Stamping and unstamping

An entity takes every stamp. Where its base properties hold nothing but stamps,
these are all that is needed to make it again from an entity that differs from
it in its stamps only.

Results:
* `modify_cases`: what setting a property does.
* `run_apply`: stamps are written into the base properties.
* `ofRecord_withStamps`: an entity has the stamps that were written into it.
* `restamped_eq_iff`: when an entity has nothing but stamps to restore.
* `run_restore`: restoring the stamps of an entity gives the entity back.
-/
namespace Folio

variable {e x : Entity} {b : Backend}

/-- Setting or unsetting a property of an entity sets it, or fails and leaves
everything as it is. -/
theorem Held.modify_cases (name : String) (value : Option FieldValue) (h : Held Entity) :
    (∃ failure, h.record.set h.backend.registry.catalog.schema name value = .error failure ∧
      (Held.modify name value : HeldM Entity Unit).run h = (.error failure, h)) ∨
    ∃ next, h.record.set h.backend.registry.catalog.schema name value = .ok next ∧
      (Held.modify name value : HeldM Entity Unit).run h = (.ok (), { h with record := next }) := by
  have hmodify : Record.modify? (E := Entity) = some Entity.set := rfl
  rw [Held.modify, hmodify]
  simp only [ExceptT.run, ExceptT.mk]
  cases hset : h.record.set h.backend.registry.catalog.schema name value with
  | error failure => exact .inl ⟨failure, rfl, rfl⟩
  | ok next => exact .inr ⟨next, rfl, rfl⟩

theorem Held.run_modify {name : String} {value : Option FieldValue}
    (h : e.set b.registry.catalog.schema name value = .ok x) :
    (Held.modify name value : HeldM Entity Unit).run ⟨e, b⟩ = (.ok (), ⟨x, b⟩) := by
  rcases modify_cases name value ⟨e, b⟩ with ⟨failure, hset, -⟩ | ⟨next, hset, hrun⟩
  · cases h.symm.trans hset
  · cases h.symm.trans hset
    exact hrun

/-- The entities differ in their stamps only. -/
structure Entity.Alike (e x : Entity) : Prop where
  cls : x.cls = e.cls
  descriptor : x.descriptor = e.descriptor
  sorted : Keyed.Sorted x.attributes
  others : ∀ k, k ∉ Schema.baseProperties.map (·.1) →
    Keyed.get? k x.attributes = Keyed.get? k e.attributes

/-- Setting a base property leaves all but the stamps as they are. -/
theorem Entity.Alike.set (h : e.Alike x) {name : String} {t : ValueType}
    (hp : (name, t) ∈ Schema.baseProperties) (value : Option FieldValue) :
    e.Alike { x with attributes := Keyed.set name value x.attributes } := by
  refine ⟨h.cls, h.descriptor, Keyed.set_sorted name value h.sorted, ?_⟩
  intro k hk
  have hne : k ≠ name := by
    rintro rfl
    exact hk (List.mem_map_of_mem hp)
  rw [← h.others k hk, Keyed.get?_set, if_neg hne]

theorem Entity.Alike.symm (h : e.Alike x) (hs : Keyed.Sorted e.attributes) : x.Alike e :=
  ⟨h.cls.symm, h.descriptor.symm, hs, fun k hk => (h.others k hk).symm⟩

/-- A property of the other entity is one of this entity, or a stamp. -/
theorem Entity.Alike.mem (h : e.Alike x) (hx : x.Based) {a : String × FieldValue}
    (ha : a ∈ x.attributes) :
    a ∈ e.attributes ∨ a.2.type = .objectId ∨ a.2.type = .dateTime := by
  have hget := Keyed.get?_of_mem h.sorted.nodup ha
  by_cases hbase : a.1 ∈ Schema.baseProperties.map (·.1)
  · obtain ⟨p, hp, hname⟩ := List.mem_map.1 hbase
    rw [hx.values p hp a.2 (hname ▸ hget)]
    exact .inr (Schema.type_base hp)
  · exact .inl (Keyed.mem_of_get? ((h.others a.1 hbase).symm.trans hget))

/-- A proper entity with another stamp is proper. -/
theorem FieldValue.Proper.stamp {α : Type} {make : α → FieldValue} (h : (entity x).Proper)
    (hmake : ∀ a, (make a).Proper) (name : String) (a : Option α) :
    (entity { x with attributes := Keyed.set name (a.map make) x.attributes }).Proper := by
  refine .of_entity (Keyed.set_sorted name _ (h.sorted x (.whole _))) ?_
  intro f hf
  refine Keyed.all_set (h.sorted x (.whole _)) ?_ (fun f hf => h.property hf) f hf
  intro v hv
  obtain ⟨a, -, rfl⟩ := Option.map_eq_some_iff.1 hv
  exact hmake a

theorem FieldValue.proper_objectId (id : ObjectId) : (objectId id).Proper :=
  .of_leaf rfl fun _ h => by cases h

theorem FieldValue.proper_dateTime (t : DateTime) : (dateTime t).Proper :=
  .of_leaf rfl fun _ h => by cases h

namespace Stamps

theorem type_stamp {α : Type} {make : α → FieldValue} {t : ValueType}
    (hmake : ∀ a, (make a).type = t) {a : Option α} (v : FieldValue) (h : a.map make = some v) :
    v.type = t := by
  obtain ⟨a, -, rfl⟩ := Option.map_eq_some_iff.1 h
  exact hmake a

/-- Properties with stamps written into them. -/
def onto (stamps : Stamps) (fields : Fields) : Fields :=
  Keyed.set Record.modifiedProperty (stamps.modified.map .dateTime)
    (Keyed.set Record.createdProperty (stamps.created.map .dateTime)
      (Keyed.set Naming.idProperty (stamps.id.map .objectId) fields))

theorem get?_onto (stamps : Stamps) (fields : Fields) (k : String) :
    Keyed.get? k (stamps.onto fields) =
      if k = Record.modifiedProperty then stamps.modified.map .dateTime
      else if k = Record.createdProperty then stamps.created.map .dateTime
      else if k = Naming.idProperty then stamps.id.map .objectId
      else Keyed.get? k fields := by
  rw [onto, Keyed.get?_set, Keyed.get?_set, Keyed.get?_set]

theorem onto_sorted (stamps : Stamps) {fields : Fields} (h : Keyed.Sorted fields) :
    Keyed.Sorted (stamps.onto fields) :=
  Keyed.set_sorted _ _ (Keyed.set_sorted _ _ (Keyed.set_sorted _ _ h))

end Stamps

/-- An entity with stamps written into it. -/
def Entity.withStamps (stamps : Stamps) (e : Entity) : Entity :=
  { e with attributes := stamps.onto e.attributes }

namespace Stamps

theorem alike_onto (stamps : Stamps) (h : e.Alike x) : e.Alike (x.withStamps stamps) :=
  ((h.set Schema.id_base _).set Schema.created_base _).set Schema.modified_base _

theorem proper_onto (stamps : Stamps) (h : (FieldValue.entity x).Proper) :
    (FieldValue.entity (x.withStamps stamps)).Proper :=
  ((h.stamp FieldValue.proper_objectId _ stamps.id).stamp FieldValue.proper_dateTime _
    stamps.created).stamp FieldValue.proper_dateTime _ stamps.modified

theorem type_objectId (a : ObjectId) : (FieldValue.objectId a).type = .objectId := rfl

theorem type_dateTime (t : DateTime) : (FieldValue.dateTime t).type = .dateTime := rfl

theorem reachable_onto (stamps : Stamps) {s : Schema} {known : ClassRef → Prop}
    (h : x.Reachable s known) : (x.withStamps stamps).Reachable s known := by
  have hid := h.stamp Schema.id_base (stamps.id.map .objectId) (type_stamp type_objectId)
  have hcreated := hid.stamp Schema.created_base (stamps.created.map .dateTime)
    (type_stamp type_dateTime)
  exact hcreated.stamp Schema.modified_base _ (type_stamp type_dateTime)

/-- A stamp is written, or taken away. -/
theorem run_stamp {α : Type} (make : α → FieldValue) {name : String} {t : ValueType}
    (hmake : ∀ a, (make a).type = t) (hp : (name, t) ∈ Schema.baseProperties)
    (h : x.TakesStamps) (a : Option α) :
    (Held.modify name (a.map make) : HeldM Entity Unit).run ⟨x, b⟩ =
      (.ok (), ⟨{ x with attributes := Keyed.set name (a.map make) x.attributes }, b⟩) :=
  Held.run_modify (Entity.set_stamp h hp (type_stamp hmake) _)

/-- Stamps are written into the base properties. -/
theorem run_apply (stamps : Stamps) (h : x.TakesStamps) :
    (stamps.apply : HeldM Entity Unit).run ⟨x, b⟩ = (.ok (), ⟨x.withStamps stamps, b⟩) := by
  have hid := run_stamp (x := x) (b := b) .objectId type_objectId Schema.id_base h stamps.id
  have hcreated := run_stamp (b := b)
    (x := { x with
      attributes := Keyed.set Naming.idProperty (stamps.id.map .objectId) x.attributes })
    .dateTime type_dateTime Schema.created_base h stamps.created
  rw [apply, run_bind_ok hid, run_bind_ok hcreated]
  refine run_stamp .dateTime type_dateTime Schema.modified_base ?_ _
  exact h

/-! ## The stamps that an entity has -/

/-- What is read from a base property makes its value again. -/
theorem stamp_eq {α : Type} {read : FieldValue → Option α} {make : α → FieldValue} {name : String}
    {t : ValueType} (hread : ∀ v : FieldValue, v.type = t → (read v).map make = some v)
    (h : e.HoldsStamps) (hp : (name, t) ∈ Schema.baseProperties) :
    ((Keyed.get? name e.attributes).bind read).map make = Keyed.get? name e.attributes := by
  cases hg : Keyed.get? name e.attributes with
  | none => rfl
  | some v => exact hread v (h _ hp v hg)

theorem objectId_eq (v : FieldValue) (h : v.type = .objectId) :
    v.objectId?.map .objectId = some v := by
  cases v <;> cases h
  rfl

theorem dateTime_eq (v : FieldValue) (h : v.type = .dateTime) :
    v.dateTime?.map .dateTime = some v := by
  cases v <;> cases h
  rfl

theorem id_eq (h : e.HoldsStamps) :
    (Record.id? e).map FieldValue.objectId = Keyed.get? Naming.idProperty e.attributes :=
  stamp_eq objectId_eq h Schema.id_base

theorem created_eq (h : e.HoldsStamps) :
    (Record.created? e).map FieldValue.dateTime = Keyed.get? Record.createdProperty e.attributes :=
  stamp_eq dateTime_eq h Schema.created_base

theorem modified_eq (h : e.HoldsStamps) :
    (Record.modified? e).map FieldValue.dateTime =
      Keyed.get? Record.modifiedProperty e.attributes :=
  stamp_eq dateTime_eq h Schema.modified_base

/-- Written over other stamps, the stamps of an entity give its properties. -/
theorem onto_ofRecord (hs : Keyed.Sorted e.attributes) (h : e.HoldsStamps) :
    (ofRecord e).onto e.attributes = e.attributes := by
  refine Keyed.ext_of_get? (onto_sorted _ hs) hs ?_
  intro k
  rw [get?_onto, ofRecord, id_eq h, created_eq h, modified_eq h]
  by_cases hmodified : k = Record.modifiedProperty
  · rw [if_pos hmodified, hmodified]
  rw [if_neg hmodified]
  by_cases hcreated : k = Record.createdProperty
  · rw [if_pos hcreated, hcreated]
  rw [if_neg hcreated]
  by_cases hid : k = Naming.idProperty
  · rw [if_pos hid, hid]
  · rw [if_neg hid]

theorem type_onto (stamps : Stamps) (fields : Fields) {p : String × ValueType}
    (hp : p ∈ Schema.baseProperties) {v : FieldValue}
    (h : Keyed.get? p.1 (stamps.onto fields) = some v) : v.type = p.2 := by
  rw [get?_onto] at h
  simp only [Schema.baseProperties, List.mem_cons, List.not_mem_nil, or_false] at hp
  rcases hp with rfl | rfl | rfl
  · exact type_stamp type_objectId v h
  · exact type_stamp type_dateTime v h
  · exact type_stamp type_dateTime v h

/-- A later time of change is written over the time that the entity has. -/
theorem onto_modified (hs : Keyed.Sorted e.attributes) (h : e.HoldsStamps) (t : DateTime) :
    ({ ofRecord e with modified := some t } : Stamps).onto e.attributes =
      Keyed.set Record.modifiedProperty (some (.dateTime t)) e.attributes := by
  refine Keyed.ext_of_get? (onto_sorted _ hs) (Keyed.set_sorted _ _ hs) ?_
  intro k
  rw [get?_onto, Keyed.get?_set]
  dsimp only [ofRecord]
  rw [id_eq h, created_eq h]
  by_cases hmodified : k = Record.modifiedProperty
  · rw [if_pos hmodified, if_pos hmodified]
    rfl
  rw [if_neg hmodified, if_neg hmodified]
  by_cases hcreated : k = Record.createdProperty
  · rw [if_pos hcreated, hcreated]
  rw [if_neg hcreated]
  by_cases hid : k = Naming.idProperty
  · rw [if_pos hid, hid]
  · rw [if_neg hid]

/-- Nothing is seen of the stamps that were there before. -/
theorem onto_alike (stamps : Stamps) (hs : Keyed.Sorted e.attributes) (hx : e.Alike x) :
    stamps.onto x.attributes = stamps.onto e.attributes := by
  refine Keyed.ext_of_get? (onto_sorted _ hx.sorted) (onto_sorted _ hs) ?_
  intro k
  simp only [get?_onto]
  split
  · rfl
  split
  · rfl
  split
  · rfl
  next hmodified hcreated hid =>
    refine hx.others k ?_
    simp [Schema.baseProperties, hid, hcreated, hmodified]

end Stamps

/-- An entity has the stamps that were written into it. -/
theorem Stamps.ofRecord_withStamps (stamps : Stamps) (e : Entity) :
    ofRecord (e.withStamps stamps) = stamps := by
  obtain ⟨id, created, modified⟩ := stamps
  have hid : Record.property (e.withStamps ⟨id, created, modified⟩) Naming.idProperty =
      id.map FieldValue.objectId := get?_onto _ _ _
  have hcreated : Record.property (e.withStamps ⟨id, created, modified⟩) Record.createdProperty =
      created.map FieldValue.dateTime := get?_onto _ _ _
  have hmodified : Record.property (e.withStamps ⟨id, created, modified⟩) Record.modifiedProperty =
      modified.map FieldValue.dateTime := get?_onto _ _ _
  rw [ofRecord, Record.id?, Record.created?, Record.modified?, hid, hcreated, hmodified]
  cases id <;> cases created <;> cases modified <;> rfl

theorem Entity.Based.withStamps (h : e.Based) (stamps : Stamps) : (e.withStamps stamps).Based :=
  ⟨stamps.onto_sorted h.sorted, h.types, fun _ hp _ hv => Stamps.type_onto stamps _ hp hv⟩

/-- A write to another property leaves the stamps alone. -/
theorem Entity.Based.write {next : Entity} (h : e.Based) {s : Schema} {property : String}
    (hp : property ∉ Schema.baseProperties.map (·.1)) {t : ValueType} {value : Option FieldValue}
    (hw : e.write s property t value = .ok next) :
    next.Based ∧ Stamps.ofRecord next = Stamps.ofRecord e := by
  obtain ⟨stored, rfl⟩ : ∃ stored,
      next = { e with attributes := Keyed.set property stored e.attributes } := by
    rcases write_cases hw with ⟨-, -, rfl⟩ | ⟨v, stored, -, -, -, -, rfl⟩
    · exact ⟨none, rfl⟩
    · exact ⟨some stored, rfl⟩
  have hget : ∀ p ∈ Schema.baseProperties,
      Keyed.get? p.1 (Keyed.set property stored e.attributes) = Keyed.get? p.1 e.attributes := by
    intro p hmem
    rw [Keyed.get?_set, if_neg]
    rintro rfl
    exact hp (List.mem_map_of_mem hmem)
  refine ⟨⟨Keyed.set_sorted _ _ h.sorted, h.types, fun p hmem v hv => ?_⟩, ?_⟩
  · rw [hget p hmem] at hv
    exact h.values p hmem v hv
  · have hproperty : ∀ p ∈ Schema.baseProperties,
        Record.property { e with attributes := Keyed.set property stored e.attributes } p.1 =
          Record.property e p.1 := hget
    simp only [Stamps.ofRecord, Record.id?, Record.created?, Record.modified?,
      hproperty _ Schema.id_base, hproperty _ Schema.created_base, hproperty _ Schema.modified_base]

/-- An entity after its own stamps were written into it: whatever else its base
properties held is gone. -/
def Entity.restamped (e : Entity) : Entity := e.withStamps (.ofRecord e)

theorem Entity.restamped_eq_iff (hs : Keyed.Sorted e.attributes) :
    e.restamped = e ↔ e.HoldsStamps := by
  constructor
  · intro h p hp v hv
    rw [← h] at hv
    exact Stamps.type_onto _ _ hp hv
  · intro h
    obtain ⟨cls, descriptor, attributes⟩ := e
    exact congrArg (Entity.mk cls descriptor) (Stamps.onto_ofRecord hs h)

namespace Stamps

/-- Restoring the stamps of an entity gives back the entity with these stamps. -/
theorem run_restamp (h : e.TakesStamps) (hs : Keyed.Sorted e.attributes) (hx : e.Alike x) :
    ((ofRecord e).restore : HeldM Entity Unit).run ⟨x, b⟩ = (.ok (), ⟨e.restamped, b⟩) := by
  have hx' : x.TakesStamps := by
    rw [Entity.TakesStamps, hx.descriptor]
    exact h
  rw [restore, run_tryCatch, run_apply _ hx', Entity.withStamps, onto_alike _ hs hx, hx.cls,
    hx.descriptor]
  rfl

/-- Restoring the stamps of an entity gives the entity back. -/
theorem run_restore (h : e.Based) (hx : e.Alike x) :
    ((ofRecord e).restore : HeldM Entity Unit).run ⟨x, b⟩ = (.ok (), ⟨e, b⟩) := by
  rw [run_restamp h.takesStamps h.sorted hx, (Entity.restamped_eq_iff h.sorted).2 h.values]

end Stamps
end Folio
