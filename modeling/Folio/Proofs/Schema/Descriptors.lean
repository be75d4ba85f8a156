import Mathlib.Data.List.Induction
import Mathlib.Data.List.Nodup
import Folio.Proofs.Keyed
import Folio.Schema.Descriptor

/-!
# What descriptors say

A descriptor lists what the accessors of a class tell, and a default for each property
with a setter of a primitive type. What it says of one property depends on the
accessors of this property alone: each of them is joined to what the ones before it
gave, and in the end the property sums all of them up.

Results:
* `Sums.join`: a property that sums up what was given to it does so with one more accessor.
* `tallies_foldl`: each property sums up what its accessors give it.
* `type_of_property?`: accessors that agree on a property give it its type; it is any
  otherwise.
* `accessor_of_default`: every default is that of a primitive setter.
* `default_of_mem`: every primitive setter gives its property a default.
-/
namespace Folio

/-- The method is an accessor of the property and gives it this type. -/
def Method.Tells (m : Method) (property : String) (t : ValueType) : Prop :=
  Accessor.ofMethod? m = some (.read property) ∧ t = m.returns.getD .any ∨
    Accessor.ofMethod? m = some (.write property t)

namespace Schema

/-- Some accessor of the class gives the property this type. -/
def Told (s : Schema) (c : ClassRef) (property : String) (t : ValueType) : Prop :=
  ∃ m ∈ s.allMethods c, m.Tells property t

/-- The accessors of the property give it one type. -/
def AgreesOn (s : Schema) (c : ClassRef) (property : String) : Prop :=
  ∀ t u, s.Told c property t → s.Told c property u → (t == u) = true

/-- The accessors of each property of the class give it one type. -/
def Agrees (s : Schema) (c : ClassRef) : Prop := ∀ property, s.AgreesOn c property

end Schema

/-- Types that count as the same are the same as the same types. -/
theorem ValueType.beq_congr {t u : ValueType} (h : (t == u) = true) (k : ValueType) :
    (t == k) = (u == k) := by
  change same t u = true at h
  show same t k = same u k
  induction t generalizing u k with
  | list a ih =>
    cases u with
    | list b => cases k <;> first | rfl | exact ih _ h
    | _ => cases h
  | _ => cases u <;> cases k <;> simp_all [same]

theorem AccessShape.merge_eq_iff {a b x : AccessShape} (hx : x ≠ .readWrite) :
    a.merge b = x ↔ a = x ∧ b = x := by
  cases a <;> cases b <;> cases x <;> simp_all [merge]

/-! ## What accessors give a property -/

namespace Method

variable {m : Method} {property : String}

/-- What the method gives the property, if it is an accessor of it. -/
def gives? (property : String) (m : Method) : Option (ValueType × AccessShape) :=
  match Accessor.ofMethod? m with
  | some (.read name) => if name = property then some (m.returns.getD .any, .readOnly) else none
  | some (.write name t) => if name = property then some (t, .writeOnly) else none
  | _ => none

theorem tells_iff {t : ValueType} :
    m.Tells property t ↔ ∃ a, m.gives? property = some a ∧ a.1 = t := by
  unfold Tells gives?
  cases Accessor.ofMethod? m with
  | none => simp
  | some a =>
    cases a <;> simp
    grind

theorem reads_iff : Accessor.ofMethod? m = some (.read property) ↔
    ∃ a, m.gives? property = some a ∧ a.2 ≠ .writeOnly := by
  unfold gives?
  cases Accessor.ofMethod? m with
  | none => simp
  | some a => cases a <;> simp

theorem writes_iff : (∃ t, Accessor.ofMethod? m = some (.write property t)) ↔
    ∃ a, m.gives? property = some a ∧ a.2 ≠ .readOnly := by
  unfold gives?
  cases Accessor.ofMethod? m with
  | none => simp
  | some a => cases a <;> simp

end Method

/-- What the accessors of the property among the methods give it. -/
def given (property : String) (ms : List Method) : List (ValueType × AccessShape) :=
  ms.filterMap (Method.gives? property)

section Given

variable {property : String} {ms : List Method} {m : Method}

theorem exists_given {P : ValueType × AccessShape → Prop} :
    (∃ a ∈ given property ms, P a) ↔ ∃ m ∈ ms, ∃ a, m.gives? property = some a ∧ P a := by
  simp only [given, List.mem_filterMap]
  constructor
  · rintro ⟨a, ⟨m, hm, ha⟩, hP⟩
    exact ⟨m, hm, a, ha, hP⟩
  · rintro ⟨m, hm, a, ha, hP⟩
    exact ⟨a, ⟨m, hm, ha⟩, hP⟩

theorem given_append_of_none (h : m.gives? property = none) :
    given property (ms ++ [m]) = given property ms := by
  rw [given, List.filterMap_append, List.filterMap_cons_none h, List.filterMap_nil,
    List.append_nil]
  rfl

theorem given_append_of_some {a : ValueType × AccessShape} (h : m.gives? property = some a) :
    given property (ms ++ [m]) = given property ms ++ [a] := by
  rw [given, List.filterMap_append, List.filterMap_cons_some h, List.filterMap_nil]
  rfl

end Given

namespace Property

/-- The property with what one more accessor gives it. -/
def join (p : Property) (a : ValueType × AccessShape) : Property :=
  { p with type := if p.type == a.1 then p.type else .any, shape := p.shape.merge a.2 }

/-- The property says all of what was given to it. The type is one of the given ones and
the same as each of them, or any where two of them differ. -/
structure Sums (p : Property) (given : List (ValueType × AccessShape)) : Prop where
  type : (∃ a ∈ given, a.1 = p.type) ∧ (∀ a ∈ given, (p.type == a.1) = true) ∨
    p.type = .any ∧ ∃ a ∈ given, ∃ b ∈ given, ¬ (a.1 == b.1) = true
  shape : ∀ x, x ≠ .readWrite → (p.shape = x ↔ ∀ a ∈ given, a.2 = x)

theorem sums_singleton (name : String) (a : ValueType × AccessShape) :
    Sums ⟨name, a.1, a.2⟩ [a] where
  type := .inl ⟨⟨a, List.mem_cons_self, rfl⟩, by simp [ValueType.beq_refl]⟩
  shape := by simp

theorem Sums.join {p : Property} {given : List (ValueType × AccessShape)} (h : p.Sums given)
    (a : ValueType × AccessShape) : (p.join a).Sums (given ++ [a]) where
  type := by
    rcases h.type with ⟨⟨b, hb, htype⟩, hall⟩ | ⟨hany, b, hb, c, hc, hdiffer⟩
    · by_cases ha : (p.type == a.1) = true
      · have hkept : (p.join a).type = p.type := if_pos ha
        rw [hkept]
        exact .inl ⟨⟨b, List.mem_append_left _ hb, htype⟩,
          List.forall_mem_append.2 ⟨hall, by simpa⟩⟩
      · refine .inr ⟨if_neg ha, b, List.mem_append_left _ hb, a, by simp, ?_⟩
        rwa [htype]
    · refine .inr ⟨?_, b, List.mem_append_left _ hb, c, List.mem_append_left _ hc, hdiffer⟩
      show (if p.type == a.1 then p.type else .any) = .any
      rw [hany, ite_self]
  shape := by
    intro x hx
    rw [List.forall_mem_append, List.forall_mem_singleton, ← h.shape x hx]
    exact AccessShape.merge_eq_iff hx

end Property

namespace Descriptor

/-- An accessor is joined to its property, which is listed from then on. -/
theorem find?_addProperty (name : String) (t : ValueType) (shape : AccessShape)
    (properties : List Property) (k : String) :
    (addProperty name t shape properties).find? (·.name = k) =
      if name = k then
        some (((properties.find? (·.name = k)).map (·.join (t, shape))).getD ⟨name, t, shape⟩)
      else properties.find? (·.name = k) := by
  induction properties with
  | nil => by_cases hk : name = k <;> simp [addProperty, hk]
  | cons p rest ih =>
    rw [addProperty]
    by_cases hp : p.name = name
    · rw [if_pos hp]
      by_cases hk : name = k <;> simp [hp, hk, Property.join]
    · rw [if_neg hp]
      by_cases hk : p.name = k
      · have hne : name ≠ k := fun h => hp (hk.trans h.symm)
        simp [hk, hne]
      · simpa [hk] using ih

theorem mem_addDefault {name : String} {type : ValueType} {defaults : List (String × Primitive)}
    {d : String × Primitive} (h : d ∈ addDefault name type defaults) :
    d ∈ defaults ∨ d.1 = name ∧ type = .primitive d.2 := by
  cases type with
  | primitive p =>
    rw [addDefault] at h
    split at h
    · exact .inl h
    · rcases List.mem_append.1 h with h | h
      · exact .inl h
      · rw [List.mem_singleton] at h
        subst h
        exact .inr ⟨rfl, rfl⟩
  | _ => exact .inl h

/-- What one more method adds to a descriptor. -/
theorem add_cases (d : Descriptor) (m : Method) :
    (Accessor.ofMethod? m = none ∧ d.add m = d) ∨
    (Accessor.ofMethod? m = some .clone ∧
      d.add m = { d with accessors := (m.name, .clone) :: d.accessors }) ∨
    (∃ property t, Accessor.ofMethod? m = some (.read property) ∧ t = m.returns.getD .any ∧
      d.add m = { d with
        accessors := (m.name, .read property) :: d.accessors
        properties := addProperty property t .readOnly d.properties }) ∨
    ∃ property t, Accessor.ofMethod? m = some (.write property t) ∧
      d.add m = { d with
        accessors := (m.name, .write property t) :: d.accessors
        properties := addProperty property t .writeOnly d.properties
        defaults := addDefault property t d.defaults } := by
  unfold add
  cases ha : Accessor.ofMethod? m with
  | none => exact .inl ⟨rfl, rfl⟩
  | some a =>
    cases a with
    | clone => exact .inr (.inl ⟨rfl, rfl⟩)
    | read property => exact .inr (.inr (.inl ⟨property, _, rfl, rfl, rfl⟩))
    | write property t => exact .inr (.inr (.inr ⟨property, t, rfl, rfl⟩))

/-! ## Invariants of the construction -/

theorem property?_add (d : Descriptor) (m : Method) (k : String) :
    (d.add m).property? k =
      match m.gives? k with
      | none => d.property? k
      | some a => some (((d.property? k).map (·.join a)).getD ⟨k, a.1, a.2⟩) := by
  unfold add Method.gives? property?
  cases Accessor.ofMethod? m with
  | none => rfl
  | some a =>
    cases a with
    | clone => rfl
    | read name =>
      dsimp only
      rw [find?_addProperty]
      by_cases hk : name = k <;> simp [hk]
    | write name t =>
      dsimp only
      rw [find?_addProperty]
      by_cases hk : name = k <;> simp [hk]

/-- A listed property says all of what was given to it, and one that is not listed was
given nothing. -/
def Tallies (k : String) (given : List (ValueType × AccessShape)) : Option Property → Prop
  | none => given = []
  | some p => p.name = k ∧ p.Sums given

theorem tallies_foldl (c : ClassRef) (k : String) (ms : List Method) :
    Tallies k (given k ms) ((ms.foldl add (empty c)).property? k) := by
  induction ms using List.reverseRecOn with
  | nil => rfl
  | append_singleton ms m ih =>
    rw [List.foldl_append, List.foldl_cons, List.foldl_nil, property?_add]
    cases ha : m.gives? k with
    | none => rwa [given_append_of_none ha]
    | some a =>
      rw [given_append_of_some ha]
      cases hp : (ms.foldl add (empty c)).property? k with
      | none =>
        rw [hp] at ih
        rw [show given k ms = [] from ih]
        exact ⟨rfl, Property.sums_singleton k a⟩
      | some p =>
        rw [hp] at ih
        exact ⟨ih.1, ih.2.join a⟩

theorem mem_of_accessor? {d : Descriptor} {name : String} {a : Accessor}
    (h : d.accessor? name = some a) : (name, a) ∈ d.accessors := by
  obtain ⟨other, hm, hname⟩ := mem_of_lookup h
  rwa [← eq_of_beq hname] at hm

/-- Each accessor is that of a method of the class. -/
theorem mem_accessors {s : Schema} {c : ClassRef} {name : String} {a : Accessor}
    (h : (name, a) ∈ (ofClass s c).accessors) :
    ∃ m ∈ s.allMethods c, m.name = name ∧ Accessor.ofMethod? m = some a := by
  revert h
  refine List.foldlRecOn (motive := fun d : Descriptor => (name, a) ∈ d.accessors →
    ∃ m ∈ s.allMethods c, m.name = name ∧ Accessor.ofMethod? m = some a) (s.allMethods c) add ?_ ?_
  · intro h
    cases h
  intro d hd m hm h
  have step : ∀ b, Accessor.ofMethod? m = some b → (name, a) ∈ (m.name, b) :: d.accessors →
      ∃ m ∈ s.allMethods c, m.name = name ∧ Accessor.ofMethod? m = some a := by
    intro b hb h
    rcases List.mem_cons.1 h with heq | h
    · cases heq
      exact ⟨m, hm, rfl, hb⟩
    · exact hd h
  rcases d.add_cases m with ⟨-, he⟩ | ⟨ho, he⟩ | ⟨k, u, ho, -, he⟩ | ⟨k, u, ho, he⟩
  all_goals rw [he] at h
  · exact hd h
  · exact step _ ho h
  · exact step _ ho h
  · exact step _ ho h

/-- Each setter is one that a method of the class tells. -/
theorem told_of_write {s : Schema} {c : ClassRef} {name property : String} {t : ValueType}
    (h : (name, .write property t) ∈ (ofClass s c).accessors) : s.Told c property t := by
  obtain ⟨m, hm, -, hwrite⟩ := mem_accessors h
  exact ⟨m, hm, .inr hwrite⟩

/-- Each default is that of a setter of the primitive type. -/
theorem accessor_of_default {s : Schema} {c : ClassRef} {p : String × Primitive}
    (h : p ∈ (ofClass s c).defaults) :
    ∃ name, (name, .write p.1 (.primitive p.2)) ∈ (ofClass s c).accessors := by
  revert h
  refine List.foldlRecOn (motive := fun d : Descriptor => p ∈ d.defaults →
    ∃ name, (name, .write p.1 (.primitive p.2)) ∈ d.accessors) (s.allMethods c) add ?_ ?_
  · intro h
    cases h
  intro d hd m hm h
  have keep : ∀ a, p ∈ d.defaults →
      ∃ name, (name, .write p.1 (.primitive p.2)) ∈ a :: d.accessors := by
    intro a hp
    obtain ⟨name, hn⟩ := hd hp
    exact ⟨name, List.mem_cons_of_mem a hn⟩
  rcases d.add_cases m with ⟨-, he⟩ | ⟨-, he⟩ | ⟨k, u, ho, -, he⟩ | ⟨k, u, ho, he⟩
  all_goals rw [he] at h ⊢
  · exact hd h
  · exact keep _ h
  · exact keep _ h
  · rcases mem_addDefault h with h | ⟨hk, hu⟩
    · exact keep _ h
    · refine ⟨m.name, ?_⟩
      rw [hk, ← hu]
      exact List.mem_cons_self

theorem mem_defaults_add {d : Descriptor} {p : String × Primitive} (h : p ∈ d.defaults)
    (m : Method) : p ∈ (d.add m).defaults := by
  rcases d.add_cases m with ⟨-, he⟩ | ⟨-, he⟩ | ⟨_, _, -, -, he⟩ | ⟨property, t, -, he⟩
  all_goals rw [he]
  · exact h
  · exact h
  · exact h
  · show p ∈ addDefault property t d.defaults
    unfold addDefault
    split
    · split
      · exact h
      · exact List.mem_append_left _ h
    · exact h

/-- A primitive setter gives its property a default. -/
theorem default_of_mem {ms : List Method} {m : Method} (hm : m ∈ ms) {k : String} {q : Primitive}
    (h : Accessor.ofMethod? m = some (.write k (.primitive q))) (d : Descriptor) :
    ∃ p, (k, p) ∈ (ms.foldl add d).defaults := by
  induction ms generalizing d with
  | nil => cases hm
  | cons n rest ih =>
    rw [List.foldl_cons]
    rcases List.mem_cons.1 hm with rfl | hm
    · obtain ⟨p, hp⟩ : ∃ p, (k, p) ∈ (d.add m).defaults := by
        rw [add, h]
        show ∃ p, (k, p) ∈ addDefault k (.primitive q) d.defaults
        rw [addDefault]
        cases hl : d.defaults.lookup k with
        | none => exact ⟨q, List.mem_append_right _ List.mem_cons_self⟩
        | some p =>
          obtain ⟨k', hp, hk⟩ := mem_of_lookup hl
          rw [← eq_of_beq hk] at hp
          exact ⟨p, hp⟩
      exact ⟨p, List.foldlRecOn (motive := fun d => (k, p) ∈ d.defaults) rest add hp
        fun _ hd n _ => mem_defaults_add hd n⟩
    · exact ih hm _

/-! ## What the properties of a class say -/

section

variable {s : Schema} {c : ClassRef} {k : String} {p : Property} {t : ValueType}

theorem told_iff : s.Told c k t ↔ ∃ a ∈ given k (s.allMethods c), a.1 = t := by
  simp only [Schema.Told, Method.tells_iff, exists_given]

theorem sums_of_property? (h : (ofClass s c).property? k = some p) :
    p.name = k ∧ p.Sums (given k (s.allMethods c)) := by
  have htally : Tallies k (given k (s.allMethods c)) ((ofClass s c).property? k) :=
    tallies_foldl c k _
  rwa [h] at htally

/-- A property that some accessor tells of is listed. -/
theorem property?_of_told (h : s.Told c k t) : ∃ p, (ofClass s c).property? k = some p := by
  have htally : Tallies k (given k (s.allMethods c)) ((ofClass s c).property? k) :=
    tallies_foldl c k _
  cases hp : (ofClass s c).property? k with
  | some p => exact ⟨p, rfl⟩
  | none =>
    rw [hp] at htally
    obtain ⟨a, ha, -⟩ := told_iff.1 h
    rw [show given k (s.allMethods c) = [] from htally] at ha
    cases ha

/-- Where the accessors of a property agree it has a type that they give it, and any type
otherwise. -/
theorem type_of_property? (h : (ofClass s c).property? k = some p) :
    s.AgreesOn c k ∧ s.Told c k p.type ∧ (∀ t, s.Told c k t → (p.type == t) = true) ∨
      ¬ s.AgreesOn c k ∧ p.type = .any := by
  obtain ⟨-, hsums⟩ := sums_of_property? h
  rcases hsums.type with ⟨htold, hall⟩ | ⟨hany, a, ha, b, hb, hdiffer⟩
  · have hsame : ∀ t, s.Told c k t → (p.type == t) = true := by
      intro t ht
      obtain ⟨a, ha, rfl⟩ := told_iff.1 ht
      exact hall a ha
    refine .inl ⟨fun t u ht hu => ?_, told_iff.2 htold, hsame⟩
    rw [← ValueType.beq_congr (hsame t ht), hsame u hu]
  · refine .inr ⟨fun hagree => hdiffer ?_, hany⟩
    exact hagree a.1 b.1 (told_iff.2 ⟨a, ha, rfl⟩) (told_iff.2 ⟨b, hb, rfl⟩)

/-- No property is listed twice. -/
theorem names_nodup (s : Schema) (c : ClassRef) :
    ((ofClass s c).properties.map (·.name)).Nodup := by
  refine List.foldlRecOn (motive := fun d : Descriptor => (d.properties.map (·.name)).Nodup)
    (s.allMethods c) add ?_ ?_
  · exact List.nodup_nil
  intro d hd m _
  have grow : ∀ name t shape, ((addProperty name t shape d.properties).map (·.name)).Nodup := by
    intro name t shape
    rw [names_addProperty]
    split
    · exact hd
    · next hnew => exact List.nodup_append.2 ⟨hd, List.nodup_singleton _, by grind⟩
  rcases d.add_cases m with ⟨-, he⟩ | ⟨-, he⟩ | ⟨_, _, -, -, he⟩ | ⟨_, _, -, he⟩
  all_goals rw [he]
  · exact hd
  · exact hd
  · exact grow _ _ _
  · exact grow _ _ _

/-- A listed property is found by its name. -/
theorem property?_of_mem (h : p ∈ (ofClass s c).properties) :
    (ofClass s c).property? p.name = some p := by
  cases hf : (ofClass s c).property? p.name with
  | none => simpa using List.find?_eq_none.1 hf p h
  | some q =>
    have hname : q.name = p.name := by simpa using List.find?_some hf
    rw [List.inj_on_of_nodup_map (names_nodup s c) (List.mem_of_find?_eq_some hf) h hname]

/-- A property has a type that some accessor gives it, if they agree. -/
theorem told_of_mem (ha : s.AgreesOn c k) (h : p ∈ (ofClass s c).properties) (hk : p.name = k) :
    s.Told c k p.type := by
  rcases type_of_property? (hk ▸ property?_of_mem h) with ⟨-, htold, -⟩ | ⟨hno, -⟩
  · exact htold
  · exact absurd ha hno

/-- Accessors that agree on a property give it its type. -/
theorem typeOf_of_told (ha : s.AgreesOn c k) (h : s.Told c k t) :
    s.Told c k ((ofClass s c).typeOf k) ∧ ((ofClass s c).typeOf k == t) = true := by
  obtain ⟨p, hp⟩ := property?_of_told h
  rw [typeOf, hp]
  rcases type_of_property? hp with ⟨-, htold, hall⟩ | ⟨hno, -⟩
  · exact ⟨htold, hall t h⟩
  · exact absurd ha hno

/-- The type of a property is that of each of its accessors, or any. -/
theorem typeOf_told (h : s.Told c k t) :
    ((ofClass s c).typeOf k == t) = true ∨ (ofClass s c).typeOf k = .any := by
  obtain ⟨p, hp⟩ := property?_of_told h
  rw [typeOf, hp]
  rcases type_of_property? hp with ⟨-, -, hall⟩ | ⟨-, hany⟩
  · exact .inl (hall t h)
  · exact .inr hany

end

/-- A descriptor is that of its class. -/
theorem cls_ofClass (s : Schema) (c : ClassRef) : (ofClass s c).cls = c := by
  refine List.foldlRecOn (motive := fun d : Descriptor => d.cls = c) (s.allMethods c) add rfl ?_
  intro d hd m _
  rcases d.add_cases m with ⟨-, he⟩ | ⟨-, he⟩ | ⟨_, _, -, -, he⟩ | ⟨_, _, -, he⟩
  all_goals rw [he]; exact hd

end Descriptor
end Folio
