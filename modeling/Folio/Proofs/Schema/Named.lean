import Folio.Proofs.Schema.Descriptors

/-!
# Names that identify declarations

Types are compared by the names of their classes and enumerations. Where each
name has one declaration, types that count as the same are the same.

Results:
* `eq_of_beq`: named types that count as the same are the same.
* `named_typeOf`: properties of a clear class have named types.
* `typeOf_eq_of_told`: every accessor of a property of a clear class has the
  property's type.
-/
namespace Folio

/-- The declaration that each name stands for. -/
structure Names where
  cls : String → ClassRef
  enum : String → EnumClass

namespace Names

/-- The class is the one that its name stands for. -/
def Knows (names : Names) (c : ClassRef) : Prop := names.cls c.name = c

theorem Knows.ext {names : Names} {c d : ClassRef} (hc : names.Knows c) (hd : names.Knows d)
    (h : c.name = d.name) : c = d := by
  rw [← hc, ← hd, h]

end Names

variable {names : Names}

namespace ValueType

/-- Each class and enumeration in the type is the one that its name stands for. -/
def Named (names : Names) : ValueType → Prop
  | enum e => names.enum e.name = e
  | entity c => names.Knows c
  | list t => Named names t
  | _ => True

theorem eq_of_beq {t u : ValueType} (ht : t.Named names) (hu : u.Named names)
    (h : (t == u) = true) : t = u := by
  induction t generalizing u with
  | primitive p =>
    cases u with
    | primitive q => exact congrArg primitive (LawfulBEq.eq_of_beq (α := Primitive) h)
    | _ => cases h
  | boxed p =>
    cases u with
    | boxed q => exact congrArg boxed (LawfulBEq.eq_of_beq (α := Primitive) h)
    | _ => cases h
  | enum e =>
    cases u with
    | enum f =>
      have he : names.enum e.name = e := ht
      have hf : names.enum f.name = f := hu
      have hn : e.name = f.name := LawfulBEq.eq_of_beq (α := String) h
      rw [← he, ← hf, hn]
    | _ => cases h
  | entity c =>
    cases u with
    | entity d => rw [Names.Knows.ext ht hu (LawfulBEq.eq_of_beq (α := String) h)]
    | _ => cases h
  | list t ih =>
    cases u with
    | list u => rw [ih (u := u) ht hu h]
    | _ => cases h
  | foreign name =>
    cases u with
    | foreign other => exact congrArg foreign (LawfulBEq.eq_of_beq (α := String) h)
    | _ => cases h
  | _ => cases u <;> first | rfl | cases h

instance decidableNamed : (t : ValueType) → Decidable (t.Named names)
  | enum e => inferInstanceAs (Decidable (names.enum e.name = e))
  | entity c => inferInstanceAs (Decidable (names.cls c.name = c))
  | list t => decidableNamed t
  | primitive _ | boxed _ | text | bytes | objectId | dateTime | document | foreign _ | any =>
    isTrue trivial

end ValueType

/-- A class whose name is its own, and whose accessors agree on the types of
its properties and name no other declarations than the known ones. -/
structure Schema.Clear (s : Schema) (names : Names) (c : ClassRef) : Prop where
  known : names.Knows c
  named : ∀ property t, s.Told c property t → t.Named names
  agrees : s.Agrees c

/-- The property that an accessor is of and the type that it gives it. -/
def Method.told? (m : Method) : Option (String × ValueType) :=
  match Accessor.ofMethod? m with
  | some (.read property) => some (property, m.returns.getD .any)
  | some (.write property t) => some (property, t)
  | _ => none

/-- What the accessors of a class tell, one after another. -/
def Schema.tellings (s : Schema) (c : ClassRef) : List (String × ValueType) :=
  (s.allMethods c).filterMap Method.told?

theorem Method.Tells.told? {m : Method} {property : String} {t : ValueType}
    (h : m.Tells property t) : m.told? = some (property, t) := by
  unfold Method.told?
  rcases h with ⟨ha, rfl⟩ | ha <;> rw [ha]

theorem Schema.mem_tellings {s : Schema} {c : ClassRef} {property : String} {t : ValueType}
    (h : s.Told c property t) : (property, t) ∈ s.tellings c := by
  obtain ⟨m, hm, htells⟩ := h
  exact List.mem_filterMap.2 ⟨m, hm, htells.told?⟩

/-- A class is clear if what its accessors tell is. -/
theorem Schema.clear_of_tellings {s : Schema} {c : ClassRef} (hc : names.Knows c)
    (hnamed : ∀ p ∈ s.tellings c, p.2.Named names)
    (hagree : ∀ p ∈ s.tellings c, ∀ q ∈ s.tellings c, p.1 = q.1 → (p.2 == q.2) = true) :
    s.Clear names c :=
  ⟨hc, fun _ _ h => hnamed _ (mem_tellings h),
    fun _ _ _ h k => hagree _ (mem_tellings h) _ (mem_tellings k) rfl⟩

namespace Descriptor

variable {s : Schema} {c : ClassRef}

theorem named_typeOf (hc : s.Clear names c) (property : String) :
    ((ofClass s c).typeOf property).Named names := by
  unfold typeOf
  cases hp : (ofClass s c).property? property with
  | none => trivial
  | some p => exact hc.named p.name p.type (told_of_mem (hc.agrees _) (List.mem_of_find?_eq_some hp) rfl)

theorem typeOf_eq_of_told (hc : s.Clear names c) {property : String} {t : ValueType}
    (h : s.Told c property t) : (ofClass s c).typeOf property = t :=
  ValueType.eq_of_beq (named_typeOf hc property) (hc.named property t h)
    (typeOf_of_told (hc.agrees _) h).2

end Descriptor
end Folio
