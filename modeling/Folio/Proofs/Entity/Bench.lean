import Folio.Proofs.Entity.Checked

/-!
# All that can be done with entities

Entities are made of classes, with properties or without, are set, called and
copied, and any of this may fail. What fails changes none of them. The entities of
a class are checked through every run just where the class is settled: where it is
not, a property has any type though a setter has another, so the setter puts there
what is kept otherwise, or the property is unset by its name.

Results:
* `handle_failed`: what fails leaves all entities as they are.
* `checked_after`: entities of settled classes stay checked.
* `settles_of_checks`: those of other classes do not.
* `checked_iff`: both.
-/
namespace Folio

variable {s : Schema} {known : ClassRef → Prop} {c : ClassRef}

/-- What is done with entities, which stand in the order they were made in. -/
inductive Handling where
  | create (c : ClassRef) (seed : Option Fields)
  | set (place : Nat) (property : String) (value : Option FieldValue)
  | invoke (place : Nat) (method : String) (args : List (Option FieldValue))
  | clone (place : Nat)

/-- The entities that were made, and the catalog that they were made with. -/
structure Bench where
  catalog : Catalog
  entities : List Entity := []

namespace Bench

/-- Nothing was made yet. -/
def fresh (s : Schema) : Bench := { catalog := { schema := s } }

/-- The entity at a place becomes another one, unless that fails. -/
def change (b : Bench) (place : Nat)
    (f : Entity → Except Failure (Option FieldValue × Entity)) :
    Except Failure (Option FieldValue) × Bench :=
  match b.entities[place]? with
  | none => (.ok none, b)
  | some e =>
    match f e with
    | .ok (answer, next) => (.ok answer, { b with entities := b.entities.set place next })
    | .error failure => (.error failure, b)

/-- The answer, and what is there after it. -/
def handle (b : Bench) : Handling → Except Failure (Option FieldValue) × Bench
  | .create c seed =>
    match (Entity.instantiate c seed).run b.catalog with
    | (.ok e, catalog) => (.ok none, ⟨catalog, b.entities ++ [e]⟩)
    | (.error failure, catalog) => (.error failure, { b with catalog })
  | .set place property value =>
    b.change place fun e => (e.set b.catalog.schema property value).map (none, ·)
  | .invoke place method args => b.change place fun e => e.invoke b.catalog.schema method args
  | .clone place => (.ok none, { b with entities := b.entities ++ b.entities[place]?.toList })

/-- What is there after handlings, each of which may succeed or fail. -/
def after (b : Bench) : List Handling → Bench
  | [] => b
  | h :: rest => after (b.handle h).2 rest

/-- What fails leaves all entities as they are. -/
theorem handle_failed {b : Bench} {h : Handling} {failure : Failure}
    (hfails : (b.handle h).1 = .error failure) : (b.handle h).2.entities = b.entities := by
  have hchange : ∀ place f, (b.change place f).1 = .error failure →
      (b.change place f).2.entities = b.entities := by
    intro place f hf
    unfold change at hf ⊢
    cases hplace : b.entities[place]? with
    | none => rfl
    | some e =>
      simp only [hplace] at hf ⊢
      cases hnext : f e with
      | error failure => rfl
      | ok p =>
        rw [hnext] at hf
        cases hf
  cases h with
  | create c seed =>
    unfold handle at hfails ⊢
    dsimp only at hfails ⊢
    rcases hrun : (Entity.instantiate c seed).run b.catalog with ⟨failure | e, catalog⟩
    · rfl
    · rw [hrun] at hfails
      cases hfails
  | set place property value => exact hchange _ _ hfails
  | invoke place method args => exact hchange _ _ hfails
  | clone place => cases hfails

theorem catalog_change (b : Bench) (place : Nat)
    (f : Entity → Except Failure (Option FieldValue × Entity)) :
    (b.change place f).2.catalog = b.catalog := by
  unfold change
  cases b.entities[place]? with
  | none => rfl
  | some e =>
    dsimp only
    cases f e <;> rfl

/-- What is there after a change was there before, or is what one became. -/
theorem mem_change {b : Bench} {place : Nat}
    {f : Entity → Except Failure (Option FieldValue × Entity)} {e : Entity}
    (he : e ∈ (b.change place f).2.entities) :
    e ∈ b.entities ∨ ∃ old ∈ b.entities, ∃ answer, f old = .ok (answer, e) := by
  unfold change at he
  cases hplace : b.entities[place]? with
  | none =>
    rw [hplace] at he
    exact .inl he
  | some old =>
    simp only [hplace] at he
    rcases hnext : f old with failure | ⟨answer, next⟩
    · rw [hnext] at he
      exact .inl he
    · rw [hnext] at he
      rcases List.mem_or_eq_of_mem_set he with he | rfl
      · exact .inl he
      · exact .inr ⟨old, List.mem_of_getElem? hplace, answer, hnext⟩

end Bench

/-- Classes are known, and values are such as can be handed in. -/
def Handling.Real (s : Schema) (known : ClassRef → Prop) : Handling → Prop
  | create c seed => known c ∧ ∀ a ∈ seed.getD [], a.2.Real s known
  | set _ _ value => ∀ v, value = some v → v.Real s known
  | invoke _ _ args => ∀ v, some v ∈ args → v.Real s known
  | clone _ => True

namespace Bench

/-- Each entity was there before, was made, or was written. -/
theorem mem_handle {b : Bench} (hb : b.catalog.schema = s) {h : Handling} (hr : h.Real s known)
    {e : Entity} (he : e ∈ (b.handle h).2.entities) :
    e ∈ b.entities ∨
    (∃ d seed catalog, known d ∧ (∀ a ∈ seed.getD [], a.2.Real s known) ∧
      (Entity.instantiate d seed).run b.catalog = (.ok e, catalog)) ∨
    ∃ old ∈ b.entities, ∃ property t value, old.WrittenAs property t ∧
      (∀ v, value = some v → v.Real s known) ∧ old.write s property t value = .ok e := by
  cases h with
  | create d seed =>
    unfold handle at he
    dsimp only at he
    rcases hrun : (Entity.instantiate d seed).run b.catalog with ⟨failure | made, catalog⟩
    · rw [hrun] at he
      exact .inl he
    · rw [hrun] at he
      rcases List.mem_append.1 he with he | he
      · exact .inl he
      · rw [List.mem_singleton.1 he]
        exact .inr (.inl ⟨d, seed, catalog, hr.1, hr.2, hrun⟩)
  | set place property value =>
    rcases mem_change he with he | ⟨old, hold, answer, hnext⟩
    · exact .inl he
    · rw [hb] at hnext
      obtain ⟨next, hset, heq⟩ := ok_of_map hnext
      cases heq
      exact .inr (.inr ⟨old, hold, property, _, value, .inl rfl, hr, hset⟩)
  | invoke place method args =>
    rcases mem_change he with he | ⟨old, hold, answer, hnext⟩
    · exact .inl he
    · rw [hb] at hnext
      rcases Entity.invoke_cases hnext with rfl | ⟨property, t, value, hm, rfl, hw⟩
      · exact .inl hold
      · refine .inr (.inr ⟨old, hold, property, t, value, .inr ⟨method, hm⟩, ?_, hw⟩)
        exact fun v hv => hr v (List.mem_singleton.2 hv.symm)
  | clone place =>
    rcases List.mem_append.1 he with he | he
    · exact .inl he
    · exact .inl (List.mem_of_getElem? (Option.mem_toList.1 he))

/-- The catalog knows known classes only, and entities are reachable. -/
structure Sound (s : Schema) (known : ClassRef → Prop) (b : Bench) : Prop where
  catalog : b.catalog.Genuine s known
  entities : ∀ e ∈ b.entities, e.Reachable s known

theorem sound_fresh : (fresh s).Sound s known := by
  refine ⟨⟨rfl, fun p hp => ?_⟩, fun e he => ?_⟩
  · cases hp
  · cases he

theorem Sound.handle {b : Bench} (hb : b.Sound s known) {h : Handling} (hr : h.Real s known) :
    (b.handle h).2.Sound s known := by
  constructor
  · cases h with
    | create d seed =>
      have hkeeps := Entity.genuine_instantiate hr.1 seed b.catalog hb.catalog
      unfold Bench.handle
      dsimp only
      rcases hrun : (Entity.instantiate d seed).run b.catalog with ⟨failure | made, catalog⟩
      · rwa [hrun] at hkeeps
      · rwa [hrun] at hkeeps
    | set place property value =>
      show (b.change place _).2.catalog.Genuine s known
      rw [catalog_change]
      exact hb.catalog
    | invoke place method args =>
      show (b.change place _).2.catalog.Genuine s known
      rw [catalog_change]
      exact hb.catalog
    | clone place => exact hb.catalog
  · intro e he
    rcases mem_handle hb.catalog.schema hr he with
      he | ⟨d, seed, catalog, hd, hseed, hrun⟩ | ⟨old, hold, property, t, value, ht, hv, hw⟩
    · exact hb.entities e he
    · exact .create hb.catalog hd (fun a ha => (hseed a ha).entities) hrun
    · exact (hb.entities old hold).written ht hv hw

/-- The entities of the class are checked. -/
def AllChecked (s : Schema) (c : ClassRef) (b : Bench) : Prop :=
  ∀ e ∈ b.entities, e.descriptor = Descriptor.ofClass s c → e.Checked s

/-- One handling keeps the entities of a settled class checked. -/
theorem checked_handle (hs : s.Settles known c) {b : Bench} (hb : b.Sound s known)
    (hchecked : b.AllChecked s c) {h : Handling} (hr : h.Real s known) :
    (b.handle h).2.AllChecked s c := by
  intro e he hd
  rcases mem_handle hb.catalog.schema hr he with
    he | ⟨d, seed, catalog, hknown, hseed, hrun⟩ | ⟨old, hold, property, t, value, ht, hv, hw⟩
  · exact hchecked e he hd
  · obtain ⟨d', filled, -, hfill, rfl⟩ := Entity.run_instantiate hb.catalog hknown hrun
    have hd' : filled.descriptor = Descriptor.ofClass s d' :=
      Entity.foldlM_set (P := fun e => e.descriptor = Descriptor.ofClass s d') rfl
        (fun a _ e next he hset => (Entity.write_ok hset).2.trans he) hfill
    rw [← hd', show filled.descriptor = Descriptor.ofClass s c from hd] at hfill
    exact Entity.checked_create hs hseed hfill
  · have hold' := (Entity.write_ok hw).2.symm.trans hd
    exact (hchecked old hold hold').write hs hold' (hb.entities old hold).sound.sorted ht hv hw

/-- So do all. -/
theorem checked_after (hs : s.Settles known c) {handlings : List Handling} {b : Bench}
    (hb : b.Sound s known) (hchecked : b.AllChecked s c) (hr : ∀ h ∈ handlings, h.Real s known) :
    (b.after handlings).AllChecked s c := by
  induction handlings generalizing b with
  | nil => exact hchecked
  | cons h rest ih =>
    have hreal := hr h List.mem_cons_self
    exact ih (hb.handle hreal) (checked_handle hs hb hchecked hreal)
      fun g hg => hr g (List.mem_cons_of_mem h hg)

/-! ### What a class that is not settled keeps -/

/-- The first entity of a class, of which nothing is set. -/
def first (s : Schema) (c : ClassRef) : Entity :=
  Entity.fillDefaults ⟨c, Descriptor.ofClass s c, []⟩

theorem create_fresh (hform : ∃ d, s.find? c = some d ∧ d.form = .trait) :
    ∃ catalog, ((fresh s).handle (.create c none)).2 = ⟨catalog, [first s c]⟩ ∧
      catalog.schema = s := by
  obtain ⟨d, hf, ht⟩ := hform
  have hd : (Catalog.descriptor c).run (fresh s).catalog = (Descriptor.ofClass s c,
      ⟨s, [(c.name, Descriptor.ofClass s c)], []⟩) := rfl
  have hrun : (Entity.instantiate c none).run (fresh s).catalog =
      (.ok (first s c), ⟨s, [(c.name, Descriptor.ofClass s c)], []⟩) := by
    simp only [Entity.instantiate, run_bind, run_getThe, show (fresh s).catalog.schema = s from rfl,
      hf, Option.map_some, Option.getD_some, ht, ne_eq, not_true_eq_false, if_false,
      run_monadLift, hd, run_lift]
    rfl
  refine ⟨⟨s, [(c.name, Descriptor.ofClass s c)], []⟩, ?_, rfl⟩
  unfold handle
  dsimp only
  rw [hrun]
  rfl

/-- What becomes of the first entity of the class is there after its creation. -/
theorem after_create (hform : ∃ d, s.find? c = some d ∧ d.form = .trait) {h : Handling}
    (f : Schema → Entity → Except Failure (Option FieldValue × Entity))
    (hh : ∀ b : Bench, b.handle h = b.change 0 (f b.catalog.schema)) {next : Entity}
    {answer : Option FieldValue} (hf : f s (first s c) = .ok (answer, next)) :
    next ∈ ((fresh s).after [.create c none, h]).entities := by
  obtain ⟨catalog, hcreate, hschema⟩ := create_fresh hform
  show next ∈ (((fresh s).handle (.create c none)).2.handle h).2.entities
  rw [hcreate, hh, hschema]
  unfold change
  simp only [List.getElem?_cons_zero, hf]
  exact List.mem_singleton_self next

/-- In every run that is possible, the entities of the class stay checked. -/
def Checks (s : Schema) (known : ClassRef → Prop) (c : ClassRef) : Prop :=
  ∀ handlings : List Handling, (∀ h ∈ handlings, h.Real s known) →
    ((fresh s).after handlings).AllChecked s c

namespace Checks

variable (hall : Checks s known c) (hc : known c)
  (hform : ∃ d, s.find? c = some d ∧ d.form = .trait) {name property : String} {t : ValueType}
  (ha : (Descriptor.ofClass s c).accessor? name = some (.write property t))
  (hany : (Descriptor.ofClass s c).typeOf property = .any)

include hall hc hform in
/-- What becomes of the first entity is checked. -/
theorem next {h : Handling} (hr : h.Real s known)
    (f : Schema → Entity → Except Failure (Option FieldValue × Entity))
    (hh : ∀ b : Bench, b.handle h = b.change 0 (f b.catalog.schema)) {next : Entity}
    {answer : Option FieldValue} (hf : f s (first s c) = .ok (answer, next))
    (hd : next.descriptor = Descriptor.ofClass s c) : next.Checked s := by
  refine hall [.create c none, h] (fun g hg => ?_) next (after_create hform f hh hf) hd
  rcases List.mem_pair.1 hg with rfl | rfl
  · exact ⟨hc, fun a ha => by cases ha⟩
  · exact hr

include hall hc hform ha hany in
/-- By its name, a property of any type can be unset. -/
theorem not_primitive : t.isPrimitive = false := by
  cases t with
  | primitive p =>
    have hset : (first s c).set s property none = .ok { first s c with
        attributes := Keyed.erase property (first s c).attributes } := by
      show (first s c).write s property ((Descriptor.ofClass s c).typeOf property) none = _
      rw [hany]
      rfl
    have hreal : (Handling.set 0 property none).Real s known := fun v hv => by cases hv
    have hpresent := (hall.next hc hform hreal (fun s e => (e.set s property none).map (none, ·))
      (fun b => rfl) (show Except.map (none, ·) _ = _ by rw [hset]; rfl) rfl).present _ _ p ha
    rw [Entity.get?, Keyed.get?_erase, if_pos rfl] at hpresent
    cases hpresent
  | _ => rfl

include hall hc hform ha hany in
/-- By a setter, it gets what the setter's type keeps. -/
theorem plain : t.Plain s known := by
  intro v stored hv hf hn hst
  have hinvoke := Entity.invoke_write (e := first s c) ha
    (Entity.write_some hf hn hst (first s c) property)
  have hmem : (property, stored) ∈ Keyed.insert property stored (first s c).attributes := by
    refine Keyed.mem_of_get? ?_
    rw [Keyed.get?_insert, if_pos rfl]
  have hreal : (Handling.invoke 0 name [some v]).Real s known := by
    intro w hw
    cases List.mem_singleton.1 hw
    exact hv
  have hkept := (hall.next hc hform hreal (fun s e => e.invoke s name [some v])
    (fun b => rfl) hinvoke rfl).kept _ hmem
  have hstored := hkept.stored
  rw [show Entity.descriptor _ = Descriptor.ofClass s c from rfl, hany] at hstored
  exact hstored

end Checks

/-- Where a setter has another type than its property, the property has any type.
So what it keeps must be kept where no type is declared, and it may be unset. -/
theorem settles_of_checks (hall : Checks s known c) (hc : known c)
    (hform : ∃ d, s.find? c = some d ∧ d.form = .trait) : s.Settles known c := by
  intro name property t ha
  rcases Descriptor.typeOf_told (Descriptor.told_of_write (Descriptor.mem_of_accessor? ha))
    with heq | hany
  · exact .inl heq
  · exact .inr ⟨hall.not_primitive hc hform ha hany, hall.plain hc hform ha hany⟩

/-- Whatever fails leaves all entities as they are. And what is done with entities
keeps those of a class checked just where the class is settled. -/
theorem checked_iff (hc : known c) (hform : ∃ d, s.find? c = some d ∧ d.form = .trait) :
    (∀ (b : Bench) (h : Handling) (failure : Failure), (b.handle h).1 = .error failure →
      (b.handle h).2.entities = b.entities) ∧
    (Checks s known c ↔ s.Settles known c) := by
  refine ⟨fun b h failure => handle_failed, fun hall => settles_of_checks hall hc hform, ?_⟩
  exact fun hs handlings hr => checked_after hs sound_fresh (fun e he => by cases he) hr

/-! ### Lamps, and a class whose accessors disagree -/

/-- A getter of texts and a setter of flags are of one property. -/
def clashClass : EntityClass :=
  { name := "misc::Clash", form := .trait, table := some ""
    methods := [.getter "getActive" .text, .setter "setActive" (.primitive .bool)] }

/-- The accessors of the flag agree. Those of the label do not, but bytes are kept
as they are. -/
def lampClass : EntityClass :=
  { name := "misc::Lamp", form := .trait, table := some ""
    methods := [.getter "isActive" (.primitive .bool), .setter "setActive" (.primitive .bool),
      .getter "getLabel" .text, .setter "setLabel" .bytes] }

/-- The reference to the class whose accessors disagree. -/
def clashRef : ClassRef := ⟨0, "misc::Clash"⟩

/-- The reference to the class of lamps. -/
def lampRef : ClassRef := ⟨1, "misc::Lamp"⟩

/-- The two classes. -/
def misc : Schema := ⟨[clashClass, lampClass]⟩

theorem ofClass_clash : Descriptor.ofClass misc clashRef =
    (Schema.baseMethods ++ clashClass.methods).foldl Descriptor.add (.empty clashRef) := by
  rw [Descriptor.ofClass, Schema.allMethods,
    Schema.lineage_of_no_parents (d := clashClass) rfl rfl]
  rfl

theorem ofClass_lamp : Descriptor.ofClass misc lampRef =
    (Schema.baseMethods ++ lampClass.methods).foldl Descriptor.add (.empty lampRef) := by
  rw [Descriptor.ofClass, Schema.allMethods,
    Schema.lineage_of_no_parents (d := lampClass) rfl rfl]
  rfl

theorem not_settles_clash : ¬ misc.Settles known clashRef := by
  intro h
  have hsetter : (Descriptor.ofClass misc clashRef).accessor? "setActive" =
      some (.write "active" (.primitive .bool)) := by
    rw [ofClass_clash]
    decide +kernel
  have hany : (Descriptor.ofClass misc clashRef).typeOf "active" = .any := by
    rw [ofClass_clash]
    decide +kernel
  cases hany.symm.trans (h.typeOf hsetter)

theorem settles_lamp : misc.Settles known lampRef := by
  refine .of_settles ?_
  rw [ofClass_lamp]
  decide +kernel

/-- Lamps stay checked. Of the other class, some run leaves an entity that is not. -/
theorem checks_lamp_not_clash : Checks misc (fun _ => True) lampRef ∧
    ∃ handlings : List Handling, (∀ h ∈ handlings, h.Real misc fun _ => True) ∧
      ∃ e ∈ ((fresh misc).after handlings).entities,
        e.descriptor = Descriptor.ofClass misc clashRef ∧ ¬ e.Checked misc := by
  have hlamp := (checked_iff trivial ⟨lampClass, rfl, rfl⟩ :
    _ ∧ (Checks misc (fun _ => True) lampRef ↔ _)).2
  have hclash := (checked_iff trivial ⟨clashClass, rfl, rfl⟩ :
    _ ∧ (Checks misc (fun _ => True) clashRef ↔ _)).2
  refine ⟨hlamp.2 settles_lamp, ?_⟩
  have hnot := mt hclash.1 not_settles_clash
  simp only [Checks, AllChecked, not_forall] at hnot
  obtain ⟨handlings, hreal, e, he, hd, hchecked⟩ := hnot
  exact ⟨handlings, hreal, e, he, hd, hchecked⟩

end Bench
end Folio
