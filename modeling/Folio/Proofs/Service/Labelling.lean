import Folio.Proofs.Collection.Labels
import Folio.Proofs.Service.Course

/-!
# What a service lets into the store

A service with the stages for the known capabilities saves and deletes records of
one class, which has names and descriptions. The stages look only at what is not as
it is stored, and the stage for descriptions changes the record that it looks at.
Yet where everything that is stored has an allowed name and an allowed description,
so it stays, whatever is saved or deleted and whatever becomes of it.

Results:
* `name_passed`, `description_passed`: what passes the stages.
* `Subject.Mild`, `Service.Checks`: what is asked of other stages, of listeners and of
  the service.
* `labelled_of_validate`: what a record has that passes without errors.
* `labelled_perform`, `labels_last`: what one call keeps, and what any sequence of
  calls keeps.
-/
namespace Folio

variable {L : Type} {schema : Schema} {known : ClassRef → Prop}

/-! ## What passes the stages -/

/-- What was reported is not taken back. -/
def Subject.Reported (before after : Subject Entity L) : Prop :=
  before.report.hasErrors = true → after.report.hasErrors = true

namespace Subject

theorem reported_frame : Frame (Reported (L := L)) :=
  ⟨fun _ h => h, fun h h' hb => h' (h hb)⟩

theorem reported_addField (name message : String) :
    Within (Reported (L := L)) (addField name message) :=
  fun subject _ => Report.hasErrors_addField subject.report name message

/-- Unsetting a property unsets it. -/
theorem unset_modify {name : String} {before after : Subject Entity L}
    (h : (held (Held.modify name none) : SubjectM Entity L Unit).run before = (.ok (), after)) :
    Keyed.get? name after.record.attributes = none := by
  rw [run_held] at h
  rcases Held.modify_cases name none ⟨before.record, before.context.backend⟩ with
    ⟨failure, -, hrun⟩ | ⟨next, hset, hrun⟩ <;> rw [hrun] at h <;> cases h
  rcases Entity.write_cases hset with ⟨-, -, rfl⟩ | ⟨v, stored, hv, -⟩
  · rw [hold, Keyed.get?_erase, if_pos rfl]
  · cases hv

end Subject

namespace Validation

theorem textOf_of_get? {e : Entity} {k : String} {text : Option String}
    (h : Keyed.get? k e.attributes = text.map .text) : textOf e k = text := by
  rw [textOf, show Record.property e k = text.map .text from h]
  cases text <;> rfl

variable {stored : Option Entity} {before after : Subject Entity L}

/-- Where no error was reported there was none to report. -/
theorem eq_nil_of_forM {faults : List NameFault}
    (hrun : (faults.forM fun f => Subject.addField nameProperty f.message :
      SubjectM Entity L Unit).run before = (.ok (), after))
    (h : after.report.hasErrors = false) : faults = [] := by
  cases faults with
  | nil => rfl
  | cons f rest =>
    have hreported := Report.hasErrors_addField before.report nameProperty f.message
    have hkept := Subject.reported_frame.within_forM
      (fun f : NameFault => Subject.reported_addField nameProperty f.message) rest
      { before with report := before.report.addField nameProperty f.message } hreported
    rw [show (rest.forM fun f => Subject.addField nameProperty f.message :
      SubjectM Entity L Unit).run _ = (.ok (), after) from hrun, h] at hkept
    cases hkept

/-- A name that passes is that of the stored version, or is set and allowed. -/
theorem name_passed {bounds : NameBounds}
    (hrun : ((name bounds : Validation Entity L).check stored).run before = (.ok (), after))
    (h : after.report.hasErrors = false) :
    (∃ o ∈ stored, textOf o nameProperty = textOf before.record nameProperty) ∨
      ∃ n ∈ textOf before.record nameProperty, bounds.Admits n := by
  have hunset : ∀ message, ((Subject.addField nameProperty message : SubjectM Entity L Unit).run
      before = (.ok (), after)) → False := by
    rintro message hadd
    cases hadd
    rw [Report.hasErrors_addField] at h
    cases h
  unfold name at hrun
  rw [run_bind_ok (run_getThe before)] at hrun
  dsimp only at hrun
  split at hrun
  · next hsame =>
    cases stored with
    | none => cases hsame
    | some o => exact .inl ⟨o, rfl, of_decide_eq_true hsame⟩
  · cases hname : textOf before.record nameProperty with
    | none =>
      rw [hname] at hrun
      exact absurd hrun (hunset _)
    | some n =>
      rw [hname] at hrun
      dsimp only at hrun
      split at hrun
      · exact absurd hrun (hunset _)
      · next hblank =>
        exact .inr ⟨n, rfl, NameBounds.admits_iff.2
          ⟨eq_false_of_ne_true hblank, eq_nil_of_forM hrun h⟩⟩

/-- A description that passes is cleared, or it stays as it is, and is that of the
stored version or allowed. -/
theorem description_passed {limits : Limits}
    (hrun : ((description limits.description : Validation Entity L).check stored).run before =
      (.ok (), after)) (h : after.report.hasErrors = false) :
    Keyed.get? descriptionProperty after.record.attributes = none ∨
      after.record = before.record ∧
        ((∃ o ∈ stored, textOf o descriptionProperty = textOf before.record descriptionProperty) ∨
          ∀ d ∈ textOf before.record descriptionProperty, limits.Describes d) := by
  unfold description at hrun
  rw [run_bind_ok (run_getThe before)] at hrun
  dsimp only at hrun
  rw [apply_ite fun m : SubjectM Entity L Unit => m.run before, ite_eq_iff] at hrun
  rcases hrun with ⟨hsame, hrun⟩ | ⟨-, hrun⟩
  · cases hrun
    refine .inr ⟨rfl, ?_⟩
    cases stored with
    | none =>
      refine .inr fun d hd => ?_
      rw [show textOf before.record descriptionProperty = some d from hd] at hsame
      cases hsame
    | some o => exact .inl ⟨o, rfl, by simpa using hsame⟩
  cases htext : textOf before.record descriptionProperty with
  | none =>
    rw [htext] at hrun
    exact .inl (Subject.unset_modify hrun)
  | some d =>
    rw [htext] at hrun
    dsimp only at hrun
    split at hrun
    · exact .inl (Subject.unset_modify hrun)
    next hvisible =>
    split at hrun
    · cases hrun
      rw [Report.hasErrors_addField] at h
      cases h
    · next hshort =>
      cases hrun
      refine .inr ⟨rfl, .inr fun d' hd => ?_⟩
      cases hd
      exact Limits.describes_iff.2 ⟨eq_false_of_ne_true hvisible, hshort⟩

end Validation

/-! ## Stages that leave names and descriptions alone -/

/-- What is stored stays as it is, and texts are still stored as they are. -/
structure Context.Unaltered (schema : Schema) (known : ClassRef → Prop) (before after : Context L) :
    Prop where
  store : before.backend.store.Same after.backend.store
  registry : before.backend.registry.Literal schema known → after.backend.registry.Literal schema known

theorem Context.unaltered_frame : Frame (Unaltered schema known (L := L)) :=
  ⟨fun _ => ⟨.refl _, fun h => h⟩,
    fun h h' => ⟨h.store.trans h'.store, fun hr => h'.registry (h.registry hr)⟩⟩

namespace Subject

/-- What is stored stays as it is, and so does the name of the record. Its
description is at most unset, and what was reported is not taken back. -/
structure Mild (schema : Schema) (known : ClassRef → Prop) (before after : Subject Entity L) :
    Prop where
  context : before.context.Unaltered schema known after.context
  name : Keyed.get? nameProperty after.record.attributes =
    Keyed.get? nameProperty before.record.attributes
  description : Keyed.get? descriptionProperty after.record.attributes =
      Keyed.get? descriptionProperty before.record.attributes ∨
    Keyed.get? descriptionProperty after.record.attributes = none
  errors : before.Reported after

theorem mild_frame : Frame (Mild schema known (L := L)) where
  refl subject := ⟨Context.unaltered_frame.refl _, rfl, .inl rfl, reported_frame.refl subject⟩
  trans h h' := by
    refine ⟨Context.unaltered_frame.trans h.context h'.context, h'.name.trans h.name, ?_,
      reported_frame.trans h.errors h'.errors⟩
    rcases h'.description with heq | hnone
    · rw [heq]
      exact h.description
    · exact .inr hnone

/-- A report is mild. -/
theorem mild_addField (name message : String) :
    Within (Mild schema known (L := L)) (addField name message) :=
  fun subject => ⟨Context.unaltered_frame.refl _, rfl, .inl rfl, reported_addField name message subject⟩

/-- So is clearing the description, which may fail. -/
theorem mild_clear :
    Within (Mild schema known (L := L)) (held (Held.modify descriptionProperty none)) := by
  intro subject
  rw [run_held]
  rcases Held.modify_cases descriptionProperty none ⟨subject.record, subject.context.backend⟩ with
    ⟨failure, -, hrun⟩ | ⟨next, hset, hrun⟩
  · rw [hrun]
    exact mild_frame.refl subject
  · -- the stage for descriptions leaves the record without one
    have hunset := unset_modify (by rw [run_held, hrun])
    rw [hrun]
    exact ⟨Context.unaltered_frame.refl _, Entity.get?_write (by decide) hset, .inr hunset, fun h => h⟩

/-- A description that was a text or unset is so, and a bound on it still holds. -/
theorem Mild.described {before after : Subject Entity L} (h : before.Mild schema known after)
    {P : String → Prop} {description : Option String} (hd : ∀ d ∈ description, P d)
    (hget : Keyed.get? descriptionProperty before.record.attributes = description.map .text) :
    ∃ description : Option String, (∀ d ∈ description, P d) ∧
      Keyed.get? descriptionProperty after.record.attributes = description.map .text := by
  rcases h.description with heq | hnone
  · exact ⟨description, hd, heq.trans hget⟩
  · exact ⟨none, fun d hd => (by cases hd), hnone⟩

end Subject

/-- The listener leaves what is stored alone. It may fail. -/
structure Listener.Mild (schema : Schema) (known : ClassRef → Prop) (l : Listener Entity L) :
    Prop where
  saved : ∀ e notice, Within (Context.Unaltered schema known) (l.onSaved e notice)
  deleted : ∀ e, Within (Context.Unaltered schema known) (l.onDeleted e)

namespace Service

variable {s : Service Entity L} {limits : Limits} {stages : List (Validation Entity L)}
  {subject after : Subject Entity L} {newId : Option ObjectId} {ambient : Ambient}

/-- The service has records with names and descriptions and the stages for both,
beside stages and a listener that leave both and what is stored alone. -/
structure Checks (limits : Limits) (schema : Schema) (known : ClassRef → Prop) (s : Service Entity L) :
    Prop where
  labels : schema.Labels known s.collection.cls
  name : ∃ p, (p, Validation.name limits.name) ∈ s.general.getD []
  description : ∃ p, (p, Validation.description limits.description) ∈ s.general.getD []
  stages : ∀ v ∈ (s.chain []).order, v.Respects (Subject.Mild schema known)
  listener : ∀ l ∈ s.listener, l.Mild schema known

/-- A service checks names and descriptions once it is given the stages for the known
capabilities, within the bounds that are configured. -/
theorem checks_addBuiltin {base : Service Entity L} {config : Config}
    (h : base.addBuiltin config = .ok s) (hlabels : schema.Labels known base.collection.cls)
    (hstages : ∀ v ∈ (base.chain []).order, v.Respects (Subject.Mild schema known))
    (hlistener : ∀ l ∈ base.listener, l.Mild schema known) :
    s.Checks (.ofConfig config) schema known := by
  have hrespects := respects_addBuiltin Subject.mild_frame Subject.mild_addField Subject.mild_clear h
    hstages
  obtain ⟨bounds, hbounds, h⟩ := ok_of_bind h
  obtain rfl := NameBounds.eq_of_bounds hbounds
  cases h
  refine ⟨hlabels, ⟨.pre, List.mem_append_right _ ?_⟩, ⟨.pre, List.mem_append_right _ ?_⟩, hrespects,
    hlistener⟩
  · exact List.mem_cons_self
  · exact List.mem_cons_of_mem _ List.mem_cons_self

theorem Checks.respects (hs : s.Checks limits schema known)
    (hstages : ∀ v ∈ stages, v.Respects (Subject.Mild schema known)) :
    s.Respects (Context.Unaltered schema known) (Subject.Mild schema known) stages :=
  ⟨Subject.mild_frame, respects_chain hs.stages hstages, fun _ _ h => h.context⟩

theorem Checks.idles (hs : s.Checks limits schema known) :
    s.Idles (Context.Unaltered schema known) where
  frame := Context.unaltered_frame
  looks c hc id context := ⟨c.findById_same (E := Entity) id context.backend,
    (Collection.sustains_findById hs.labels.closed (hc ▸ hs.labels.isKnown) id
      context.backend).literal⟩
  saved l hl := (hs.listener l hl).saved
  deleted l hl := (hs.listener l hl).deleted

/-! ## Validation -/

section Validated

variable (hs : s.Checks limits schema known)
  (hstages : ∀ v ∈ stages, v.Respects (Subject.Mild schema known))
  (hr : subject.context.backend.registry.Literal schema known) {stored : Option Entity}
  (hstored : ∀ o ∈ stored, o.Labelled limits)
  (hrun : ((s.chain stages).validate stored).run subject = (.ok (), after))
  (herrors : after.report.hasErrors = false)

include hs hstages hr hstored hrun herrors


/-- The name of a record that passes is set and allowed. -/
theorem Checks.named (hcls : schema.Carries .naming subject.record.cls) {name : Option String}
    (hname : Keyed.get? nameProperty subject.record.attributes = name.map .text) :
    ∃ n ∈ name, limits.name.Admits n := by
  obtain ⟨here, there, hhere, -, hthere, hcheck⟩ := (hs.respects hstages).passed_of_validate
    (fun _ _ h => h.errors) hs.name rfl
    (fun _ hhere => (hhere.context.registry hr).catalog.schema) hcls.implements hrun herrors
  have hlooked := Validation.name_passed hcheck hthere
  rw [Validation.textOf_of_get? (hhere.name.trans hname)] at hlooked
  rcases hlooked with ⟨o, ho, hsame⟩ | hadmits
  · obtain ⟨name', description', hallow, hname', -⟩ := hstored o ho
    rw [Validation.textOf_of_get? hname'] at hsame
    exact hsame ▸ hallow.name
  · exact hadmits

/-- Its description is unset or allowed. -/
theorem Checks.described (hcls : schema.Carries .describing subject.record.cls)
    {description : Option String}
    (hdescription : Keyed.get? descriptionProperty subject.record.attributes =
      description.map .text) :
    ∃ description : Option String, (∀ d ∈ description, limits.Describes d) ∧
      Keyed.get? descriptionProperty after.record.attributes = description.map .text := by
  obtain ⟨here, there, hhere, hafter, hthere, hcheck⟩ := (hs.respects hstages).passed_of_validate
    (fun _ _ h => h.errors) hs.description rfl
    (fun _ hhere => (hhere.context.registry hr).catalog.schema) hcls.implements hrun herrors
  obtain ⟨text, -, htext⟩ := hhere.described (P := fun _ => True) (fun _ _ => trivial) hdescription
  have hlooked := Validation.description_passed hcheck hthere
  rw [Validation.textOf_of_get? htext] at hlooked
  rcases hlooked with hunset | ⟨hrecord, ⟨o, ho, hsame⟩ | hdescribes⟩
  · have htext : Keyed.get? descriptionProperty there.record.attributes =
        (none : Option String).map .text := hunset
    exact hafter.described (fun d hd => by cases hd) htext
  · obtain ⟨name', description', hallow, -, hdescription'⟩ := hstored o ho
    rw [Validation.textOf_of_get? hdescription'] at hsame
    exact hafter.described (hsame ▸ hallow.description) (hrecord ▸ htext)
  · exact hafter.described hdescribes (hrecord ▸ htext)

end Validated

/-! ## Calls -/

/-- Texts are stored as they are, and everything that is stored has an allowed name
and an allowed description. -/
structure Labelled (limits : Limits) (schema : Schema) (known : ClassRef → Prop) (s : Service Entity L)
    (c : Context L) : Prop where
  registry : c.backend.registry.Literal schema known
  entries : ∀ x ∈ s.entries c, x.Labelled limits

theorem Labelled.unaltered {c d : Context L} (h : s.Labelled limits schema known c)
    (hcd : c.Unaltered schema known d) : s.Labelled limits schema known d := by
  have hsame : s.entries d = s.entries c := hcd.store s.collection.name
  exact ⟨hcd.registry h.registry, hsame ▸ h.entries⟩

/-- What a record is compared with has an allowed name and an allowed description. -/
theorem Compares.labelled (hs : s.Checks limits schema known) {stored : Option Entity}
    {looked : Subject Entity L} (hc : s.Labelled limits schema known subject.context)
    (h : s.Compares subject stored looked) : ∀ o ∈ stored, o.Labelled limits := by
  cases h with
  | new isNew => exact fun o ho => by cases ho
  | known isKnown found =>
    intro o ho
    cases ho
    exact Collection.labelled_findById (c := s.collection.unscoped) hs.labels rfl hc.registry hc.entries
      found

/-- A record of a class of the service that passes without errors has an allowed name
and an allowed description. -/
theorem Checks.labelled_of_validate (hs : s.Checks limits schema known)
    (hstages : ∀ v ∈ stages, v.Respects (Subject.Mild schema known))
    (hr : subject.context.backend.registry.Literal schema known)
    (hreachable : subject.record.Reachable schema known)
    (hname : subject.record.cls.name = s.collection.cls.name) {stored : Option Entity}
    (hstored : ∀ o ∈ stored, o.Labelled limits)
    (hrun : ((s.chain stages).validate stored).run subject = (.ok (), after))
    (herrors : after.report.hasErrors = false) : after.record.Labelled limits := by
  have hknown := hreachable.sound.named
  obtain ⟨hdescribed, hown⟩ := hreachable.cls_descriptor
  obtain ⟨name, hget⟩ := hreachable.text (hs.labels.names _ hdescribed (hown.trans hname)) rfl
  obtain ⟨description, hget'⟩ :=
    hreachable.text (hs.labels.descriptions _ hdescribed (hown.trans hname)) rfl
  have hadmits := hs.named hstages hr hstored hrun herrors (hs.labels.names _ hknown hname) hget
  obtain ⟨description', hdescribes, hget'⟩ := hs.described hstages hr hstored hrun herrors
    (hs.labels.descriptions _ hknown hname) hget'
  have hmild := Chain.within_validate stored Subject.mild_frame (hs.respects hstages).stages subject
  rw [hrun] at hmild
  exact ⟨name, description', ⟨hadmits, hdescribes⟩, hmild.name.trans hget, hget'⟩

/-- A save keeps the names and descriptions, whether or not it succeeds. -/
theorem labelled_saving (hs : s.Checks limits schema known)
    (hstages : ∀ v ∈ stages, v.Respects (Subject.Mild schema known)) {d : Context L}
    (hc : s.Labelled limits schema known subject.context)
    (hreachable : subject.record.Reachable schema known)
    (hname : subject.record.cls.name = s.collection.cls.name)
    (h : s.Saving (Context.Unaltered schema known) newId stages ambient subject d) :
    s.Labelled limits schema known d := by
  cases h with
  | idle within => exact hc.unaltered within
  | @wrote stored looked checked saved held compared validated noErrors write rest =>
    have hlooked := hc.unaltered (compared.within hs.idles)
    have hmild := Chain.within_validate stored Subject.mild_frame (hs.respects hstages).stages looked
    rw [validated] at hmild
    have hchecked := hlooked.unaltered hmild.context
    have hrecord : checked.record.Labelled limits :=
      hs.labelled_of_validate hstages hlooked.registry (compared.record ▸ hreachable)
        (compared.record ▸ hname) (compared.labelled hs hc) validated noErrors
    have hwritten : s.Labelled limits schema known (checked.hold held).context :=
      ⟨(Collection.save_put schema known write).1.literal hchecked.registry,
        Collection.labelled_save hchecked.registry hchecked.entries hrecord write⟩
    exact hwritten.unaltered rest

/-- So does a delete. -/
theorem labelled_removing (hs : s.Checks limits schema known) {id : Option ObjectId} {c d : Context L}
    (hc : s.Labelled limits schema known c)
    (h : s.Removing (Context.Unaltered schema known) id c d) : s.Labelled limits schema known d := by
  cases h with
  | idle within => exact hc.unaltered within
  | @wrote looked deleted b before write rest =>
    have hlooked := hc.unaltered before
    have hsustains := Collection.sustains_deleteById hs.labels.closed hs.labels.isKnown id
      looked.backend
    rw [write] at hsustains
    have hwritten : s.Labelled limits schema known { looked with backend := b } :=
      ⟨hsustains.literal hlooked.registry, Collection.labelled_deleteById hlooked.entries write⟩
    exact hwritten.unaltered rest

/-- The call is for a record of the class, in any state, with stages that leave names,
descriptions and what is stored alone. -/
def Call.Mild (schema : Schema) (known : ClassRef → Prop) (s : Service Entity L) :
    Call Entity L → Prop
  | .save record _ _ stages _ =>
    (∀ e ∈ record, e.Reachable schema known ∧ e.cls.name = s.collection.cls.name) ∧
      ∀ v ∈ stages, v.Respects (Subject.Mild schema known)
  | .delete _ _ stages => ∀ v ∈ stages, v.Respects (Subject.Mild schema known)

/-- One call keeps the names and descriptions. -/
theorem labelled_perform (hs : s.Checks limits schema known) {call : Call Entity L}
    (hcall : call.Mild schema known s) {c : Context L} (hc : s.Labelled limits schema known c) :
    s.Labelled limits schema known (s.perform c call).context := by
  cases call with
  | save record newId sink stages ambient =>
    cases record with
    | none => exact hc
    | some e =>
      obtain ⟨hreachable, hname⟩ := hcall.1 e rfl
      exact labelled_saving hs hcall.2 hc hreachable hname
        (saving_perform hs.idles (hs.respects hcall.2) e sink)
  | delete id sink stages =>
    exact labelled_removing hs hc (removing_perform hs.idles (hs.respects hcall) sink)

/-- Through any sequence of calls, whatever becomes of each, everything that is stored
has an allowed name and an allowed description if everything had at first. What can be
read of it has the same. -/
theorem labels_last (hs : s.Checks limits schema known) {calls : Nat → Call Entity L}
    (hcalls : ∀ n, (calls n).Mild schema known s) {c : Context L}
    (hc : s.Labelled limits schema known c) (n : Nat) :
    ∀ e ∈ s.entries (s.trace calls c n), e.Labelled limits ∧
      ∀ doc, e.document = .ok doc → doc.Labelled limits := by
  have hkept := invariant_trace (P := s.Labelled limits schema known)
    (fun n c hc => labelled_perform hs (hcalls n) hc) hc n
  exact fun e he => ⟨hkept.entries e he, fun doc hd => ((hkept.entries e he).read hd).2⟩

/-! ## A library of shelves -/

/-- Shelves, which have names and descriptions and can be defunct. -/
def shelfClass : EntityClass :=
  { name := "library::Shelf", form := .trait, table := some "shelves"
    capabilities := [.namable, .describable, .defunctable] }

/-- The reference to the class of shelves. -/
def shelfRef : ClassRef := ⟨0, "library::Shelf"⟩

/-- The one class. -/
def library : Schema := ⟨[shelfClass]⟩

/-- Every name stands for the shelves. -/
def libraryNames : Names := ⟨fun _ => shelfRef, fun name => ⟨name, []⟩⟩

theorem lineage_shelf : library.lineage shelfRef = [shelfClass] :=
  Schema.lineage_of_no_parents rfl rfl

theorem ofClass_shelf : Descriptor.ofClass library shelfRef =
    (Schema.baseMethods ++ Schema.declared shelfClass).foldl Descriptor.add
      (Descriptor.empty shelfRef) := by
  rw [Descriptor.ofClass, Schema.allMethods, lineage_shelf]
  rfl

theorem labels_shelf : library.Labels libraryNames.Knows shelfRef := by
  have hrefers : ∀ p ∈ ((Schema.baseMethods ++ Schema.declared shelfClass).foldl Descriptor.add
      (Descriptor.empty shelfRef)).properties, p.type = .objectId ∨ p.type = .dateTime ∨
        p.type = .text ∨ p.type = .primitive .bool := by decide +kernel
  refine ⟨rfl, fun c hc p hp => ?_, fun c hc _ => ?_, fun c hc _ => ?_⟩
  · rw [← show shelfRef = c from hc, ofClass_shelf] at hp
    rcases hrefers p hp with h | h | h | h <;> rw [h] <;> trivial
  · rw [← show shelfRef = c from hc]
    exact .of_lineage lineage_shelf (by decide) (by decide +kernel) (by decide +kernel)
  · rw [← show shelfRef = c from hc]
    exact .of_lineage lineage_shelf (by decide) (by decide +kernel) (by decide +kernel)

/-- A shelf with an id, or a new one. -/
def shelf (id : Option ObjectId) (name description : String) : Entity :=
  ⟨shelfRef, Descriptor.ofClass library shelfRef,
    (id.map fun id => (Naming.idProperty, FieldValue.objectId id)).toList ++
      [(defunctProperty, .bool false), (descriptionProperty, .text description),
        (nameProperty, .text name)]⟩

theorem reachable_shelf (id : Option ObjectId) (name description : String) :
    (shelf id name description).Reachable library libraryNames.Knows := by
  have htypes : (Descriptor.ofClass library shelfRef).typeOf Naming.idProperty = .objectId ∧
      (Descriptor.ofClass library shelfRef).typeOf defunctProperty = .primitive .bool ∧
      (Descriptor.ofClass library shelfRef).typeOf descriptionProperty = .text ∧
      (Descriptor.ofClass library shelfRef).typeOf nameProperty = .text ∧
      (Descriptor.ofClass library shelfRef).defaults = [(defunctProperty, .bool)] := by
    rw [ofClass_shelf]
    decide +kernel
  obtain ⟨hid, hmark, hdescription, hname, hdefaults⟩ := htypes
  have hattributes : ∀ a ∈ (shelf id name description).attributes,
      (∃ id, a = (Naming.idProperty, .objectId id)) ∨ a = (defunctProperty, .bool false) ∨
        a = (descriptionProperty, .text description) ∨ a = (nameProperty, .text name) := by
    cases id <;> simp [shelf]
  refine .of_kept rfl ⟨shelfClass, rfl, rfl⟩ ?_ ?_ ?_ ?_
  · have hsorted : [Naming.idProperty, defunctProperty, descriptionProperty, nameProperty].Pairwise
        (· < ·) := by decide
    cases id with
    | none => exact List.pairwise_map.1 hsorted.of_cons
    | some id => exact List.pairwise_map.1 hsorted
  · intro a ha
    rcases hattributes a ha with ⟨id, rfl⟩ | rfl | rfl | rfl
    · rw [hid]
      exact ⟨rfl, rfl, rfl⟩
    · rw [hmark]
      exact ⟨rfl, rfl, rfl⟩
    · rw [hdescription]
      exact ⟨rfl, rfl, rfl⟩
    · rw [hname]
      exact ⟨rfl, rfl, rfl⟩
  · rw [hdefaults]
    intro p hp
    rw [List.mem_singleton.1 hp]
    cases id <;> rfl
  · intro a ha n hn
    rcases hattributes a ha with ⟨id, rfl⟩ | rfl | rfl | rfl
    all_goals cases FieldValue.eq_of_partOf_leaf rfl hn

/-- The shelves, of which defunct ones are not seen, behind the stages for the known
capabilities. -/
def librarian : Service Entity Unit :=
  ⟨⟨shelfRef, "shelves", .defunct⟩,
    some [(.pre, .name ⟨some 2, some 16⟩), (.pre, .description (some 50)), (.pre, .defunct)], none⟩

/-- A document of a shelf. -/
def mapsShelf : Document :=
  ⟨[(idField, .objectId (.ofParts 1 1)), (defunctProperty, .bool false), (nameProperty, .text "Maps")]⟩

/-- The entry that keeps the document. -/
def keptShelf : Stored :=
  ⟨.objectId (.ofParts 1 1), (Cbor.encodeDocument mapsShelf).toOption.getD []⟩

/-- One shelf is stored. -/
def readingRoom : Context Unit :=
  ⟨⟨{ collections := [("shelves", [keptShelf])] }, ⟨⟨library, [], []⟩, none, [], [], 0⟩⟩, ()⟩

/-- Again and again the shelf gets a blank description and a name with stray
whitespace, a new one is saved, and the first is deleted. -/
def requests (n : Nat) : Call Entity Unit :=
  match n % 4 with
  | 0 => .save (some (shelf (some (.ofParts 1 1)) "Maps" "  ")) none none [] Collection.early
  | 1 => .save (some (shelf (some (.ofParts 1 1)) "Old  maps " "Worn")) none none [] Collection.early
  | 2 => .save (some (shelf none "Atlases" "\n")) none none [] Collection.early
  | _ => .delete (some (.ofParts 1 1)) none []

theorem mild_requests (n : Nat) : (requests n).Mild library libraryNames.Knows librarian := by
  unfold requests
  split
  all_goals first
    | exact fun v hv => by cases hv
    | exact ⟨fun e he => by cases he; exact ⟨reachable_shelf _ _ _, rfl⟩, fun v hv => by cases hv⟩

/-- Every shelf keeps an allowed name, and an allowed description if any. -/
theorem labels_last_shelf :
    librarian.Checks (.ofConfig .standard) library libraryNames.Knows ∧
    librarian.Labelled (.ofConfig .standard) library libraryNames.Knows readingRoom ∧
    ∀ n, ∀ e ∈ librarian.entries (librarian.trace requests readingRoom n),
      e.Labelled (.ofConfig .standard) := by
  have hchecks : librarian.Checks (.ofConfig .standard) library libraryNames.Knows := by
    have hadded : (⟨⟨shelfRef, "shelves", .defunct⟩, none, none⟩ : Service Entity Unit).addBuiltin
        .standard = .ok librarian := rfl
    refine checks_addBuiltin hadded labels_shelf ?_ ?_
    · exact fun v hv => by cases hv
    · exact fun l hl => by cases hl
  have hregistry : readingRoom.backend.registry.Literal library libraryNames.Knows := by
    refine ⟨⟨?_, ?_, ?_, rfl, ?_⟩, ?_⟩ <;> exact fun p hp => by cases hp
  have hadmits : (Limits.ofConfig .standard).name.Admits "Maps" :=
    NameBounds.admits_iff.2 (by decide +kernel)
  have hlabelled : librarian.Labelled (.ofConfig .standard) library libraryNames.Knows readingRoom := by
    refine ⟨hregistry, List.forall_mem_singleton.2 ⟨mapsShelf, rfl, some "Maps", none, ?_, ?_, ?_⟩⟩
    · exact ⟨⟨"Maps", rfl, hadmits⟩, fun d hd => by cases hd⟩
    · exact .text rfl
    · exact .missing rfl
  exact ⟨hchecks, hlabelled, fun n e he => (labels_last hchecks mild_requests hlabelled n e he).1⟩

end Service
end Folio
