import Folio.Proofs.Collection.Marking
import Folio.Proofs.Service.Course

/-!
# What a service never takes back

A service that guards the mark of defunct records saves and deletes records of one
class in the defunct scope, with any records, ids, reports and stages that are
handed to it. Whether a call succeeds or fails, what is stored advances: a record
that is stored stays, a mark that it has stays, and a record that is new has none.
Neither a record from before its deletion that is saved again nor an id that is
given twice makes a difference.

Results:
* `Subject.Guarded`, `Service.Guards`: what is asked of stages, of listeners and of
  the service.
* `perform_advance`: what one call does to what is stored.
* `marks_last`: what any sequence of calls does.
-/
namespace Folio

variable {L : Type} {schema : Schema} {known : ClassRef → Prop}

open Stored (Records Advance Lasts)

/-- What is stored stays as it is, and the registry stays sound. -/
structure Context.Untouched (schema : Schema) (known : ClassRef → Prop) (before after : Context L) :
    Prop where
  store : before.backend.store.Same after.backend.store
  registry : before.backend.StaysSound schema known after.backend

theorem Context.untouched_frame : Frame (Untouched schema known (L := L)) :=
  ⟨fun _ => ⟨.refl _, fun h => h⟩,
    fun h h' => ⟨h.store.trans h'.store, fun hr => h'.registry (h.registry hr)⟩⟩

namespace Subject

/-- What is stored stays as it is, and so do the class, the identity and the mark of
the record. What was reported is not taken back. -/
structure Guarded (schema : Schema) (known : ClassRef → Prop) (before after : Subject Entity L) :
    Prop where
  context : before.context.Untouched schema known after.context
  cls : after.record.cls = before.record.cls
  id : Record.property after.record Naming.idProperty = Record.property before.record Naming.idProperty
  mark : Record.property after.record defunctProperty = Record.property before.record defunctProperty
  errors : before.report.hasErrors = true → after.report.hasErrors = true

theorem guarded_frame : Frame (Guarded schema known (L := L)) := by
  refine ⟨fun _ => ⟨Context.untouched_frame.refl _, rfl, rfl, rfl, fun h => h⟩, fun h h' => ?_⟩
  exact ⟨Context.untouched_frame.trans h.context h'.context, h'.cls.trans h.cls, h'.id.trans h.id,
    h'.mark.trans h.mark, fun he => h'.errors (h.errors he)⟩

theorem Guarded.id_eq {before after : Subject Entity L} (h : Guarded schema known before after) :
    Record.id? after.record = Record.id? before.record := by
  rw [Record.id?, h.id]
  rfl

theorem Guarded.flagOf {before after : Subject Entity L} (h : Guarded schema known before after) :
    Validation.flagOf after.record defunctProperty = Validation.flagOf before.record defunctProperty := by
  rw [Validation.flagOf, h.mark]
  rfl

theorem guarded_addField (name message : String) :
    Within (Guarded schema known (L := L)) (addField name message : SubjectM Entity L Unit) := by
  exact fun subject => ⟨Context.untouched_frame.refl _, rfl, rfl, rfl, fun _ =>
    Report.hasErrors_addField subject.report name message⟩

/-- Setting or unsetting a property other than the identity and the mark. -/
theorem guarded_modify {name : String} (hid : Naming.idProperty ≠ name) (hmark : defunctProperty ≠ name)
    (value : Option FieldValue) :
    Within (Guarded schema known (L := L)) (held (Held.modify name value) : SubjectM Entity L Unit) := by
  intro subject
  rw [run_held]
  rcases Held.modify_cases name value ⟨subject.record, subject.context.backend⟩ with
    ⟨failure, -, hrun⟩ | ⟨next, hset, hrun⟩ <;> rw [hrun]
  · exact guarded_frame.refl subject
  · exact ⟨Context.untouched_frame.refl _, (Entity.write_ok hset).1, Entity.get?_write hid hset,
      Entity.get?_write hmark hset, fun h => h⟩

end Subject

/-- The listener leaves what is stored alone. It may fail. -/
structure Listener.Aloof (schema : Schema) (known : ClassRef → Prop) (l : Listener Entity L) :
    Prop where
  saved : ∀ e notice, Within (Context.Untouched schema known) (l.onSaved e notice)
  deleted : ∀ e, Within (Context.Untouched schema known) (l.onDeleted e)

/-- An entity with a mark is flagged as the mark says. -/
theorem Validation.flagOf_mark {e : Entity} {flag : Bool}
    (h : Keyed.get? defunctProperty e.attributes = some (.bool flag)) :
    flagOf e defunctProperty = flag := by
  rw [flagOf, show Record.property e defunctProperty = some (.bool flag) from h]
  rfl

/-- A record of another mark than its stored version is reported. -/
theorem Validation.flag_of_defunct {stored : Option Entity} {before after : Subject Entity L}
    (hrun : ((defunct : Validation Entity L).check stored).run before = (.ok (), after))
    (h : after.report.hasErrors = false) :
    flagOf before.record defunctProperty =
      (stored.map fun o => flagOf o defunctProperty).getD false := by
  refine Decidable.byContradiction fun hne => ?_
  unfold defunct at hrun
  rw [run_bind_ok (run_getThe before)] at hrun
  dsimp only at hrun
  rw [if_pos hne] at hrun
  cases hrun
  rw [Report.hasErrors_addField] at h
  cases h

/-- An entity that is new has no stored version; the stored version of another has
the mark that is stored under its id. -/
inductive Entity.Beside (e : Entity) (entries : List Stored) : Option Entity → Prop
  | new (h : Record.id? e = none) : Beside e entries none
  | known {stored : Entity} {id : ObjectId} (hid : Record.id? e = some id)
      (h : ∀ old ∈ entries, old.id = .objectId id → ∀ flag, old.Bears flag →
        Keyed.get? defunctProperty stored.attributes = some (.bool flag)) :
      Beside e entries (some stored)

/-- An entity of the same id that is flagged as the stored version heeds the marks. -/
theorem Entity.Beside.heeds {e x : Entity} {entries : List Stored} {stored : Option Entity} {flag : Bool}
    (h : e.Beside entries stored) (hid : Record.id? x = Record.id? e)
    (hmark : Keyed.get? defunctProperty x.attributes = some (.bool flag))
    (hflag : Validation.flagOf x defunctProperty =
      (stored.map fun o => Validation.flagOf o defunctProperty).getD false) :
    x.Heeds entries flag := by
  rw [Validation.flagOf_mark hmark] at hflag
  cases h with
  | new h =>
    refine ⟨hmark, fun _ => hflag, fun id hknown => ?_⟩
    rw [hid, h] at hknown
    cases hknown
  | @known stored id h hstored =>
    refine ⟨hmark, fun hnone => ?_, fun id' hid' old hold hsame hbears => ?_⟩
    · rw [hid, h] at hnone
      cases hnone
    · rw [hid, h] at hid'
      cases hid'
      exact hflag.trans (Validation.flagOf_mark (hstored old hold hsame true hbears))

namespace Service

variable {s : Service Entity L} {newId : Option ObjectId} {ambient : Ambient}

/-- The service has a defunct scope, records that have marks, and the stage for the
marks, beside stages and a listener that leave marks and what is stored alone. -/
structure Guards (schema : Schema) (known : ClassRef → Prop) (s : Service Entity L) : Prop where
  scope : s.collection.scope = .defunct
  markable : schema.Markable known s.collection.cls
  stage : ∃ p, (p, Validation.defunct) ∈ s.general.getD []
  stages : ∀ v ∈ (s.chain []).order, v.Respects (Subject.Guarded schema known)
  listener : ∀ l ∈ s.listener, l.Aloof schema known

/-- The entries advance, and the registry is sound. -/
structure Advances (schema : Schema) (known : ClassRef → Prop) (s : Service Entity L)
    (c d : Context L) : Prop where
  registry : d.backend.registry.Sound schema known
  entries : Advance (s.entries c) (s.entries d)

theorem entries_untouched {c d : Context L} (h : c.Untouched schema known d) :
    s.entries d = s.entries c := h.store s.collection.name

theorem advances_of_untouched {c d : Context L} (hr : c.backend.registry.Sound schema known)
    (h : c.Untouched schema known d) : s.Advances schema known c d :=
  ⟨h.registry hr, entries_untouched h ▸ .same⟩

theorem Advances.after {c c' d : Context L} (h : s.Advances schema known c' d)
    (hc : c.Untouched schema known c') : s.Advances schema known c d :=
  ⟨h.registry, entries_untouched hc ▸ h.entries⟩

theorem Advances.andThen {c d d' : Context L} (h : s.Advances schema known c d)
    (hd : d.Untouched schema known d') : s.Advances schema known c d' :=
  ⟨hd.registry h.registry, entries_untouched hd ▸ h.entries⟩

variable {stages : List (Validation Entity L)} {subject after : Subject Entity L}

/-! ## Validation -/

/-- A service guards the marks once it is given the stages for the known
capabilities. -/
theorem guards_addBuiltin {base : Service Entity L} {config : Config}
    (h : base.addBuiltin config = .ok s) (hscope : base.collection.scope = .defunct)
    (hmarkable : schema.Markable known base.collection.cls)
    (hstages : ∀ v ∈ (base.chain []).order, v.Respects (Subject.Guarded schema known))
    (hlistener : ∀ l ∈ base.listener, l.Aloof schema known) : s.Guards schema known := by
  have hclear : Within (Subject.Guarded schema known)
      (Subject.held (Held.modify descriptionProperty none) : SubjectM Entity L Unit) :=
    Subject.guarded_modify (by decide) (by decide) none
  have hrespects := respects_addBuiltin Subject.guarded_frame Subject.guarded_addField hclear h hstages
  obtain ⟨bounds, -, h⟩ := ok_of_bind h
  cases h
  refine ⟨hscope, hmarkable, ⟨.pre, List.mem_append_right _ ?_⟩, hrespects, hlistener⟩
  exact List.mem_cons_of_mem _ (List.mem_cons_of_mem _ List.mem_cons_self)

theorem Guards.respects (hs : s.Guards schema known)
    (hstages : ∀ v ∈ stages, v.Respects (Subject.Guarded schema known)) :
    s.Respects (Context.Untouched schema known) (Subject.Guarded schema known) stages :=
  ⟨Subject.guarded_frame, respects_chain hs.stages hstages, fun _ _ h => h.context⟩

theorem Guards.idles (hs : s.Guards schema known) : s.Idles (Context.Untouched schema known) where
  frame := Context.untouched_frame
  looks c hc id context := ⟨c.findById_same (E := Entity) id context.backend,
    (Collection.sustains_findById hs.markable.closed (hc ▸ hs.markable.isKnown) id
      context.backend).sound⟩
  saved l hl := (hs.listener l hl).saved
  deleted l hl := (hs.listener l hl).deleted

/-- A record that passes without errors is flagged as its stored version, or not if
there is none. -/
theorem Guards.flag_of_validate (hs : s.Guards schema known)
    (hstages : ∀ v ∈ stages, v.Respects (Subject.Guarded schema known))
    (hr : subject.context.backend.registry.Sound schema known)
    (hcls : schema.Marks subject.record.cls) {stored : Option Entity}
    (hrun : ((s.chain stages).validate stored).run subject = (.ok (), after))
    (herrors : after.report.hasErrors = false) :
    Validation.flagOf subject.record defunctProperty =
      (stored.map fun o => Validation.flagOf o defunctProperty).getD false := by
  obtain ⟨here, there, hhere, -, hthere, hcheck⟩ := (hs.respects hstages).passed_of_validate
    (fun _ _ h => h.errors) hs.stage rfl
    (fun _ hhere => (hhere.context.registry hr).catalog.schema) hcls.carries.implements hrun herrors
  rw [← hhere.flagOf]
  exact Validation.flag_of_defunct hcheck hthere

/-! ## Calls -/

/-- A record of a class of the service has a mark. -/
theorem Guards.mark (hs : s.Guards schema known) {e : Entity} (he : e.Reachable schema known)
    (hname : e.cls.name = s.collection.cls.name) :
    schema.Marks e.cls ∧ ∃ flag, Keyed.get? defunctProperty e.attributes = some (.bool flag) := by
  obtain ⟨hknown, hown⟩ := he.cls_descriptor
  exact ⟨hs.markable.marks _ he.sound.named hname,
    he.mark (hs.markable.marks _ hknown (hown.trans hname))⟩

/-- What a record is compared with stands beside it. -/
theorem Compares.beside (hs : s.Guards schema known) {stored : Option Entity}
    {looked : Subject Entity L} (hr : subject.context.backend.registry.Sound schema known)
    (hrecords : Records (s.entries subject.context)) (h : s.Compares subject stored looked) :
    subject.record.Beside (s.entries subject.context) stored := by
  cases h with
  | new isNew => exact .new isNew
  | known isKnown found =>
    exact .known isKnown fun old hold hsame flag hbears =>
      Collection.findById_mark (c := s.collection.unscoped) hs.markable rfl hr hrecords found hold
        hsame hbears

/-- A save advances the entries, whether or not it succeeds. -/
theorem save_advances (hs : s.Guards schema known)
    (hstages : ∀ v ∈ stages, v.Respects (Subject.Guarded schema known)) {d : Context L}
    (hr : subject.context.backend.registry.Sound schema known)
    (hrecords : Records (s.entries subject.context))
    (hreachable : subject.record.Reachable schema known)
    (hname : subject.record.cls.name = s.collection.cls.name)
    (h : s.Saving (Context.Untouched schema known) newId stages ambient subject d) :
    s.Advances schema known subject.context d := by
  obtain ⟨hcls, flag, hmark⟩ := hs.mark hreachable hname
  cases h with
  | idle within => exact advances_of_untouched hr within
  | @wrote stored looked checked saved held compared validated noErrors write rest =>
    have hlooked := compared.within hs.idles
    have hguarded := Chain.within_validate stored Subject.guarded_frame (hs.respects hstages).stages
      looked
    rw [validated] at hguarded
    have huntouched := Context.untouched_frame.trans hlooked hguarded.context
    have hentries : s.entries checked.context = s.entries subject.context :=
      entries_untouched huntouched
    have hheeds : checked.record.Heeds (s.entries checked.context) flag := by
      rw [hentries]
      refine (compared.beside hs hr hrecords).heeds (hguarded.id_eq.trans ?_) (hguarded.mark.trans ?_) ?_
      · rw [compared.record]
      · rw [compared.record]
        exact hmark
      · rw [hguarded.flagOf]
        exact hs.flag_of_validate hstages (hlooked.registry hr) (compared.record ▸ hcls) validated
          noErrors
    have hr' := huntouched.registry hr
    have hrecords' : Records (s.entries checked.context) := hentries ▸ hrecords
    have hadvance := Collection.save_advance hr' hrecords' hheeds write
    have hsound := (Collection.save_put schema known write).1.sound hr'
    have hwritten : s.Advances schema known checked.context (checked.hold held).context :=
      ⟨hsound, hadvance⟩
    exact (hwritten.andThen rest).after huntouched

/-- So does a delete. -/
theorem delete_advances (hs : s.Guards schema known) {id : Option ObjectId} {c d : Context L}
    (hr : c.backend.registry.Sound schema known) (hrecords : Records (s.entries c))
    (h : s.Removing (Context.Untouched schema known) id c d) : s.Advances schema known c d := by
  cases h with
  | idle within => exact advances_of_untouched hr within
  | @wrote looked deleted b before write rest =>
    have hsustains := Collection.sustains_deleteById hs.markable.closed hs.markable.isKnown id
      looked.backend
    rw [write] at hsustains
    have hrecords' : Records (s.entries looked) := entries_untouched before ▸ hrecords
    have hwritten : s.Advances schema known looked { looked with backend := b } :=
      ⟨hsustains.sound (before.registry hr), Collection.delete_advance hs.scope hrecords' write⟩
    exact (hwritten.andThen rest).after before

/-! ## Sequences of calls -/

/-- The call is for a record of the class, in any state, with stages that leave it
and what is stored alone. -/
def Call.Fair (schema : Schema) (known : ClassRef → Prop) (s : Service Entity L) :
    Call Entity L → Prop
  | .save record _ _ stages _ =>
    (∀ e ∈ record, e.Reachable schema known ∧ e.cls.name = s.collection.cls.name) ∧
      ∀ v ∈ stages, v.Respects (Subject.Guarded schema known)
  | .delete _ _ stages => ∀ v ∈ stages, v.Respects (Subject.Guarded schema known)

/-- One call advances the entries. -/
theorem perform_advance (hs : s.Guards schema known) {call : Call Entity L}
    (hcall : call.Fair schema known s) {c : Context L} (hr : c.backend.registry.Sound schema known)
    (hrecords : Records (s.entries c)) : s.Advances schema known c (s.perform c call).context := by
  cases call with
  | save record newId sink stages ambient =>
    cases record with
    | none => exact advances_of_untouched hr (Context.untouched_frame.refl c)
    | some e =>
      obtain ⟨hreachable, hname⟩ := hcall.1 e rfl
      exact save_advances hs hcall.2 hr hrecords hreachable hname
        (saving_perform hs.idles (hs.respects hcall.2) e sink)
  | delete id sink stages =>
    exact delete_advances hs hr hrecords (removing_perform hs.idles (hs.respects hcall) sink)

variable {calls : Nat → Call Entity L} {c : Context L}

/-- Through any sequence of calls the entries are records and the registry is
sound. -/
theorem records_trace (hs : s.Guards schema known) (hcalls : ∀ n, (calls n).Fair schema known s)
    (hr : c.backend.registry.Sound schema known) (hrecords : Records (s.entries c)) (n : Nat) :
    (s.trace calls c n).backend.registry.Sound schema known ∧
      Records (s.entries (s.trace calls c n)) := by
  refine invariant_trace (P := fun c => c.backend.registry.Sound schema known ∧
    Records (s.entries c)) (fun n c hc => ?_) ⟨hr, hrecords⟩ n
  have hstep := perform_advance hs (hcalls n) hc.1 hc.2
  exact ⟨hstep.registry, hc.2.advance hstep.entries⟩

/-- So each of the calls advances what the calls before it left. -/
theorem advance_trace (hs : s.Guards schema known) (hcalls : ∀ n, (calls n).Fair schema known s)
    (hr : c.backend.registry.Sound schema known) (hrecords : Records (s.entries c)) (n : Nat) :
    Advance (s.entries (s.trace calls c n)) (s.entries (s.trace calls c (n + 1))) := by
  obtain ⟨hr, hrecords⟩ := records_trace hs hcalls hr hrecords n
  exact (perform_advance hs (hcalls n) hr hrecords).entries

/-- Nothing is removed, and a mark stays, from any moment of the sequence to any
later one. -/
theorem lasts_trace (hs : s.Guards schema known) (hcalls : ∀ n, (calls n).Fair schema known s)
    (hr : c.backend.registry.Sound schema known) (hrecords : Records (s.entries c)) {m n : Nat}
    (h : m ≤ n) : Lasts (s.entries (s.trace calls c m)) (s.entries (s.trace calls c n)) := by
  induction h with
  | refl => exact .refl _
  | @step n _ ih => exact ih.trans (advance_trace hs hcalls hr hrecords n).lasts

/-- Through any sequence of calls, whatever becomes of each, there stay records of
different ids. Nothing is removed, and what is marked stays so. What comes to be is
not marked. An entry that can be read is read with the mark that it has. -/
theorem marks_last (hs : s.Guards schema known) (hcalls : ∀ n, (calls n).Fair schema known s)
    (hr : c.backend.registry.Sound schema known) (hrecords : Records (s.entries c)) :
    (∀ n, Records (s.entries (s.trace calls c n))) ∧
    (∀ m n, m ≤ n → Lasts (s.entries (s.trace calls c m)) (s.entries (s.trace calls c n))) ∧
    (∀ n, ∀ e ∈ s.entries (s.trace calls c (n + 1)),
      e.id ∉ (s.entries (s.trace calls c n)).map (·.id) → e.Bears false) ∧
    ∀ n, ∀ e ∈ s.entries (s.trace calls c n), ∀ doc, e.document = .ok doc →
      ∀ flag, e.Bears flag ↔ doc.get? defunctProperty = some (.bool flag) := by
  refine ⟨fun n => (records_trace hs hcalls hr hrecords n).2,
    fun m n h => lasts_trace hs hcalls hr hrecords h, fun n e he hnew => ?_,
    fun n e he doc hd flag => ?_⟩
  · exact (advance_trace hs hcalls hr hrecords n).created he hnew
  · exact (records_trace hs hcalls hr hrecords n).2.bears_iff he hd

/-! ## An archive of folders -/

/-- Folders, which can be defunct. -/
def folderClass : EntityClass :=
  { name := "archive::Folder", form := .trait, table := some "folders"
    capabilities := [.defunctable] }

/-- The reference to the class of folders. -/
def folderRef : ClassRef := ⟨0, "archive::Folder"⟩

/-- The one class. -/
def archive : Schema := ⟨[folderClass]⟩

/-- Every name stands for the folders. -/
def archiveNames : Names := ⟨fun _ => folderRef, fun name => ⟨name, []⟩⟩

theorem lineage_folder : archive.lineage folderRef = [folderClass] :=
  Schema.lineage_of_no_parents rfl rfl

theorem ofClass_folder : Descriptor.ofClass archive folderRef =
    (Schema.baseMethods ++ Capability.defunctable.methods).foldl Descriptor.add
      (Descriptor.empty folderRef) := by
  rw [Descriptor.ofClass, Schema.allMethods, lineage_folder]
  rfl

theorem marks_folder : archive.Marks folderRef := by
  have hflags : ∀ m ∈ Schema.declared folderClass, ∀ p ∈ m.told?, p.2 = .primitive .bool := by
    decide
  have hsetter : ∀ m ∈ Schema.declared folderClass, m.name = Method.setDefunct.name →
      m.params.length = 1 → m = .setDefunct := by decide
  refine ⟨?_, ?_, ?_⟩ <;> rw [lineage_folder]
  · exact ⟨folderClass, List.mem_singleton_self _, List.mem_singleton_self _⟩
  · intro d hd m hm t ht
    cases List.mem_singleton.1 hd
    exact hflags m hm _ ht.told?
  · intro d hd
    cases List.mem_singleton.1 hd
    exact hsetter

theorem markable_folder : archive.Markable archiveNames.Knows folderRef := by
  have hrefers : ∀ p ∈ ((Schema.baseMethods ++ Capability.defunctable.methods).foldl Descriptor.add
      (Descriptor.empty folderRef)).properties, p.type = .objectId ∨ p.type = .dateTime ∨
        p.type = .primitive .bool := by decide +kernel
  refine ⟨rfl, fun c hc p hp => ?_, fun c hc _ => ?_⟩
  · rw [← show folderRef = c from hc, ofClass_folder] at hp
    rcases hrefers p hp with h | h | h <;> rw [h] <;> trivial
  · rw [← show folderRef = c from hc]
    exact marks_folder

/-- A folder with an id and a mark, or with a mark only. -/
theorem reachable_folder {attributes : Fields} (hs : Keyed.Sorted attributes)
    (hm : (Keyed.get? defunctProperty attributes).isSome = true)
    (h : ∀ a ∈ attributes, (∃ id, a = (Naming.idProperty, .objectId id)) ∨
      ∃ flag, a = (defunctProperty, .bool flag)) :
    Entity.Reachable archive archiveNames.Knows
      ⟨folderRef, Descriptor.ofClass archive folderRef, attributes⟩ := by
  have htypes : (Descriptor.ofClass archive folderRef).typeOf Naming.idProperty = .objectId ∧
      (Descriptor.ofClass archive folderRef).defaults = [(defunctProperty, .bool)] := by
    rw [ofClass_folder]
    decide +kernel
  refine .of_kept rfl ⟨folderClass, rfl, rfl⟩ hs ?_ ?_ ?_
  · intro a ha
    rcases h a ha with ⟨id, rfl⟩ | ⟨flag, rfl⟩
    · rw [htypes.1]
      exact ⟨rfl, rfl, rfl⟩
    · rw [Descriptor.typeOf_mark marks_folder]
      exact ⟨rfl, rfl, rfl⟩
  · rw [htypes.2]
    intro p hp
    rw [List.mem_singleton.1 hp]
    exact hm
  · intro a ha n hn
    rcases h a ha with ⟨id, rfl⟩ | ⟨flag, rfl⟩
    all_goals cases FieldValue.eq_of_partOf_leaf rfl hn

/-- A folder from before it was defunct. -/
def stale : Entity :=
  ⟨folderRef, Descriptor.ofClass archive folderRef,
    [(Naming.idProperty, .objectId (.ofParts 1 1)), (defunctProperty, .bool false)]⟩

/-- A new folder. -/
def fresh : Entity :=
  ⟨folderRef, Descriptor.ofClass archive folderRef, [(defunctProperty, .bool false)]⟩

/-- The folders, of which defunct ones are not seen, behind the stages for the
known capabilities. -/
def registrar : Service Entity Unit :=
  ⟨⟨folderRef, "folders", .defunct⟩,
    some [(.pre, .name ⟨some 2, some 16⟩), (.pre, .description (some 50)), (.pre, .defunct)], none⟩

/-- A document of a defunct folder. -/
def defunctFolder : Document :=
  ⟨[(idField, .objectId (.ofParts 1 1)), (defunctProperty, .bool true)]⟩

/-- The entry that keeps the document. -/
def keptFolder : Stored :=
  ⟨.objectId (.ofParts 1 1), (Cbor.encodeDocument defunctFolder).toOption.getD []⟩

/-- One folder is stored, and it is defunct. -/
def cellar : Context Unit :=
  ⟨⟨{ collections := [("folders", [keptFolder])] }, ⟨⟨archive, [], []⟩, none, [], [], 0⟩⟩, ()⟩

/-- Again and again the folder is saved as it was before, a new one is saved under
its id, and it is deleted. -/
def attempts (n : Nat) : Call Entity Unit :=
  match n % 3 with
  | 0 => .save (some stale) none none [] Collection.early
  | 1 => .save (some fresh) (some (.ofParts 1 1)) none [] Collection.early
  | _ => .delete (some (.ofParts 1 1)) none []

theorem fair_attempts (n : Nat) :
    (attempts n).Fair archive archiveNames.Knows registrar := by
  have hstale : stale.Reachable archive archiveNames.Knows :=
    reachable_folder (by decide) rfl (by simp)
  have hfresh : fresh.Reachable archive archiveNames.Knows :=
    reachable_folder (by decide) rfl (by simp)
  unfold attempts
  split
  · exact ⟨fun e he => by cases he; exact ⟨hstale, rfl⟩, fun v hv => by cases hv⟩
  · exact ⟨fun e he => by cases he; exact ⟨hfresh, rfl⟩, fun v hv => by cases hv⟩
  · exact fun v hv => by cases hv

/-- The folder stays defunct. -/
theorem marks_last_folder :
    registrar.Guards archive archiveNames.Knows ∧
    ∀ n, ∃ e ∈ registrar.entries (registrar.trace attempts cellar n),
      e.id = .objectId (.ofParts 1 1) ∧ e.Bears true := by
  have hguards : registrar.Guards archive archiveNames.Knows := by
    have hadded : (⟨⟨folderRef, "folders", .defunct⟩, none, none⟩ : Service Entity Unit).addBuiltin
        .standard = .ok registrar := rfl
    refine guards_addBuiltin hadded rfl markable_folder ?_ ?_
    · exact fun v hv => by cases hv
    · exact fun l hl => by cases hl
  have hbears : keptFolder.Bears true := ⟨defunctFolder, by rfl, rfl⟩
  have hregistry : cellar.backend.registry.Sound archive archiveNames.Knows := by
    refine ⟨?_, ?_, ?_, rfl, ?_⟩ <;> exact fun p hp => by cases hp
  have hrecords : Records (registrar.entries cellar) := by
    show Records [keptFolder]
    refine ⟨fun e he => ?_, List.nodup_singleton _, fun e he => ?_⟩ <;>
      rw [List.mem_singleton.1 he]
    · exact ⟨.ofParts 1 1, rfl⟩
    · exact ⟨true, hbears⟩
  obtain ⟨-, hlasts, -⟩ := marks_last hguards fair_attempts hregistry hrecords
  refine ⟨hguards, fun n => ?_⟩
  obtain ⟨e, he, hid, hmark⟩ := hlasts 0 n n.zero_le keptFolder (List.mem_singleton_self _)
  exact ⟨e, he, hid, hmark hbears⟩

end Service
end Folio
