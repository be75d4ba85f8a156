import Folio.Proofs.Service.Deletes
import Folio.Proofs.Service.Saves

/-!
# The course of a call

A call on a service looks records up, has stages look at them, tells a listener
and, in between, writes at most once. If all but the write stays within a
relation, so does a call that does not write, and one that writes is within it
before and after the write. A record is written only when it has been validated
beside its stored version without errors.

Results:
* `Service.Idles`: what is asked of looking up and of the listener.
* `saving`, `removing`: the course of a save and of a delete.
* `invariant_trace`: what each call keeps, a sequence of calls keeps.
-/
namespace Folio

variable {L : Type}

theorem Report.hasErrors_addField (r : Report) (name message : String) :
    (r.addField name message).hasErrors = true := by
  have hne := Keyed.insert_ne_nil name (r.field name ++ [message]) r.fields
  rw [hasErrors, hasFields, addField, Bool.or_eq_true]
  exact .inr (by simpa using hne)

namespace Service

variable {s : Service Entity L} {newId : Option ObjectId} {ambient : Ambient}
  {stages : List (Validation Entity L)} {R : Context L → Context L → Prop}
  {S : Subject Entity L → Subject Entity L → Prop}

/-- Looking records up and telling the listener of them stay within the relation. -/
structure Idles (R : Context L → Context L → Prop) (s : Service Entity L) : Prop where
  frame : Frame R
  looks : ∀ c : Collection, c.cls = s.collection.cls → ∀ id,
    Within R (behind (c.findById id) : ContextM L (Option Entity))
  saved : ∀ l ∈ s.listener, ∀ e notice, Within R (l.onSaved e notice)
  deleted : ∀ l ∈ s.listener, ∀ e, Within R (l.onDeleted e)

/-- The stages stay within a relation on what they look at, and with it within the
one on contexts. -/
structure Respects (R : Context L → Context L → Prop) (S : Subject Entity L → Subject Entity L → Prop)
    (s : Service Entity L) (stages : List (Validation Entity L)) : Prop where
  frame : Frame S
  stages : ∀ v ∈ (s.chain stages).order, v.Respects S
  context : ∀ before after, S before after → R before.context after.context

/-- A validation that ends without errors has run each stage of the service for a
capability that the class of the record has, and none was reported up to the end of
the stage. -/
theorem Respects.passed_of_validate (hS : s.Respects R S stages)
    (herrors : ∀ before after, S before after → before.report.hasErrors = true →
      after.report.hasErrors = true)
    {v : Validation Entity L} (hv : ∃ p, (p, v) ∈ s.general.getD []) {capability : Capability}
    (hcapability : v.capability = some capability) {schema : Schema} {subject after : Subject Entity L}
    (hschema : ∀ here, S subject here → here.context.backend.registry.catalog.schema = schema)
    (hcls : schema.implements subject.record.cls capability = true)
    {stored : Option Entity} (hrun : ((s.chain stages).validate stored).run subject = (.ok (), after))
    (h : after.report.hasErrors = false) :
    ∃ here there, S subject here ∧ S there after ∧ there.report.hasErrors = false ∧
      (v.check stored).run here = (.ok (), there) := by
  rw [Chain.validate, run_bind_ok (run_getThe subject)] at hrun
  have happlies : Chain.applies subject.context.backend.registry.catalog.schema subject.record.cls v =
      true := by
    rw [Chain.applies, hcapability, hschema subject (hS.frame.refl subject)]
    exact hcls
  obtain ⟨here, there, hhere, hthere, hpassed⟩ :=
    Chain.passed_of_runStages hS.frame hS.stages (mem_chain.2 (.inl hv)) happlies hrun
  refine ⟨here, there, hhere, hthere, eq_false_of_ne_true fun hreported => ?_, hpassed⟩
  rw [herrors there after hthere hreported] at h
  cases h

/-! ## Saving -/

/-- A record that is new is validated beside nothing, and another beside what is
found under its id. -/
inductive Compares (s : Service Entity L) (subject : Subject Entity L) :
    Option Entity → Subject Entity L → Prop
  | new (isNew : Record.id? subject.record = none) : Compares s subject none subject
  | known {id : ObjectId} {stored : Entity} {b : Backend}
      (isKnown : Record.id? subject.record = some id)
      (found : (s.collection.unscoped.findById (some id) : BackendM (Option Entity)).run
        subject.context.backend = (.ok (some stored), b)) :
      Compares s subject (some stored) { subject with context := { subject.context with backend := b } }

variable {subject looked after : Subject Entity L} {stored : Option Entity}
  {result : Except Failure (Option Entity)} {c d : Context L}

theorem Compares.record (h : s.Compares subject stored looked) : looked.record = subject.record := by
  cases h <;> rfl

theorem Idles.lookup (hs : s.Idles R) {c : Collection} (hc : c.cls = s.collection.cls)
    {id : Option ObjectId} {found : Except Failure (Option Entity)} {b : Backend} {context : Context L}
    (h : (c.findById id : BackendM (Option Entity)).run context.backend = (found, b)) :
    R context { context with backend := b } := by
  have hlooks := hs.looks c hc id context
  rwa [run_behind, h] at hlooks

theorem Compares.within (hs : s.Idles R) (h : s.Compares subject stored looked) :
    R subject.context looked.context := by
  cases h with
  | new => exact hs.frame.refl _
  | known _ found => exact hs.lookup (c := s.collection.unscoped) rfl found

/-- A save stays within the relation, or it makes one write of a record that was
validated without errors, and stays within it otherwise. -/
inductive Saving (R : Context L → Context L → Prop) (s : Service Entity L) (newId : Option ObjectId)
    (stages : List (Validation Entity L)) (ambient : Ambient) (subject : Subject Entity L)
    (d : Context L) : Prop
  | idle (within : R subject.context d)
  | wrote {stored : Option Entity} {looked checked : Subject Entity L}
      {saved : Except Failure (Option Entity)} {held : Held Entity}
      (compared : s.Compares subject stored looked)
      (validated : ((s.chain stages).validate stored).run looked = (.ok (), checked))
      (noErrors : checked.report.hasErrors = false)
      (write : (s.collection.save newId ambient : HeldM Entity (Option Entity)).run
        ⟨checked.record, checked.context.backend⟩ = (saved, held))
      (rest : R (checked.hold held).context d)

theorem notify_within (hs : s.Idles R) (saved : Entity) (notice : Notice) (subject : Subject Entity L) :
    R subject.context ((s.notify fun l => l.onSaved saved notice).run subject).2.context := by
  rw [notify]
  cases hlistener : s.listener with
  | none => exact hs.frame.refl _
  | some listener => exact hs.saved listener hlistener saved notice subject.context

/-- What follows validation: nothing, or a write and then a notice. -/
theorem saveChanged_course (hs : s.Idles R)
    (hrun : (s.saveChanged stored newId ambient).run subject = (result, after)) :
    after.context = subject.context ∨ subject.report.hasErrors = false ∧
      ∃ saved held, (s.collection.save newId ambient : HeldM Entity (Option Entity)).run
        ⟨subject.record, subject.context.backend⟩ = (saved, held) ∧
        R (subject.hold held).context after.context := by
  rw [saveChanged, run_bind_ok (run_getThe subject)] at hrun
  split at hrun
  · cases hrun
    exact .inl rfl
  next herrors =>
    split at hrun
    · cases hrun
      exact .inl rfl
    rcases hsave : (s.collection.save newId ambient).run ⟨subject.record, subject.context.backend⟩
      with ⟨saved, held⟩
    refine .inr ⟨eq_false_of_ne_true herrors, saved, held, rfl, ?_⟩
    rw [run_bind, Subject.run_held, hsave] at hrun
    rcases saved with failure | _ | saved
    · cases hrun
      exact hs.frame.refl _
    · cases hrun
      exact hs.frame.refl _
    · have htold := notify_within hs saved (if stored.isNone then .insert else .update)
        (subject.hold held)
      dsimp only at hrun
      rw [run_bind] at hrun
      rcases hnotify : (s.notify fun l => l.onSaved saved (if stored.isNone then .insert else .update)).run
        (subject.hold held) with ⟨_ | _, told⟩
      all_goals
        rw [hnotify] at hrun htold
        cases hrun
        exact htold

theorem validated_saving (hs : s.Idles R) (hS : s.Respects R S stages)
    (hcompared : s.Compares subject stored looked)
    (hrun : (do
      (s.chain stages).validate stored
      s.saveChanged stored newId ambient).run looked = (result, after)) :
    s.Saving R newId stages ambient subject after.context := by
  have hchecked := Chain.within_validate stored hS.frame hS.stages looked
  rw [run_bind] at hrun
  rcases hvalidate : ((s.chain stages).validate stored).run looked with ⟨failure | ⟨⟩, checked⟩
  all_goals
    rw [hvalidate] at hrun hchecked
    have hwithin := hs.frame.trans (hcompared.within hs) (hS.context _ _ hchecked)
  · cases hrun
    exact .idle hwithin
  · rcases saveChanged_course hs hrun with hsame | ⟨herrors, saved, held, hsave, hrest⟩
    · exact .idle (hsame ▸ hwithin)
    · exact .wrote hcompared hvalidate herrors hsave hrest

/-- The course of a save. -/
theorem saving (hs : s.Idles R) (hS : s.Respects R S stages)
    (hrun : (s.checkAndSave newId stages ambient).run subject = (result, after)) :
    s.Saving R newId stages ambient subject after.context := by
  rw [checkAndSave, run_bind_ok (run_getThe subject)] at hrun
  cases hid : Record.id? subject.record with
  | none =>
    simp only [hid] at hrun
    exact validated_saving hs hS (.new hid) hrun
  | some id =>
    simp only [hid] at hrun
    rcases hfound : (s.collection.unscoped.findById (some id) : BackendM (Option Entity)).run
      subject.context.backend with ⟨found, b⟩
    have hwithin := hs.lookup (c := s.collection.unscoped) rfl hfound
    have hlooked : (Subject.behind (s.collection.unscoped.findById (some id)) :
        SubjectM Entity L (Option Entity)).run subject =
          (found, { subject with context := { subject.context with backend := b } }) := by
      rw [Subject.behind, Subject.run_held, Held.run_behind, hfound]
      rfl
    rcases found with failure | _ | stored
    · rw [run_bind_error hlooked] at hrun
      cases hrun
      exact .idle hwithin
    · rw [run_bind_ok hlooked] at hrun
      cases hrun
      exact .idle hwithin
    · rw [run_bind_ok hlooked] at hrun
      exact validated_saving hs hS (.known hid hfound) hrun

/-! ## Deleting -/

/-- A delete stays within the relation, but for one write. -/
inductive Removing (R : Context L → Context L → Prop) (s : Service Entity L) (id : Option ObjectId)
    (c d : Context L) : Prop
  | idle (within : R c d)
  | wrote {looked : Context L} {deleted : Except Failure (Option Entity)} {b : Backend}
      (before : R c looked)
      (write : (s.collection.deleteById id : BackendM (Option Entity)).run looked.backend = (deleted, b))
      (rest : R { looked with backend := b } d)

variable {id : Option ObjectId}

theorem delete_removing (hs : s.Idles R) (hc : R c d) : s.Removing R id c ((s.delete id).run d).2 := by
  rcases hdelete : (s.collection.deleteById id : BackendM (Option Entity)).run d.backend
    with ⟨deleted, b⟩
  refine .wrote hc hdelete ?_
  have hbehind : (behind (s.collection.deleteById id) : ContextM L (Option Entity)).run d =
      (deleted, { d with backend := b }) := by rw [run_behind, hdelete]
  rw [delete]
  cases deleted with
  | error failure =>
    rw [run_bind_error hbehind]
    exact hs.frame.refl _
  | ok found =>
    rw [run_bind_ok hbehind]
    dsimp only
    split
    · next listener e hlistener =>
      have htold := hs.deleted listener hlistener e
      exact hs.frame.within_bind htold (fun _ => hs.frame.within_pure _) { d with backend := b }
    · exact hs.frame.refl _

/-- The course of a delete. -/
theorem removing (hs : s.Idles R) (hS : s.Respects R S stages) {report told : Report}
    (hrun : s.checkAndDelete id report stages c = (result, told, d)) : s.Removing R id c d := by
  rw [checkAndDelete] at hrun
  split at hrun
  · cases hrun
    exact delete_removing hs (hs.frame.refl c)
  rcases hfound : (s.collection.findById id : BackendM (Option Entity)).run c.backend with ⟨found, b⟩
  have hlooked := hs.lookup rfl hfound
  rw [run_behind, hfound] at hrun
  rcases found with failure | _ | e
  · cases hrun
    exact .idle hlooked
  · cases hrun
    exact .idle hlooked
  have hchecked := Chain.within_validate none hS.frame hS.stages ⟨e, report, { c with backend := b }⟩
  dsimp only at hrun
  rcases hvalidate : ((s.chain stages).validate none).run ⟨e, report, { c with backend := b }⟩
    with ⟨failure | ⟨⟩, checked⟩
  all_goals
    rw [hvalidate] at hrun hchecked
    have hwithin := hs.frame.trans hlooked (hS.context _ _ hchecked)
    dsimp only at hrun
  · cases hrun
    exact .idle hwithin
  · split at hrun
    · cases hrun
      exact .idle hwithin
    · cases hrun
      exact delete_removing hs hwithin

/-! ## Sequences of calls -/

/-- What is stored of the records of the service. -/
def entries (s : Service Entity L) (c : Context L) : List Stored :=
  c.backend.store.entries s.collection.name

/-- A call on a service, with all that is handed to it. -/
inductive Call (E L : Type) where
  | save (record : Option E) (newId : Option ObjectId) (sink : Option Report)
      (stages : List (Validation E L)) (ambient : Ambient)
  | delete (id : Option ObjectId) (sink : Option Report) (stages : List (Validation E L))

/-- What becomes of a call. -/
def perform {E : Type} [Record E] (s : Service E L) (c : Context L) : Call E L → Outcome E L
  | .save record newId sink stages ambient => s.validateAndSave record newId sink stages ambient c
  | .delete id sink stages => s.validateAndDelete id sink stages c

/-- The context after the first calls of a sequence. -/
def trace {E : Type} [Record E] (s : Service E L) (calls : Nat → Call E L) (c : Context L) :
    Nat → Context L
  | 0 => c
  | n + 1 => (s.perform (s.trace calls c n) (calls n)).context

theorem saving_perform (hs : s.Idles R) (hS : s.Respects R S stages) (e : Entity)
    (sink : Option Report) :
    s.Saving R newId stages ambient ⟨e, sink.getD {}, c⟩
      (s.perform c (.save (some e) newId sink stages ambient)).context := by
  rcases hrun : (s.checkAndSave newId stages ambient).run ⟨e, sink.getD {}, c⟩ with ⟨result, after⟩
  rw [perform, validateAndSave, hrun]
  exact saving hs hS hrun

theorem removing_perform (hs : s.Idles R) (hS : s.Respects R S stages) (sink : Option Report) :
    s.Removing R id c (s.perform c (.delete id sink stages)).context :=
  removing hs hS rfl

/-- What each call of a sequence keeps, the sequence keeps. -/
theorem invariant_trace {P : Context L → Prop} {calls : Nat → Call Entity L}
    (h : ∀ n c, P c → P (s.perform c (calls n)).context) (hc : P c) (n : Nat) :
    P (s.trace calls c n) := by
  induction n with
  | zero => exact hc
  | succ n ih => exact h n _ ih

end Service
end Folio
