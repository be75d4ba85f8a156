import Folio.Proofs.Collection.Saving
import Folio.Proofs.Service.Stages
import Folio.Service.Journal

/-!
# What a save of a service comes to

Behind stages that leave the store and the stamps of the record alone, a save
answers a record if and only if it put one document into the store, and a
listener is then told once. Otherwise all is as a service without a listener
leaves it, and neither the store nor the stamps have changed.

Results:
* `Subject.Spared`: what stages of a save are asked to respect.
* `saveChanged_cases`, `validated_cases`, `checkAndSave_cases`: a save part by part.
* `validateAndSave_cases`: the outcomes of a save.
-/
namespace Folio

variable {L : Type}

/-! ## Stages that spare the stamps -/

/-- What is stored stays as it is, and so do the identity and the times of a
record that can be stamped, which it still can. -/
structure Subject.Spared (before after : Subject Entity L) : Prop where
  store : before.SameStore after
  stamps : before.record.Based →
    after.record.Based ∧ Stamps.ofRecord after.record = Stamps.ofRecord before.record

theorem Subject.spared_frame : Frame (Spared (L := L)) := by
  refine ⟨fun _ => ⟨.refl _, fun h => ⟨h, rfl⟩⟩, fun h h' => ⟨h.store.trans h'.store, fun ha => ?_⟩⟩
  obtain ⟨hb, hab⟩ := h.stamps ha
  obtain ⟨hc, hbc⟩ := h'.stamps hb
  exact ⟨hc, hbc.trans hab⟩

/-- The subject with another record and backend. -/
def Subject.hold (subject : Subject Entity L) (h : Held Entity) : Subject Entity L :=
  ⟨h.record, subject.report, { subject.context with backend := h.backend }⟩

theorem Subject.run_held {α : Type} (m : HeldM Entity α) (subject : Subject Entity L) :
    (Subject.held m).run subject =
      ((m.run ⟨subject.record, subject.context.backend⟩).1,
        subject.hold (m.run ⟨subject.record, subject.context.backend⟩).2) := rfl

/-- Setting or unsetting another property leaves the stamps alone, and so does a
refusal to. -/
theorem Subject.spared_modify {name : String} (hp : name ∉ Schema.baseProperties.map (·.1))
    (value : Option FieldValue) :
    Within (Spared (L := L)) (held (Held.modify name value) : SubjectM Entity L Unit) := by
  intro subject
  rw [run_held]
  rcases Held.modify_cases name value ⟨subject.record, subject.context.backend⟩ with
    ⟨failure, -, hrun⟩ | ⟨next, hset, hrun⟩ <;> rw [hrun]
  · exact spared_frame.refl subject
  · exact ⟨.refl _, fun h => h.write hp hset⟩

/-- What is reported does not matter. -/
theorem Subject.spared_addField (name message : String) :
    Within (Spared (L := L)) (addField name message : SubjectM Entity L Unit) :=
  fun _ => ⟨.refl _, fun h => ⟨h, rfl⟩⟩

/-- The stages for the known capabilities leave the store and the stamps alone,
with any others that do. -/
theorem Service.spared_addBuiltin {s t : Service Entity L} {config : Config}
    {stages : List (Validation Entity L)} (h : s.addBuiltin config = .ok t)
    (hs : ∀ v ∈ (s.chain stages).order, v.Respects Subject.Spared) :
    ∀ v ∈ (t.chain stages).order, v.Respects Subject.Spared :=
  respects_addBuiltin Subject.spared_frame Subject.spared_addField
    (Subject.spared_modify (by decide) none) h hs

/-- Looking a record up leaves the subject and what is stored alone. -/
theorem Subject.run_findById (c : Collection) (id : Option ObjectId) (subject : Subject Entity L) :
    let looked := ((Subject.behind (c.findById id) :
      SubjectM Entity L (Option Entity)).run subject).2
    looked.record = subject.record ∧ looked.report = subject.report ∧ subject.SameStore looked :=
  ⟨rfl, rfl, c.findById_same (E := Entity) id subject.context.backend⟩

namespace Service

variable {s : Service Entity L} {newId : Option ObjectId} {ambient : Ambient}

/-- The service without its listener. -/
def quiet (s : Service Entity L) : Service Entity L := { s with listener := none }

/-- The context after the listener, if there is one, was told of a save. -/
def heard (s : Service Entity L) (saved : Entity) (notice : Notice) (c : Context L) : Context L :=
  match s.listener with
  | none => c
  | some listener => ((listener.onSaved saved notice).run c).2

theorem heard_same (hl : ∀ l ∈ s.listener, l.Discreet) (saved : Entity) (notice : Notice)
    (c : Context L) : c.backend.store.Same (s.heard saved notice c).backend.store := by
  rw [heard]
  cases hlistener : s.listener with
  | none => exact .refl _
  | some listener =>
    obtain ⟨d, hd, hsame⟩ := (hl listener hlistener).saved saved notice c
    simp only [hd]
    exact hsame

theorem run_notify (hl : ∀ l ∈ s.listener, l.Discreet) (saved : Entity) (notice : Notice)
    (subject : Subject Entity L) :
    (s.notify fun l => l.onSaved saved notice).run subject =
      (.ok (), { subject with context := s.heard saved notice subject.context }) := by
  rw [notify, heard]
  cases hlistener : s.listener with
  | none => rfl
  | some listener =>
    obtain ⟨d, hd, -⟩ := (hl listener hlistener).saved saved notice subject.context
    show (((listener.onSaved saved notice).run subject.context).1,
      ({ subject with context := ((listener.onSaved saved notice).run subject.context).2 } :
        Subject Entity L)) = _
    simp only [hd]

/-- What is told of a save that has a stored version to compare with, or not. -/
def noticeOf (stored : Option Entity) : Notice := if stored.isNone then .insert else .update

/-- Errors and equal versions end a save before it writes. After a write the
listener is told. -/
theorem run_saveChanged (hl : ∀ l ∈ s.listener, l.Discreet) (stored : Option Entity)
    (subject : Subject Entity L) :
    (s.saveChanged stored newId ambient).run subject =
      if subject.report.hasErrors || stored.any fun e => Record.same e subject.record then
        (.ok none, subject)
      else
        match (s.collection.save newId ambient).run ⟨subject.record, subject.context.backend⟩ with
        | (.error failure, h) => (.error failure, subject.hold h)
        | (.ok none, h) =>
          (.ok none, { subject.hold h with report := subject.report.addAction notFound })
        | (.ok (some saved), h) =>
          (.ok (some saved), { subject.hold h with
            context := s.heard saved (noticeOf stored) (subject.hold h).context }) := by
  rw [saveChanged, run_bind, run_getThe]
  dsimp only
  cases herrors : subject.report.hasErrors with
  | true => rfl
  | false =>
    cases hsame : stored.any fun e => Record.same e subject.record with
    | true => rfl
    | false =>
      simp only [Bool.or_self, Bool.false_eq_true, if_false]
      rw [run_bind, Subject.run_held]
      rcases (s.collection.save newId ambient).run ⟨subject.record, subject.context.backend⟩
        with ⟨_ | _ | saved, h⟩
      · rfl
      · rfl
      · show (do
            s.notify fun l => l.onSaved saved (noticeOf stored)
            return some saved).run (subject.hold h) = _
        rw [run_bind_ok (run_notify hl ..)]
        rfl

/-- The outcome when the listener is told of what a service without one saved. -/
def told (s : Service Entity L) (notice : Notice) :
    Except Failure (Option Entity) × Subject Entity L →
      Except Failure (Option Entity) × Subject Entity L
  | (.ok (some saved), after) =>
    (.ok (some saved), { after with context := s.heard saved notice after.context })
  | other => other

theorem saveChanged_told (hl : ∀ l ∈ s.listener, l.Discreet) (stored : Option Entity)
    (subject : Subject Entity L) :
    (s.saveChanged stored newId ambient).run subject =
      s.told (noticeOf stored) ((s.quiet.saveChanged stored newId ambient).run subject) := by
  have hquiet : ∀ l ∈ s.quiet.listener, l.Discreet := fun l hl => by cases hl
  have hcollection : s.quiet.collection = s.collection := rfl
  rw [run_saveChanged hl, run_saveChanged hquiet, hcollection]
  split
  · rfl
  · rcases (s.collection.save newId ambient).run ⟨subject.record, subject.context.backend⟩
      with ⟨_ | _ | _, _⟩ <;> rfl

variable {stages : List (Validation Entity L)}

/-- A listener is told of what is saved, and changes nothing else. -/
theorem checkAndSave_told (hl : ∀ l ∈ s.listener, l.Discreet) (subject : Subject Entity L) :
    (s.checkAndSave newId stages ambient).run subject =
      s.told (if (Record.id? subject.record).isNone then .insert else .update)
        ((s.quiet.checkAndSave newId stages ambient).run subject) := by
  have hchain : s.quiet.chain stages = s.chain stages := rfl
  have hcollection : s.quiet.collection = s.collection := rfl
  rw [checkAndSave, checkAndSave, run_bind, run_bind, run_getThe, hchain, hcollection]
  dsimp only
  cases hid : Record.id? subject.record with
  | none =>
    dsimp only
    rw [run_bind, run_bind]
    rcases ((s.chain stages).validate none).run subject with ⟨_ | _, checked⟩
    · rfl
    · exact saveChanged_told hl none checked
  | some id =>
    dsimp only
    rw [run_bind, run_bind]
    rcases (Subject.behind (s.collection.unscoped.findById (some id)) :
      SubjectM Entity L (Option Entity)).run subject with ⟨_ | _ | stored, looked⟩
    · rfl
    · rfl
    · dsimp only
      rw [run_bind, run_bind]
      rcases ((s.chain stages).validate (some stored)).run looked with ⟨_ | _, checked⟩
      · rfl
      · exact saveChanged_told hl (some stored) checked

/-! ## What is put into the store -/

/-- One document is added for a record without an id, or put in the place of one
that matches the record's id. -/
inductive PutOne (c : Collection) (e : Entity) (s t : Store) : Prop
  | added {entry : Stored} (new : Record.id? e = none)
      (changed : s.Changed c.name (s.entries c.name ++ [entry]) t)
  | replaced {id : ObjectId} {i : Nat} {existing : Document} {entry : Stored}
      (known : Record.id? e = some id) (place : Stored.At (s.entries c.name) i existing)
      (found : (Filter.id id).matchesDoc existing = true)
      (changed : s.Changed c.name ((s.entries c.name).set i entry) t)

theorem putOne_of_wrote {c : Collection} {id : ObjectId} {e x : Entity} {b b' : Backend}
    (hid : Record.id? e = some id ∨ Record.id? e = none)
    (h : c.Wrote ambient id x b b' (Record.id? e).isNone) : PutOne c e b.store b'.store := by
  rcases hid with hid | hid
  · rw [hid] at h
    cases h with
    | replaced _ place found _ _ changed => exact .replaced hid place found changed
  · rw [hid] at h
    cases h with
    | inserted _ _ changed => exact .added hid changed

/-- What came before and left the entries and the id alone does not matter, and
nor does what comes after and leaves the entries alone. -/
theorem PutOne.within {c : Collection} {e e' : Entity} {s s' t t' : Store} (h : PutOne c e s t)
    (hid : Record.id? e = Record.id? e') (hs : s'.Same s) (ht : t.Same t') :
    PutOne c e' s' t' := by
  cases h with
  | added new changed =>
    rw [hs c.name] at changed
    exact .added (hid ▸ new) (changed.within hs ht)
  | replaced known place found changed =>
    rw [hs c.name] at place changed
    exact .replaced (hid ▸ known) place found (changed.within hs ht)

/-! ## Saves without a listener -/

theorem saveChanged_cases {stored : Option Entity} {subject after : Subject Entity L}
    (hb : subject.record.Based) {result : Except Failure (Option Entity)}
    (hrun : (s.quiet.saveChanged stored newId ambient).run subject = (result, after)) :
    (result = .ok (some after.record) ∧ after.report.hasErrors = false ∧
      PutOne s.collection subject.record subject.context.backend.store
        after.context.backend.store) ∨
    (∀ saved, result ≠ .ok (some saved)) ∧ after.record = subject.record ∧
      subject.SameStore after := by
  rw [run_saveChanged fun l hl => by cases hl] at hrun
  split at hrun
  · cases hrun
    exact .inr ⟨fun saved h => (by cases h), rfl, .refl _⟩
  next herrors =>
    have hreport : subject.report.hasErrors = false := by
      cases hr : subject.report.hasErrors with
      | true => exact absurd (by rw [hr]; rfl) herrors
      | false => rfl
    rcases hsave : (s.quiet.collection.save newId ambient).run
      ⟨subject.record, subject.context.backend⟩ with ⟨saved, h⟩
    rw [hsave] at hrun
    rcases Collection.save_outcomes hb hsave with ⟨rfl, -, hwrote⟩ | ⟨hnone, hrecord, hsame⟩
    · cases hrun
      refine .inl ⟨rfl, hreport, ?_⟩
      refine putOne_of_wrote ?_ hwrote
      rw [Collection.idOf]
      cases Record.id? subject.record with
      | none => exact .inr rfl
      | some id => exact .inl rfl
    · rcases hnone with rfl | ⟨failure, rfl⟩
      all_goals
        cases hrun
        exact .inr ⟨fun saved h => (by cases h), hrecord, hsame⟩

/-- What is left of a save once the stored version has been looked up: stages
that spare the store and the stamps, and then the write. A record is answered that
was put into the store, and there were no errors; or neither the store nor the
stamps have changed. -/
theorem validated_cases (hs : ∀ v ∈ (s.chain stages).order, v.Respects Subject.Spared)
    {stored : Option Entity} {subject after : Subject Entity L} (hb : subject.record.Based)
    {result : Except Failure (Option Entity)}
    (hrun : (do
      (s.chain stages).validate stored
      s.quiet.saveChanged stored newId ambient).run subject = (result, after)) :
    (result = .ok (some after.record) ∧ after.report.hasErrors = false ∧
      PutOne s.collection subject.record subject.context.backend.store
        after.context.backend.store) ∨
    (∀ saved, result ≠ .ok (some saved)) ∧
      Stamps.ofRecord after.record = Stamps.ofRecord subject.record ∧ subject.SameStore after := by
  have hspared := Chain.within_validate stored Subject.spared_frame hs subject
  rw [run_bind] at hrun
  rcases hvalidate : ((s.chain stages).validate stored).run subject with ⟨_ | _, checked⟩
  all_goals
    rw [hvalidate] at hrun hspared
    obtain ⟨hbased, hstamps⟩ := hspared.stamps hb
  · cases hrun
    exact .inr ⟨fun saved h => (by cases h), hstamps, hspared.store⟩
  · rcases saveChanged_cases hbased hrun with ⟨hresult, herrors, hput⟩ | ⟨hnone, hsame, hstore⟩
    · have hid := congrArg Stamps.id hstamps
      exact .inl ⟨hresult, herrors, hput.within hid hspared.store (.refl _)⟩
    · exact .inr ⟨hnone, (congrArg _ hsame).trans hstamps, hspared.store.trans hstore⟩

/-- The same of a whole save: looking the stored version up changes nothing. -/
theorem checkAndSave_cases (hs : ∀ v ∈ (s.chain stages).order, v.Respects Subject.Spared)
    {subject after : Subject Entity L} (hb : subject.record.Based)
    {result : Except Failure (Option Entity)}
    (hrun : (s.quiet.checkAndSave newId stages ambient).run subject = (result, after)) :
    (result = .ok (some after.record) ∧ after.report.hasErrors = false ∧
      PutOne s.collection subject.record subject.context.backend.store
        after.context.backend.store) ∨
    (∀ saved, result ≠ .ok (some saved)) ∧
      Stamps.ofRecord after.record = Stamps.ofRecord subject.record ∧ subject.SameStore after := by
  rw [checkAndSave, run_bind, run_getThe] at hrun
  dsimp only at hrun
  cases hid : Record.id? subject.record with
  | none =>
    simp only [hid] at hrun
    exact validated_cases hs hb hrun
  | some id =>
    simp only [hid] at hrun
    rw [run_bind] at hrun
    have hlook := Subject.run_findById s.collection.unscoped (some id) subject
    rcases hfound : (Subject.behind (s.collection.unscoped.findById (some id)) :
      SubjectM Entity L (Option Entity)).run subject with ⟨failure | _ | stored, looked⟩
    all_goals
      have hcollection : s.quiet.collection = s.collection := rfl
      rw [hcollection, hfound] at hrun
      rw [hfound] at hlook
      obtain ⟨hrecord, -, hsame⟩ := hlook
    · cases hrun
      exact .inr ⟨fun saved h => (by cases h), congrArg _ hrecord, hsame⟩
    · cases hrun
      exact .inr ⟨fun saved h => (by cases h), congrArg _ hrecord, hsame⟩
    · have hbased : looked.record.Based := hrecord ▸ hb
      rcases validated_cases hs hbased hrun with ⟨hresult, herrors, hput⟩ | ⟨hnone, hstamps, hstore⟩
      · rw [hrecord] at hput
        exact .inl ⟨hresult, herrors, hput.within rfl hsame (.refl _)⟩
      · rw [hrecord] at hstamps
        exact .inr ⟨hnone, hstamps, hsame.trans hstore⟩

/-! ## Outcomes -/

/-- A save behind stages that spare the store and the stamps, with a listener, if
there is one, that does not fail and leaves the store alone. Either a record is
answered, one document was put into the store, and the listener was told once, at
the end; or no record is answered, the listener was not told, and neither the
store nor the stamps have changed. -/
theorem validateAndSave_cases {schema : Schema} {known : ClassRef → Prop} {record : Option Entity}
    (hr : ∀ e ∈ record, e.Reachable schema known ∧ schema.KeepsBase e.descriptor.cls)
    (hl : ∀ l ∈ s.listener, l.Discreet)
    (hs : ∀ v ∈ (s.chain stages).order, v.Respects Subject.Spared) (sink : Option Report)
    (context : Context L) :
    let o := s.validateAndSave record newId sink stages ambient context
    let unheard := s.quiet.validateAndSave record newId sink stages ambient context
    (∃ e saved, record = some e ∧ o.result = .ok (some saved) ∧ o.record = some saved ∧
      PutOne s.collection e context.backend.store o.context.backend.store ∧
      o = { unheard with
        context := s.heard saved (if (Record.id? e).isNone then .insert else .update)
          unheard.context }) ∨
    (∀ saved, o.result ≠ .ok (some saved)) ∧ o = unheard ∧
      context.backend.store.Same o.context.backend.store ∧
      o.record.map Stamps.ofRecord = record.map Stamps.ofRecord := by
  cases record with
  | none =>
    refine .inr ⟨fun saved h => ?_, rfl, .refl _, rfl⟩
    have hfinish : (finish sink.isSome (.ok none : Except Failure (Option Entity))
        ((sink.getD {}).addAction notSet)).1 = .ok (some saved) := h
    cases (finish_some.1 hfinish).1
  | some e =>
    obtain ⟨hreach, hkeeps⟩ := hr e rfl
    rcases hquiet : (s.quiet.checkAndSave newId stages ambient).run ⟨e, sink.getD {}, context⟩
      with ⟨result, after⟩
    have htold : (s.checkAndSave newId stages ambient).run ⟨e, sink.getD {}, context⟩ =
        s.told (if (Record.id? e).isNone then .insert else .update) (result, after) := by
      rw [checkAndSave_told hl, hquiet]
    simp only [validateAndSave, hquiet, htold]
    rcases checkAndSave_cases hs (hreach.based hkeeps) hquiet with ⟨rfl, herrors, hput⟩ |
      ⟨hnone, hstamps, hsame⟩
    · refine .inl ⟨e, after.record, rfl, finish_some.2 ⟨rfl, herrors⟩, rfl, ?_, rfl⟩
      exact hput.within rfl (.refl _) (heard_same hl _ _ _)
    · have hunheard : ∀ notice, s.told notice (result, after) = (result, after) := by
        intro notice
        rcases result with failure | _ | saved
        · rfl
        · rfl
        · exact absurd rfl (hnone saved)
      rw [hunheard]
      refine .inr ⟨fun saved h => hnone saved (finish_some.1 h).1, rfl, hsame, ?_⟩
      exact congrArg some hstamps

open Collection (desk early orders keepsBase_order)
open Registry (shop orderRef shopNames stateEnum types_order)

/-- A new order, of which nothing is known. -/
def newOrder : Entity := ⟨orderRef, Descriptor.ofClass shop orderRef, []⟩

theorem reachable_newOrder : newOrder.Reachable shop shopNames.Knows := by
  refine .of_kept rfl ⟨Registry.orderClass, rfl, rfl⟩ .nil ?_ ?_ ?_
  · exact fun a ha => by cases ha
  · rw [types_order.2.2.2]
    exact fun p hp => by cases hp
  · exact fun a ha => by cases ha

/-- The orders, and a journal of what happens to them. -/
def office : Service Entity (Journal Entity) := ⟨orders, none, some Journal.keeper⟩

/-- Marks an order as sent. -/
def sending : Validation Entity (Journal Entity) :=
  .assigns "state" (some (.enum ⟨stateEnum, 1⟩))

theorem discreet_keeper : (Journal.keeper (E := Entity)).Discreet :=
  ⟨fun _ _ _ => ⟨_, rfl, .refl _⟩, fun _ _ => ⟨_, rfl, .refl _⟩⟩

/-- A new order is sent and saved, and the journal tells of it. -/
theorem validateAndSave_order :
    let o := office.validateAndSave (some newOrder) none none [sending] early ⟨desk, []⟩
    ∃ saved, o.result = .ok (some saved) ∧ PutOne orders newOrder desk.store o.context.backend.store ∧
      o.context.log = [.saved saved .insert] := by
  have hsaved : (office.validateAndSave (some newOrder) none none [sending] early
      ⟨desk, []⟩).result.toOption.join.isSome = true := by
    rw [newOrder, Collection.ofClass_order]
    decide +kernel
  have hlog : (office.quiet.validateAndSave (some newOrder) none none [sending] early
      ⟨desk, []⟩).context.log.isEmpty = true := by
    rw [newOrder, Collection.ofClass_order]
    decide +kernel
  have hreach : ∀ e ∈ some newOrder, e.Reachable shop shopNames.Knows ∧
      shop.KeepsBase e.descriptor.cls := by
    intro e he
    cases he
    rw [show newOrder.descriptor = Descriptor.ofClass shop orderRef from rfl, Descriptor.cls_ofClass]
    exact ⟨reachable_newOrder, keepsBase_order⟩
  have hspared : ∀ v ∈ (office.chain [sending]).order, v.Respects Subject.Spared := by
    intro v hv
    rw [List.mem_singleton.1 hv]
    exact fun _ => Subject.spared_modify (by decide) _
  have hdiscreet : ∀ l ∈ office.listener, l.Discreet :=
    fun l hl => by cases hl; exact discreet_keeper
  rcases @validateAndSave_cases _ office none early [sending] _ _ _ hreach hdiscreet hspared none
    ⟨desk, []⟩ with ⟨e, saved, he, hresult, -, hput, ho⟩ | ⟨hnone, -⟩
  · cases he
    refine ⟨saved, hresult, hput, ?_⟩
    rw [ho]
    exact congrArg (· ++ [.saved saved .insert]) (List.isEmpty_iff.1 hlog)
  · obtain ⟨saved, hresult⟩ := ok_some_of_isSome hsaved
    exact absurd hresult (hnone saved)

end Service
end Folio
