import Folio.Proofs.Collection.Rereading
import Folio.Proofs.Registry.Lookups
import Folio.Proofs.Service.Saves

/-!
# Saving a second time

A record that was saved is looked up and compared with itself before it is saved
again. What is looked up has its documents in order, so the comparison tells a
change where there is none, unless the names in the record's documents ascend.

Results:
* `run_checkAndSave_new`, `run_checkAndSave_known`: a save behind stages that accept
  the record.
* `resave_iff`: a second save answers nothing and writes nothing if and only if
  the names ascend in every document of the record, or errors were reported
  before.
-/
namespace Folio

variable {L : Type}

/-- The subject with another log. -/
def Subject.note (subject : Subject Entity L) (log : L) : Subject Entity L :=
  { subject with context := { subject.context with log := log } }

/-- The stage has nothing to say against the record, whatever it stands beside,
and leaves all but the log alone. -/
def Validation.Accepts (v : Validation Entity L) (e : Entity) : Prop :=
  ∀ stored subject, subject.record = e →
    ∃ log, (v.check stored).run subject = (.ok (), subject.note log)

/-- Stages that accept a record, one after another, leave all but the log
alone. -/
theorem Chain.run_validate {chain : Chain Entity L} {e : Entity}
    (h : ∀ v ∈ chain.order, v.Accepts e) (stored : Option Entity) {subject : Subject Entity L}
    (hrecord : subject.record = e) :
    ∃ log, (chain.validate stored).run subject = (.ok (), subject.note log) := by
  rw [validate, run_bind, run_getThe]
  dsimp only
  generalize chain.order = stages at h
  induction stages generalizing subject with
  | nil => exact ⟨subject.context.log, rfl⟩
  | cons v rest ih =>
    obtain ⟨hv, hrest⟩ := List.forall_mem_cons.1 h
    rw [runStages]
    split
    · obtain ⟨log, hrun⟩ := hv stored subject hrecord
      have hnoted : (subject.note log).record = e := hrecord
      obtain ⟨log', hrun'⟩ := ih hnoted hrest
      exact ⟨log', by rw [run_bind_ok hrun]; exact hrun'⟩
    · exact ih hrecord hrest

namespace Service

variable {s : Service Entity L} {stages : List (Validation Entity L)} {newId : Option ObjectId}
  {ambient : Ambient} {subject : Subject Entity L}

variable (newId ambient) in
theorem run_checkAndSave_new (h : ∀ v ∈ (s.chain stages).order, v.Accepts subject.record)
    (hid : Record.id? subject.record = none) :
    ∃ log, (s.checkAndSave newId stages ambient).run subject =
      (s.saveChanged none newId ambient).run (subject.note log) := by
  obtain ⟨log, hrun⟩ := Chain.run_validate h none rfl
  refine ⟨log, ?_⟩
  rw [checkAndSave, run_bind, run_getThe]
  simp only [hid]
  rw [run_bind_ok hrun]

variable (newId ambient) in
theorem run_checkAndSave_known (h : ∀ v ∈ (s.chain stages).order, v.Accepts subject.record)
    {id : ObjectId} (hid : Record.id? subject.record = some id) {stored : Entity}
    {looked : Subject Entity L}
    (hfound : (Subject.behind (s.collection.unscoped.findById (some id)) :
      SubjectM Entity L (Option Entity)).run subject = (.ok (some stored), looked)) :
    ∃ log, (s.checkAndSave newId stages ambient).run subject =
      (s.saveChanged (some stored) newId ambient).run (looked.note log) := by
  have hrecord : looked.record = subject.record := by
    have := (Subject.run_findById s.collection.unscoped (some id) subject).1
    rwa [hfound] at this
  obtain ⟨log, hrun⟩ := Chain.run_validate h (some stored) hrecord
  refine ⟨log, ?_⟩
  rw [checkAndSave, run_bind, run_getThe]
  simp only [hid]
  rw [run_bind_ok hfound]
  exact run_bind_ok hrun

/-! ## The first save -/

/-- What a service without a listener answers as saved, its collection saved. -/
theorem save_of_saveChanged (hl : s.listener = none) {stored : Option Entity} {saved : Entity}
    {after : Subject Entity L}
    (hrun : (s.saveChanged stored newId ambient).run subject = (.ok (some saved), after)) :
    (s.collection.save newId ambient).run ⟨subject.record, subject.context.backend⟩ =
      (.ok (some saved), ⟨after.record, after.context.backend⟩) := by
  rw [run_saveChanged (fun l h => by rw [hl] at h; cases h)] at hrun
  split at hrun
  · cases hrun
  · rcases hsave : (s.collection.save newId ambient).run ⟨subject.record, subject.context.backend⟩
      with ⟨_ | _ | saved, h⟩
    · rw [hsave] at hrun
      cases hrun
    · rw [hsave] at hrun
      cases hrun
    · rw [hsave] at hrun
      simp only [heard, hl] at hrun
      cases hrun
      rfl

theorem save_of_checkAndSave (hl : s.listener = none)
    (h : ∀ v ∈ (s.chain stages).order, v.Accepts subject.record)
    (hb : subject.context.backend.registry.BuiltIn) {saved : Entity} {after : Subject Entity L}
    (hrun : (s.checkAndSave newId stages ambient).run subject = (.ok (some saved), after)) :
    ∃ b : Backend, b.registry.BuiltIn ∧ (s.collection.save newId ambient).run ⟨subject.record, b⟩ =
      (.ok (some saved), ⟨after.record, after.context.backend⟩) := by
  cases hid : Record.id? subject.record with
  | none =>
    obtain ⟨log, heq⟩ := run_checkAndSave_new newId ambient h hid
    rw [heq] at hrun
    have hsave := save_of_saveChanged hl hrun
    exact ⟨_, hb, hsave⟩
  | some id =>
    rcases hfound : (Subject.behind (s.collection.unscoped.findById (some id)) :
      SubjectM Entity L (Option Entity)).run subject with ⟨failure | _ | stored, looked⟩
    · rw [checkAndSave, run_bind, run_getThe] at hrun
      simp only [hid, run_bind_error hfound] at hrun
      cases hrun
    · rw [checkAndSave, run_bind, run_getThe] at hrun
      simp only [hid, run_bind_ok hfound] at hrun
      cases hrun
    · obtain ⟨log, heq⟩ := run_checkAndSave_known newId ambient h hid hfound
      rw [heq] at hrun
      have hrecord := (Subject.run_findById s.collection.unscoped (some id) subject).1
      have hplain := s.collection.unscoped.plain_findById (E := Entity) (some id)
        subject.context.backend hb
      have hbackend : looked.context.backend =
          ((s.collection.unscoped.findById (some id) : BackendM (Option Entity)).run
            subject.context.backend).2 := (congrArg (·.2.context.backend) hfound).symm
      rw [hfound] at hrecord
      rw [← hbackend] at hplain
      have hsave := save_of_saveChanged hl hrun
      rw [show (looked.note log).record = subject.record from hrecord] at hsave
      exact ⟨_, hplain, hsave⟩

/-! ## The second save -/

theorem result_finish_none {sink : Option Report} :
    (finish sink.isSome (.ok none : Except Failure (Option Entity)) (sink.getD {})).1 = .ok none := by
  cases sink with
  | none => rfl
  | some report =>
    simp only [finish, Option.getD_some, Option.isSome_some, if_true]
    split <;> rfl

/-- Errors that were reported and equal versions end a save. -/
theorem saveChanged_stopped (hl : s.listener = none) {stored : Entity}
    (h : subject.report.hasErrors = true ∨ Record.same stored subject.record = true) :
    (s.saveChanged (some stored) newId ambient).run subject = (.ok none, subject) := by
  rw [run_saveChanged (fun l h => by rw [hl] at h; cases h)]
  exact if_pos (Bool.or_eq_true_iff.2 h)

variable (newId ambient) in
/-- Otherwise the collection saves the record. -/
theorem backend_saveChanged (hl : s.listener = none) {stored : Entity}
    (h : ¬ (subject.report.hasErrors = true ∨ Record.same stored subject.record = true)) :
    ((s.saveChanged (some stored) newId ambient).run subject).2.context.backend =
      ((s.collection.save newId ambient).run
        ⟨subject.record, subject.context.backend⟩).2.backend := by
  rw [run_saveChanged (fun l h => by rw [hl] at h; cases h), Option.any_some,
    if_neg (fun hor => h (Bool.or_eq_true_iff.1 hor))]
  rcases (s.collection.save newId ambient).run ⟨subject.record, subject.context.backend⟩
    with ⟨_ | _ | saved, held⟩
  · rfl
  · rfl
  · simp only [heard, hl]
    rfl

/-- A save of a record that is found under its id answers nothing and writes
nothing if errors were reported before or the record is as it was found, and
otherwise makes a call to replace what was found. -/
theorem resave_outcomes {context : Context L} {x stored : Entity} {id : ObjectId} {r : Registry}
    {known : ValueType → Prop} {sink : Option Report} (hl : s.listener = none)
    (h : ∀ v ∈ (s.chain stages).order, v.Accepts x) (hx : x.Based) (hid : Record.id? x = some id)
    (hfound : (s.collection.unscoped.findById (some id) : BackendM (Option Entity)).run
      context.backend = (.ok (some stored), ⟨context.backend.store.tick .find, r⟩))
    (hr : r.Plain known)
    (hencodes : ∀ y, x.Stamped id y → ∃ doc, Registry.encodingFields y.attributes = .ok doc) :
    let o := s.validateAndSave (some x) newId sink stages ambient context
    (o.result = .ok none ∧
        o.context.backend.store.calls.writes = context.backend.store.calls.writes) ↔
      (sink.getD {}).hasErrors = true ∨ Record.same stored x = true := by
  have hbehind : (Subject.behind (s.collection.unscoped.findById (some id)) :
      SubjectM Entity L (Option Entity)).run ⟨x, sink.getD {}, context⟩ =
        (.ok (some stored), ⟨x, sink.getD {},
          { context with backend := ⟨context.backend.store.tick .find, r⟩ }⟩) := by
    rw [Subject.behind, Subject.run_held, Held.run_behind, hfound]
    rfl
  obtain ⟨log, heq⟩ := run_checkAndSave_known newId ambient h hid hbehind
  by_cases hstop : (sink.getD {}).hasErrors = true ∨ Record.same stored x = true
  · rw [saveChanged_stopped hl hstop] at heq
    simp only [validateAndSave, heq]
    exact iff_of_true ⟨result_finish_none, rfl⟩ hstop
  · refine iff_of_false (fun hquiet => ?_) hstop
    let looked : Subject Entity L := ⟨x, sink.getD {},
      ⟨⟨context.backend.store.tick .find, r⟩, log⟩⟩
    have hlooked : ¬ (looked.report.hasErrors = true ∨ Record.same stored looked.record = true) :=
      hstop
    have hcalls : (s.validateAndSave (some x) newId sink stages ambient
        context).context.backend.store.calls =
          (context.backend.store.tick .find).calls.tick .replace := by
      simp only [validateAndSave, heq]
      rw [← Collection.calls_save (b := looked.context.backend) hx hid hr hencodes]
      exact congrArg (·.store.calls) (backend_saveChanged newId ambient hl hlooked)
    have := hquiet.2
    rw [hcalls] at this
    simp only [Store.tick, Calls.tick, Calls.writes] at this
    omega

/-- A record that a service without a listener answered as saved is saved a second
time: the record can be read back but for the order in its documents, the stages
accept it, and what is stored can be read and has distinct object ids. Then the
second save answers nothing and writes nothing if and only if the names ascend in
every document of the record, or errors were reported before. -/
theorem resave_iff {schema : Schema} {names : Names} {e saved : Entity} {sink again : Option Report}
    {context later : Context L} {o : Outcome Entity L} {newId' : Option ObjectId}
    {ambient' : Ambient} {stages' : List (Validation Entity L)} {docs : List Document}
    {ids : List ObjectId} (hl : s.listener = none) (he : e.Rereadable schema names)
    (hcls : s.collection.cls = e.cls) (hb : context.backend.registry.BuiltIn)
    (haccept : ∀ v ∈ (s.chain stages).order, v.Accepts e)
    (hrun : s.validateAndSave (some e) newId sink stages ambient context = o)
    (hsaved : o.result = .ok (some saved)) (hstore : later.backend.store = o.context.backend.store)
    (hready : later.backend.registry.Ready schema names)
    (hd : later.backend.store.documents s.collection.name = .ok docs)
    (hids : docs.map (·.get? idField) = ids.map fun id => some (.objectId id)) (hn : ids.Nodup)
    (haccept' : ∀ v ∈ (s.chain stages').order, v.Accepts saved) :
    let o' := s.validateAndSave o.record newId' again stages' ambient' later
    (o'.result = .ok none ∧
        o'.context.backend.store.calls.writes = later.backend.store.calls.writes) ↔
      (again.getD {}).hasErrors = true ∨ (FieldValue.entity e).Tidy := by
  rcases hcheck : (s.checkAndSave newId stages ambient).run ⟨e, sink.getD {}, context⟩
    with ⟨result, after⟩
  simp only [validateAndSave, hcheck] at hrun
  subst hrun
  obtain ⟨rfl, -⟩ := finish_some.1 hsaved
  obtain ⟨b, hb, hsave⟩ := save_of_checkAndSave hl haccept hb hcheck
  rcases Collection.save_outcomes he.based hsave with ⟨heq, hrecord, hwrote⟩ | ⟨hnone, -⟩
  · cases heq
    have hstamped := Collection.stamped_onSave he.based newId ambient
    rw [← hrecord] at hstamped
    have hx := hstamped.rereadable he
    obtain ⟨r, hr, hfound⟩ := Collection.findById_saved hwrote hstamped.id hb hx
      (hcls.trans hstamped.alike.cls.symm) (by rw [← hstore]; exact hd) hids hn hstore hready
    have hid : Record.id? after.record = some (Collection.idOf e newId ambient) := by
      rw [Record.id?, Record.property]
      exact congrArg (·.bind FieldValue.objectId?) hstamped.id
    have hencodes : ∀ y, after.record.Stamped (Collection.idOf e newId ambient) y →
        ∃ doc, Registry.encodingFields y.attributes = .ok doc := by
      intro y hy
      obtain ⟨doc, hdoc, -⟩ := (hy.rereadable hx).inflate
      exact ⟨doc, hdoc⟩
    refine (resave_outcomes hl haccept' hx.based hid hfound hr.plain hencodes).trans ?_
    rw [hx.same_tidy, hstamped.alike.tidy_iff he.based hx.based]
  · rcases hnone with h | ⟨failure, h⟩ <;> cases h

/-! ## An order with a note -/

open Collection (early orders keepsBase_order)
open Registry (shop orderRef shopNames clear_order types_order methods_order)

/-- A note with its longer names first. -/
def note : Document := ⟨[("weight", .integer 5), ("size", .integer 2)]⟩

/-- An order with a note that the class does not declare. -/
def noted : Entity := ⟨orderRef, Descriptor.ofClass shop orderRef, [("note", .document note)]⟩

theorem type_note : (Descriptor.ofClass shop orderRef).typeOf "note" = .any := by
  rw [Descriptor.ofClass, methods_order]
  decide +kernel

theorem rereadable_noted : noted.Rereadable shop shopNames := by
  refine ⟨.of_kept rfl ⟨Registry.orderClass, rfl, rfl⟩ (List.pairwise_singleton ..) ?_ ?_ ?_,
    keepsBase_order, rfl, ?_⟩
  · intro a ha
    rw [List.mem_singleton.1 ha, type_note]
    exact ⟨rfl, rfl, rfl⟩
  · rw [types_order.2.2.2]
    exact fun p hp => by cases hp
  · intro a ha n hp
    rw [List.mem_singleton.1 ha] at hp
    cases FieldValue.eq_of_partOf_leaf rfl hp
  · rw [FieldValue.tidy_entity]
    refine .of_entity ⟨clear_order, fun a ha => ?_⟩ fun a ha => ?_
    · rw [List.mem_singleton.1 ha]
      show FieldValue.Exact ((Descriptor.ofClass shop orderRef).typeOf "note") _
      rw [type_note]
      trivial
    · rw [List.mem_singleton.1 ha]
      have hordered : (Value.document note.canonical).everywhere Value.ordered = true := by
        decide
      exact .of_leaf rfl hordered

/-- The orders, without a listener. -/
def teller : Service Entity Unit := ⟨orders, none, none⟩

/-- No orders, and nothing looked up yet. -/
def bare : Context Unit := ⟨⟨{}, ⟨⟨shop, [], []⟩, none, [], [], 0⟩⟩, ()⟩

theorem saved_noted : (teller.validateAndSave (some noted) none none [] early
    bare).result.toOption.join.isSome = true := by
  rw [noted, Collection.ofClass_order]
  decide +kernel

theorem documents_noted : ((teller.validateAndSave (some noted) none none [] early
    bare).context.backend.store.documents "orders").toOption.map
      (List.map fun doc => (doc.get? idField).bind Value.objectId?) = some [some (.ofParts 7 7)] := by
  rw [noted, Collection.ofClass_order]
  decide +kernel

/-- The order is written again, though nothing about it has changed. -/
theorem resave_noted :
    let o := teller.validateAndSave (some noted) none none [] early bare
    let o' := teller.validateAndSave o.record none none [] early
      ⟨⟨o.context.backend.store, bare.backend.registry⟩, ()⟩
    (∃ saved, o.result = .ok (some saved)) ∧
      ¬ (o'.result = .ok none ∧
        o'.context.backend.store.calls.writes = o.context.backend.store.calls.writes) := by
  have hblank : Registry.Ready shop shopNames bare.backend.registry :=
    ⟨⟨rfl, rfl, fun p hp => by cases hp⟩, ⟨rfl, fun p hp => by cases hp⟩⟩
  have hbuilt : bare.backend.registry.BuiltIn := ⟨rfl, rfl, fun p hp => by cases hp⟩
  have hresult := saved_noted
  have hread := documents_noted
  generalize hrun : teller.validateAndSave (some noted) none none [] early bare = o
    at hresult hread ⊢
  obtain ⟨saved, hsaved⟩ := ok_some_of_isSome hresult
  obtain ⟨docs, hd, hids⟩ : ∃ docs, o.context.backend.store.documents "orders" = .ok docs ∧
      docs.map (·.get? idField) = [ObjectId.ofParts 7 7].map fun id => some (.objectId id) := by
    cases h : o.context.backend.store.documents "orders" with
    | error fault => rw [h] at hread; cases hread
    | ok docs =>
      rw [h] at hread
      obtain ⟨doc, rfl, hid⟩ := List.map_eq_singleton_iff.1 (Option.some.inj hread)
      obtain ⟨v, hv, hid⟩ := Option.bind_eq_some_iff.1 hid
      cases v <;> cases hid
      exact ⟨_, rfl, congrArg ([·]) hv⟩
  have hstages : ∀ v ∈ (teller.chain []).order, ∀ e, v.Accepts e := fun v hv => by cases hv
  refine ⟨⟨saved, hsaved⟩, fun hquiet => ?_⟩
  have hiff := @resave_iff Unit teller [] none early shop shopNames noted saved none none bare
    ⟨⟨o.context.backend.store, bare.backend.registry⟩, ()⟩ o none early [] docs _ rfl
    rereadable_noted rfl hbuilt (fun v hv => hstages v hv _) hrun hsaved rfl hblank hd hids
    (by decide) (fun v hv => hstages v hv _)
  rcases hiff.1 hquiet with herrors | htidy
  · cases herrors
  · have hordered := htidy note (.property List.mem_cons_self (.whole _))
    revert hordered
    decide +kernel

end Service
end Folio
