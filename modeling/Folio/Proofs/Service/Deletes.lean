import Folio.Proofs.Collection.Deleting
import Folio.Proofs.Collection.Saving
import Folio.Proofs.Service.Stages

/-!
# What a delete of a service comes to

A caller with stages has the report looked at before anything is deleted, and a
caller without stages only afterwards. So if the caller's report already has
errors, a record may be deleted although the answer says that nothing was; and
so it may if the document that is deleted cannot be made into a record.

Results:
* `delete_of_errors`: without stages, earlier errors withhold the answer and
  nothing else.
* `validateAndDelete_cases`: the answer tells whether a document was deleted,
  but for these two causes.
-/
namespace Folio

namespace Service

variable {E L : Type} [Record E] {s : Service E L} {id : Option ObjectId} {c d : Context L}

theorem run_behind {α : Type} (m : BackendM α) (c : Context L) :
    (behind m).run c = ((m.run c.backend).1, { c with backend := (m.run c.backend).2 }) := rfl

/-- Without a listener the backend is the one after the collection's delete. -/
theorem backend_delete (h : s.listener = none) :
    ((s.delete id).run c).2.backend =
      ((s.collection.deleteById id : BackendM (Option E)).run c.backend).2 := by
  rw [delete, run_bind, run_behind, h]
  rcases (s.collection.deleteById id : BackendM (Option E)).run c.backend with ⟨_ | _, _⟩ <;> rfl

/-- The listener is told of a record only, and neither changes the answer nor what
is stored. -/
theorem delete_told (hl : ∀ l ∈ s.listener, l.Discreet) {deleted result : Except Failure (Option E)}
    {b : Backend}
    (hrun : (s.collection.deleteById id : BackendM (Option E)).run c.backend = (deleted, b))
    (h : (s.delete id).run c = (result, d)) : result = deleted ∧ b.store.Same d.backend.store := by
  have hbehind : (behind (s.collection.deleteById id) : ContextM L (Option E)).run c =
      (deleted, { c with backend := b }) := by rw [run_behind, hrun]
  rw [delete] at h
  cases deleted with
  | error failure =>
    rw [run_bind_error hbehind] at h
    cases h
    exact ⟨rfl, .refl _⟩
  | ok found =>
    rw [run_bind_ok hbehind] at h
    cases hlistener : s.listener with
    | none =>
      simp only [hlistener] at h
      cases h
      exact ⟨rfl, .refl _⟩
    | some listener =>
      cases found with
      | none =>
        simp only [hlistener] at h
        cases h
        exact ⟨rfl, .refl _⟩
      | some e =>
        obtain ⟨d', hd, hsame⟩ := (hl listener hlistener).deleted e { c with backend := b }
        simp only [hlistener, run_bind_ok hd] at h
        cases h
        exact ⟨rfl, hsame⟩

/-- A delete takes nothing and answers no record, or takes a document and
answers what can be rebuilt of it. -/
theorem delete_cases (hl : ∀ l ∈ s.listener, l.Discreet) {result : Except Failure (Option E)}
    (h : (s.delete id).run c = (result, d)) :
    ((∀ e, result ≠ .ok (some e)) ∧ c.backend.store.Same d.backend.store) ∨
    ∃ i doc, id = some i ∧ s.collection.Takes i doc c.backend.store d.backend.store ∧
      result = ((Registry.inflate s.collection.cls doc : RegistryM E).run c.backend.registry).1.map
        some := by
  rcases hrun : (s.collection.deleteById id : BackendM (Option E)).run c.backend with ⟨deleted, b⟩
  obtain ⟨rfl, hsame⟩ := delete_told hl hrun h
  rcases Collection.deleteById_cases hrun with ⟨hnone, hstored⟩ | ⟨i, doc, hi, htakes, hresult⟩
  · refine .inl ⟨fun e he => ?_, hstored.trans hsame⟩
    rcases hnone with rfl | ⟨failure, rfl⟩ <;> cases he
  · exact .inr ⟨i, doc, hi, htakes.within (.refl _) hsame, hresult⟩

/-- Without stages, earlier errors withhold the answer and nothing else. -/
theorem delete_of_errors {report : Report} (h : report.hasErrors = true) :
    (s.validateAndDelete id (some report) [] c).result = .ok none ∧
      (s.validateAndDelete id (some report) [] c).context = ((s.delete id).run c).2 := by
  refine ⟨?_, rfl⟩
  show (finish true ((s.delete id).run c).1 report).1 = .ok none
  rcases ((s.delete id).run c).1 with failure | found
  · simp only [finish, Report.hasErrors_addAction, if_true]
  · simp only [finish, h, if_true]

variable {sink : Option Report} {stages : List (Validation E L)}

/-- Before the answer is withheld for errors: no record is answered and nothing
is taken, or a document is taken and the answer is what can be rebuilt of it. In
the second case the report has errors only if nobody looked at it. -/
theorem checkAndDelete_cases (hl : ∀ l ∈ s.listener, l.Discreet)
    (hs : ∀ v ∈ (s.chain stages).order, v.Respects Subject.SameStore) {report told : Report}
    {result : Except Failure (Option E)}
    (h : s.checkAndDelete id report stages c = (result, told, d)) :
    ((∀ e, result ≠ .ok (some e)) ∧ c.backend.store.Same d.backend.store) ∨
    ∃ i doc r, id = some i ∧ s.collection.Takes i doc c.backend.store d.backend.store ∧
      (stages = [] → r = c.backend.registry) ∧
      result = ((Registry.inflate s.collection.cls doc : RegistryM E).run r).1.map some ∧
      (told.hasErrors = true ↔ stages = [] ∧ report.hasErrors = true) := by
  rw [checkAndDelete] at h
  cases stages with
  | nil =>
    rcases hdelete : (s.delete id).run c with ⟨deleted, after⟩
    simp only [List.isEmpty_nil, if_true, hdelete] at h
    cases h
    rcases delete_cases hl hdelete with hnone | ⟨i, doc, hi, htakes, hr⟩
    · exact .inl hnone
    · exact .inr ⟨i, doc, _, hi, htakes, fun _ => rfl, hr, (and_iff_right rfl).symm⟩
  | cons v rest =>
    have hlook := Collection.findById_same (E := E) s.collection id c.backend
    rw [run_behind] at h
    generalize (s.collection.findById id : BackendM (Option E)).run c.backend = looked at h hlook
    obtain ⟨found, b⟩ := looked
    simp only [List.isEmpty_cons, Bool.false_eq_true, if_false] at h
    rcases found with failure | _ | e
    · cases h
      exact .inl ⟨fun e he => (by cases he), hlook⟩
    · cases h
      exact .inl ⟨fun e he => (by cases he), hlook⟩
    have hchecked := Chain.within_validate none Subject.sameStore_frame hs
      ⟨e, report, { c with backend := b }⟩
    rcases hvalidate : ((s.chain (v :: rest)).validate none).run ⟨e, report, { c with backend := b }⟩
      with ⟨checked, subject⟩
    rw [hvalidate] at hchecked
    have hsame := hlook.trans hchecked
    simp only [hvalidate] at h
    rcases checked with failure | _
    · cases h
      exact .inl ⟨fun e he => (by cases he), hsame⟩
    · cases herrors : subject.report.hasErrors with
      | true =>
        simp only [herrors, if_true] at h
        cases h
        exact .inl ⟨fun e he => (by cases he), hsame⟩
      | false =>
        rcases hdelete : (s.delete id).run subject.context with ⟨deleted, after⟩
        simp only [herrors, Bool.false_eq_true, if_false, hdelete] at h
        cases h
        rcases delete_cases hl hdelete with ⟨hnone, hrest⟩ | ⟨i, doc, hi, htakes, hr⟩
        · exact .inl ⟨hnone, hsame.trans hrest⟩
        · refine .inr ⟨i, doc, _, hi, htakes.within hsame (.refl _), fun h => (by cases h), hr, ?_⟩
          rw [herrors]
          exact iff_of_false Bool.false_ne_true fun h => (by cases h.1)

/-- A delete behind stages that leave the store alone. Either nothing that is
stored changes, and no record is answered; or a document is taken, and the record
that it makes is answered, if it makes one, unless a caller without stages had
errors in the report before. -/
theorem validateAndDelete_cases (hl : ∀ l ∈ s.listener, l.Discreet)
    (hs : ∀ v ∈ (s.chain stages).order, v.Respects Subject.SameStore) :
    let o := s.validateAndDelete id sink stages c
    let before := c.backend.store
    let after := o.context.backend.store
    before.Same after ∧ (∀ e, o.result ≠ .ok (some e)) ∨
    ¬before.Same after ∧ ∃ i doc r, id = some i ∧ s.collection.Takes i doc before after ∧
      (stages = [] → r = c.backend.registry) ∧
      ∀ e, o.result = .ok (some e) ↔
        ((Registry.inflate s.collection.cls doc).run r).1 = .ok e ∧
          ¬(stages = [] ∧ (sink.getD {}).hasErrors = true) := by
  rcases hcheck : s.checkAndDelete id (sink.getD {}) stages c with ⟨result, told, d⟩
  have ho : s.validateAndDelete id sink stages c =
      ⟨(finish sink.isSome result told).1, none, (finish sink.isSome result told).2, d⟩ := by
    rw [validateAndDelete, hcheck]
  rw [ho]
  rcases checkAndDelete_cases hl hs hcheck with ⟨hnone, hsame⟩ |
    ⟨i, doc, r, hi, htakes, hr, rfl, htold⟩
  · exact .inl ⟨hsame, fun e he => hnone e (finish_some.1 he).1⟩
  · refine .inr ⟨htakes.not_same, i, doc, r, hi, htakes, hr, fun e => finish_some.trans ?_⟩
    rw [← htold, Bool.not_eq_true]
    refine and_congr_left fun _ => ?_
    cases ((Registry.inflate s.collection.cls doc : RegistryM E).run r).1 with
    | error failure => exact iff_of_false (fun h => by cases h) fun h => by cases h
    | ok e' => exact ⟨fun h => by cases h; rfl, fun h => by cases h; rfl⟩

open Collection (desk orders)

/-- The orders, with no stages and no listener. -/
def counter : Service Entity Unit := ⟨orders, none, none⟩

/-- An order is gone, although the caller is told that none was deleted. -/
theorem validateAndDelete_order :
    let o := counter.validateAndDelete (some (.ofParts 1 2)) (some { actions := ["late"] }) []
      ⟨desk, ()⟩
    ¬desk.store.Same o.context.backend.store ∧ ∀ e, o.result ≠ .ok (some e) := by
  have hshorter : ((counter.validateAndDelete (some (.ofParts 1 2)) (some { actions := ["late"] }) []
      ⟨desk, ()⟩).context.backend.store.entries "orders").length = 1 := by
    rw [(delete_of_errors rfl).2, backend_delete rfl, Collection.store_deleteById rfl]
    decide +kernel
  have hdiscreet : ∀ l ∈ counter.listener, l.Discreet := fun l hl => by cases hl
  have hstages : ∀ v ∈ (counter.chain []).order, v.Respects Subject.SameStore :=
    fun v hv => by cases hv
  rcases @validateAndDelete_cases Entity Unit _ counter (some (.ofParts 1 2)) ⟨desk, ()⟩
    (some { actions := ["late"] }) [] hdiscreet hstages with
    ⟨hsame, -⟩ | ⟨hchanged, i, doc, r, -, -, -, hanswer⟩
  · rw [hsame "orders"] at hshorter
    cases hshorter
  · exact ⟨hchanged, fun e he => ((hanswer e).1 he).2 ⟨rfl, rfl⟩⟩

end Service
end Folio
