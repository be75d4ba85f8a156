import Folio.Proofs.Cbor.RoundTrip
import Folio.Proofs.Collection.Finding
import Folio.Proofs.Store.Identity

/-!
# Deleting a record

Deleting takes one document out of the store, or marks it where records can be
defunct, and only then rebuilds the record that the document stored. So the
answer may be a failure although a document is gone.

Results:
* `Takes.not_same`: a document that is taken out or marked makes a difference.
* `deleteById_cases`: nothing is taken, or the answer is what can be rebuilt of
  the document that was.
-/
namespace Folio

namespace Collection

/-- The document with the id is taken out of the collection, or is marked as
defunct there. -/
inductive Takes (c : Collection) (id : ObjectId) (doc : Document) (s t : Store) : Prop
  | out {i : Nat} (scope : c.scope = .plain) (place : Stored.At (s.entries c.name) i doc)
      (found : (Filter.id id).matchesDoc doc = true)
      (changed : s.Changed c.name ((s.entries c.name).eraseIdx i) t)
  | marked {i : Nat} {next : Document} {entry : Stored} (scope : c.scope = .defunct)
      (place : Stored.At (s.entries c.name) i doc)
      (found : (c.visible (some (.id id))).matchesDoc doc = true)
      (updated : Store.updated markDefunct doc = .ok next)
      (kept : Stored.ofDocument next = .ok entry)
      (changed : s.Changed c.name ((s.entries c.name).set i entry) t)

variable {c : Collection} {id : ObjectId} {doc next : Document} {s t : Store}

theorem live_of_visible (hc : c.scope = .defunct) {filter : Filter}
    (h : (c.visible (some filter)).matchesDoc doc = true) : live.matchesDoc doc = true := by
  have hv : c.visible (some filter) = .both [live, filter] := by
    simp only [visible, scopeFilter, hc]
  rw [hv] at h
  cases filter with
  | all => exact h
  | _ =>
    rw [Filter.both, List.filter_cons_of_pos rfl, List.filter_cons_of_pos rfl] at h
    exact (Bool.and_eq_true_iff.1 h).1

theorem not_live_of_marked (h : doc.get? defunctProperty = some (.bool true)) :
    live.matchesDoc doc = false := by
  have hpath : doc.getPath? defunctProperty = doc.get? defunctProperty := rfl
  rw [live, Filter.matchesDoc, Filter.fieldEquals, hpath, h]
  rfl

theorem get?_markDefunct (h : Store.updated markDefunct doc = .ok next) :
    next.get? defunctProperty = some (.bool true) := by
  cases h
  rw [Document.get?_insert, if_pos rfl]

/-- A document that is taken out or marked makes a difference. -/
theorem Takes.not_same (h : c.Takes id doc s t) : ¬s.Same t := by
  intro hsame
  cases h with
  | @out i _ place _ changed =>
    obtain ⟨e, he, -⟩ := place
    have hlen := congrArg List.length ((hsame c.name).symm.trans changed.here)
    obtain ⟨hi, -⟩ := List.getElem?_eq_some_iff.1 he
    rw [List.length_eraseIdx_of_lt hi] at hlen
    omega
  | @marked i next entry scope place found updated kept changed =>
    obtain ⟨e, he, hd⟩ := place
    -- the entry that stands there now is the one that stood there before
    have hentry : entry = e := by
      have hget := congrArg (·[i]?) ((hsame c.name).symm.trans changed.here)
      obtain ⟨hi, -⟩ := List.getElem?_eq_some_iff.1 he
      rw [he, List.getElem?_set_self hi] at hget
      exact (Option.some.inj hget).symm
    subst hentry
    have hmark : doc.get? defunctProperty = some (.bool true) := by
      rw [(Stored.get?_document kept hd).2, get?_markDefunct updated]
      rfl
    have hlive := live_of_visible scope found
    rw [not_live_of_marked hmark] at hlive
    cases hlive

/-- What stays the same before and after does not matter. -/
theorem Takes.within {s' t' : Store} (h : c.Takes id doc s t) (hs : s'.Same s) (ht : t.Same t') :
    c.Takes id doc s' t' := by
  cases h with
  | out scope place found changed =>
    rw [hs c.name] at place changed
    exact .out scope place found (changed.within hs ht)
  | marked scope place found updated kept changed =>
    rw [hs c.name] at place changed
    exact .marked scope place found updated kept (changed.within hs ht)

/-! ## Calls -/

variable {E : Type} [Record E] {b : Backend}

theorem run_inflate (c : Collection) (doc : Document) (b : Backend) :
    (c.inflate doc : BackendM E).run b =
      (((Registry.inflate c.cls doc : RegistryM E).run b.registry).1,
        { b with registry := ((Registry.inflate c.cls doc : RegistryM E).run b.registry).2 }) := rfl

/-- What was taken out or marked is rebuilt afterwards. -/
theorem run_inflate? {call : Store.Call (Option Document)} {doc : Document}
    (h : call.run b.store = (.ok (some doc), t)) {result : Except Failure (Option E)}
    {after : Backend}
    (hrun : (do c.inflate? (← Backend.call call) : BackendM (Option E)).run b = (result, after)) :
    result = ((Registry.inflate c.cls doc : RegistryM E).run b.registry).1.map some ∧
      after.store = t := by
  rw [run_bind, Backend.run_call, h] at hrun
  simp only [Except.mapError, inflate?, run_bind, run_inflate] at hrun
  generalize (Registry.inflate c.cls doc : RegistryM E).run b.registry = looked at hrun ⊢
  rcases looked with ⟨_ | e, r⟩
  · cases hrun
    exact ⟨rfl, rfl⟩
  · cases hrun
    exact ⟨rfl, rfl⟩

/-- A failed call, or one that finds nothing, is the answer. -/
theorem run_inflate?_none {call : Store.Call (Option Document)}
    {found : Except StoreFault (Option Document)} (h : call.run b.store = (found, t))
    (hf : (∃ fault, found = .error fault) ∨ found = .ok none)
    {result : Except Failure (Option E)} {after : Backend}
    (hrun : (do c.inflate? (← Backend.call call) : BackendM (Option E)).run b = (result, after)) :
    (result = .ok none ∨ ∃ failure, result = .error failure) ∧ after.store = t := by
  rw [run_bind, Backend.run_call, h] at hrun
  rcases hf with ⟨fault, rfl⟩ | rfl
  · cases hrun
    exact ⟨.inr ⟨_, rfl⟩, rfl⟩
  · cases hrun
    exact ⟨.inl rfl, rfl⟩

/-- Where records cannot be defunct, the store is the one after its own delete. -/
theorem store_deleteById (hc : c.scope = .plain) (id : ObjectId) (b : Backend) :
    ((c.deleteById (some id) : BackendM (Option E)).run b).2.store =
      ((Store.findOneAndDelete c.name (.id id)).run b.store).2 := by
  simp only [deleteById, findOneAndDelete, hc]
  rw [run_bind, Backend.run_call]
  rcases (Store.findOneAndDelete c.name (.id id)).run b.store with ⟨_ | found, t⟩
  · rfl
  · exact store_inflate? ..

/-- Deleting by id takes nothing and answers no record, or takes a document and
answers what can be rebuilt of it. -/
theorem deleteById_cases {id : Option ObjectId} {result : Except Failure (Option E)}
    {after : Backend} (h : (c.deleteById id : BackendM (Option E)).run b = (result, after)) :
    ((result = .ok none ∨ ∃ failure, result = .error failure) ∧ b.store.Same after.store) ∨
    ∃ i doc, id = some i ∧ c.Takes i doc b.store after.store ∧
      result = ((Registry.inflate c.cls doc : RegistryM E).run b.registry).1.map some := by
  cases id with
  | none =>
    cases h
    exact .inl ⟨.inl rfl, fun _ => rfl⟩
  | some id =>
    cases hc : c.scope with
    | plain =>
      simp only [deleteById, findOneAndDelete, hc] at h
      rcases hcall : (Store.findOneAndDelete c.name (.id id)).run b.store with ⟨found, t⟩
      rcases Store.findOneAndDelete_cases hcall with ⟨fault, hf, hsame⟩ | ⟨hf, hsame⟩ |
        ⟨i, doc, hplace, hfound, rfl, hchanged⟩
      · obtain ⟨hr, rfl⟩ := run_inflate?_none hcall (.inl ⟨fault, hf⟩) h
        exact .inl ⟨hr, hsame⟩
      · obtain ⟨hr, rfl⟩ := run_inflate?_none hcall (.inr hf) h
        exact .inl ⟨hr, hsame⟩
      · obtain ⟨hr, rfl⟩ := run_inflate? hcall h
        exact .inr ⟨id, doc, rfl, .out hc hplace hfound hchanged, hr⟩
    | defunct =>
      simp only [deleteById, findOneAndDelete, hc, findOneAndUpdate] at h
      rcases hcall : (Store.findOneAndUpdate c.name (c.visible (some (.id id))) markDefunct
        .before).run b.store with ⟨found, t⟩
      rcases Store.findOneAndUpdate_cases hcall with ⟨fault, hf, hsame⟩ | ⟨hf, hsame⟩ |
        ⟨i, doc, next, entry, hplace, hfound, hnext, hentry, rfl, hchanged⟩
      · obtain ⟨hr, rfl⟩ := run_inflate?_none hcall (.inl ⟨fault, hf⟩) h
        exact .inl ⟨hr, hsame⟩
      · obtain ⟨hr, rfl⟩ := run_inflate?_none hcall (.inr hf) h
        exact .inl ⟨hr, hsame⟩
      · obtain ⟨hr, rfl⟩ := run_inflate? hcall h
        exact .inr ⟨id, doc, rfl, .marked hc hplace hfound hnext hentry hchanged, hr⟩

end Collection
end Folio
