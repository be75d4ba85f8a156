import Folio.Proofs.Store.Failing
import Folio.Proofs.Store.Refinement
import Folio.Proofs.Store.Revising

/-!
# Ids of rewritten documents

No change of an update may name the id, and a replacement is put under the id of
what it replaces. So where documents are rewritten, each place keeps its id, also
if a request stops in the middle. The id that is read back is the canonical form
of the one that is written, and what is rewritten was read back before.

Results:
* `id_rewritten`: what is written in the place of a document has its id.
* `Revised.ids`: the ids of a collection are read back as before.
* `ids_kept`: so they are after every request that finds something to rewrite.
-/
namespace Folio

variable {c : String} {filter : Filter} {docs : List Document} {s t : Store}

/-- What is read of kept forms has distinct names, and an id in canonical form. -/
theorem Stored.Faithful.read {e : Stored} (hf : e.Faithful) {back : Document}
    (hb : e.document = .ok back) :
    back.WellNamed ∧ ∃ id : Value, back.get? idField = some id ∧ id.canonical = id := by
  obtain ⟨hid, -⟩ := hf.read_id hb
  obtain ⟨doc, -, he⟩ := hf
  obtain ⟨rfl, -, hk⟩ := document_of_encode he hb
  exact ⟨Document.WellNamed.canonical hk, _, hid, Value.canonical_canonical _⟩

namespace Store

variable {r : Request} {every : Bool} {step : Document → Except StoreFault Document}

/-- What is written in the place of a document has its id, and no name twice. -/
theorem id_rewritten (hr : r.target? = some ⟨c, filter, every, .rewrite step⟩) (hw : r.WellNamed)
    {doc next : Document} (hd : doc.WellNamed) (h : step doc = .ok next) :
    next.WellNamed ∧ ∀ id, doc.get? idField = some id → next.get? idField = some id := by
  cases r with
  | replaceOne _ _ new upsert fresh =>
    cases hr
    exact ⟨wellNamed_replacement hd hw h, fun _ => id_replacement h⟩
  | findOneAndReplace _ _ new version fresh =>
    cases hr
    exact ⟨wellNamed_replacement hd hw h, fun _ => id_replacement h⟩
  | updateOne _ _ update | updateMany _ _ update | findOneAndUpdate _ _ update version =>
    cases hr
    exact ⟨wellNamed_updated hw hd h, fun id hid => (id_updated h).trans hid⟩
  | _ => cases hr

/-- The entry is read as a document with the same id. -/
def ReadsIdOf (e : Stored) (doc : Document) : Prop :=
  ∃ back, e.document = .ok back ∧ back.get? idField = doc.get? idField

theorem documents_of_readsIdOf {entries : List Stored} (h : List.Forall₂ ReadsIdOf entries docs) :
    ∃ backs, Stored.documents entries = .ok backs ∧
      backs.map (·.get? idField) = docs.map (·.get? idField) := by
  induction h with
  | nil => exact ⟨[], rfl, rfl⟩
  | @cons e doc entries docs he _ ih =>
    obtain ⟨back, hback, hid⟩ := he
    obtain ⟨backs, hbacks, hids⟩ := ih
    refine ⟨back :: backs, ?_, congrArg₂ List.cons hid hids⟩
    rw [Stored.documents, List.mapM_cons, hback, show entries.mapM Stored.document = _ from hbacks]
    rfl

theorem readsIdOf_written {doc next : Document} {entry : Stored}
    (he : Stored.ofDocument next = .ok entry) (hw : next.WellNamed)
    (hs : (Value.document next).everywhere Value.sized = true) {id : Value}
    (hdoc : doc.get? idField = some id) (hid : id.canonical = id)
    (hnext : next.get? idField = some id) : ReadsIdOf entry doc := by
  refine ⟨next.canonical, Stored.document_of_encoded (Stored.ofDocument_ok he).2 hs hw, ?_⟩
  rw [Value.get?_canonical (Document.wellNamed_iff.1 hw).1, hnext, hdoc, Option.map_some, hid]

/-- Where ids are kept in what is written, they are read back as before. -/
theorem Revised.ids {places : List Nat} (h : Revised s c step places t)
    (hf : ∀ e ∈ s.entries c, e.Faithful) (hd : s.documents c = .ok docs)
    (hstep : ∀ i ∈ places, ∀ doc next, docs[i]? = some doc → step doc = .ok next →
      doc.WellNamed → next.WellNamed ∧ (Value.document next).everywhere Value.sized = true ∧
        ∀ id, doc.get? idField = some id → next.get? idField = some id) :
    ∃ backs, t.documents c = .ok backs ∧
      backs.map (·.get? idField) = docs.map (·.get? idField) := by
  have hmap : (s.entries c).map Stored.document = docs.map .ok := mapM_eq_ok_iff.1 hd
  have hlength : (t.entries c).length = docs.length := by
    rw [h.length, ← List.length_map Stored.document, hmap, List.length_map]
  refine documents_of_readsIdOf (List.forall₂_iff_get.2 ⟨hlength, fun i hi hj => ?_⟩)
  have hdoc : docs[i]? = some (docs.get ⟨i, hj⟩) := List.getElem?_eq_getElem hj
  have hentry : (t.entries c)[i]? = some ((t.entries c).get ⟨i, hi⟩) := List.getElem?_eq_getElem hi
  generalize docs.get ⟨i, hj⟩ = doc, (t.entries c).get ⟨i, hi⟩ = entry at hdoc hentry ⊢
  obtain ⟨old, hold, hread⟩ : ∃ old, (s.entries c)[i]? = some old ∧ old.document = .ok doc := by
    have hat := congrArg (·[i]?) hmap
    simp only [List.getElem?_map, hdoc, Option.map_some] at hat
    exact Option.map_eq_some_iff.1 hat
  by_cases hplace : i ∈ places
  · obtain ⟨doc', next, written, hat, hn, he, hget⟩ := h.written i hplace
    cases hentry.symm.trans hget
    cases hdoc.symm.trans (hat.getElem? hd)
    obtain ⟨hnamed, id, hid, hcanonical⟩ := (hf old (List.mem_of_getElem? hold)).read hread
    obtain ⟨hw, hs, hkeeps⟩ := hstep i hplace doc next hdoc hn hnamed
    exact readsIdOf_written he hw hs hid hcanonical (hkeeps id hid)
  · rw [h.kept i hplace, hold] at hentry
    cases hentry
    exact ⟨doc, hread, rfl⟩

/-- A request that finds something to rewrite, in a collection that can be read,
leaves the ids that are read there as they are and where they are, whether it
succeeds or fails, if what it writes can be read back. -/
theorem ids_kept {requests : List Request}
    (hr : r.target? = some ⟨c, filter, every, .rewrite step⟩) (hw : r.WellNamed)
    (hd : (empty.after requests).documents c = .ok docs)
    (hm : ∃ doc ∈ docs, filter.matchesDoc doc = true)
    (hs : ∀ i ∈ picked filter every docs, ∀ doc next, docs[i]? = some doc → step doc = .ok next →
      (Value.document next).everywhere Value.sized = true) :
    ∃ backs, ((perform r).run (empty.after requests)).2.documents c = .ok backs ∧
      backs.map (·.get? idField) = docs.map (·.get? idField) := by
  rcases perform_revised hr hd rfl with ⟨written, hpre, hrevised, -⟩ | ⟨-, hnone, -⟩
  · refine hrevised.ids (after_faithful requests c) hd fun i hi doc next hdoc hn hnamed => ?_
    obtain ⟨hwritten, hid⟩ := id_rewritten hr hw hnamed hn
    exact ⟨hwritten, hs i (hpre.subset hi) doc next hdoc hn, hid⟩
  · obtain ⟨doc, hdoc, hmatches⟩ := hm
    have := List.findIdxs_eq_nil_iff.1 (hits_of_picked hnone) doc hdoc
    cases hmatches.symm.trans this

/-- All tasks are closed, and the three ids are read as before. -/
theorem ids_kept_tasks :
    ∃ backs, ((perform (.updateMany "tasks" .all [.set "open" (.bool false)])).run
        (empty.after tasks)).2.documents "tasks" = .ok backs ∧
      backs.map (·.get? idField) =
        [1, 2, 3].map fun n => some (.objectId (.ofParts 1 n)) := by
  have hdocs : (empty.after tasks).documents "tasks" =
      .ok [task 1 true, task 2 false, task 3 true] := by rfl
  have hsized : ∀ doc ∈ [task 1 true, task 2 false, task 3 true],
      ((updated [.set "open" (.bool false)] doc).toOption.all fun next =>
        (Value.document next).everywhere Value.sized) = true := by decide +kernel
  refine ids_kept (r := .updateMany "tasks" .all [.set "open" (.bool false)]) rfl ?_ hdocs
    ⟨_, List.mem_cons_self, rfl⟩ ?_
  · exact List.forall_mem_singleton.2 rfl
  · intro i _ doc next hdoc hn
    have hall := hsized doc (List.mem_of_getElem? hdoc)
    rwa [hn] at hall

end Store
end Folio
