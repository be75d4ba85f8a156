import Mathlib.Data.List.Forall2
import Folio.Proofs.Store.Altering

/-!
# Inserting several documents

Documents that are inserted together are put in one by one. The first one that
is refused ends the call; the entries before it stay.

Results:
* `Batch`: what becomes of documents that are put in one by one.
* `placeAll_batch`, `insertMany_batch`: the calls put documents in like that.
* `insertMany_cases`: the documents that are put in, and when there are any.
-/
namespace Folio.Store

variable {c : String} {s t : Store}

theorem Changed.trans {u : Store} {entries entries' : List Stored} (h : s.Changed c entries t)
    (h' : t.Changed c entries' u) : s.Changed c entries' u :=
  ⟨h'.here, fun name hne => (h'.elsewhere name hne).trans (h.elsewhere name hne)⟩

/-- Nothing is added. -/
theorem changed_nothing (h : s.Same t) : s.Changed c (s.entries c ++ []) t :=
  ⟨(h c).trans (List.append_nil _).symm, fun name _ => h name⟩

/-- The entry is that of the document, under its own id or a new one. -/
def Keeps (doc : Document) (entry : Stored) : Prop :=
  ∃ fresh, Stored.ofDocument (doc.withId none fresh) = .ok entry

theorem accept_eq_ok_iff {entries : List Stored} {doc : Document} {fresh : ObjectId}
    {next : List Stored × Value} : accept c entries doc fresh = .ok next ↔
      ∃ e, Stored.ofDocument (doc.withId none fresh) = .ok e ∧
        entries.any (·.id == e.id) = false ∧ next = (entries ++ [e], e.id) := by
  rw [accept_eq]
  constructor
  · intro h
    split at h
    next e he =>
      split at h
      · cases h
      next ht =>
        cases h
        exact ⟨e, he, eq_false_of_ne_true ht, rfl⟩
    next => cases h
  · rintro ⟨e, he, ht, rfl⟩
    simp only [he, ht, Bool.false_eq_true, if_false]

variable {docs : List Document} {fresh : Nat → ObjectId} {result : Except StoreFault (List Value)}

/-- The documents are put in one by one behind the entries, each under an id that none
of those before it has, up to the first that is refused or to the end. -/
inductive Batch (c : String) :
    List Stored → List Document → (Nat → ObjectId) → List Stored →
      Except StoreFault (List Value) → Prop where
  | done {entries fresh} : Batch c entries [] fresh [] (.ok [])
  | refused {entries doc rest fresh fault} (h : accept c entries doc (fresh 0) = .error fault) :
    Batch c entries (doc :: rest) fresh [] (.error fault)
  | put {entries doc rest fresh e added result}
    (he : Stored.ofDocument (doc.withId none (fresh 0)) = .ok e)
    (ht : entries.any (·.id == e.id) = false)
    (hrest : Batch c (entries ++ [e]) rest (fun i => fresh (i + 1)) added result) :
    Batch c entries (doc :: rest) fresh (e :: added) (result.map (e.id :: ·))

/-- A call puts documents in like that and changes nothing else. -/
theorem placeAll_batch (h : (placeAll c fresh docs).run s = (result, t)) :
    ∃ added, s.Changed c (s.entries c ++ added) t ∧
      Batch c (s.entries c) docs fresh added result := by
  induction docs generalizing s t fresh result with
  | nil =>
    cases h
    exact ⟨[], changed_nothing (.refl s), .done⟩
  | cons doc rest ih =>
    rw [placeAll, run_bind, run_place] at h
    cases haccept : accept c (s.entries c) doc (fresh 0) with
    | error fault =>
      simp only [haccept] at h
      cases h
      exact ⟨[], changed_nothing (.refl s), .refused haccept⟩
    | ok next =>
      obtain ⟨e, he, ht, rfl⟩ := accept_eq_ok_iff.1 haccept
      simp only [haccept, run_bind] at h
      rcases hrest : (placeAll c (fun i => fresh (i + 1)) rest).run
        (s.setEntries c (s.entries c ++ [e])) with ⟨others, u⟩
      obtain ⟨added, hchanged, hbatch⟩ := ih hrest
      rw [entries_setEntries, if_pos rfl] at hchanged hbatch
      rw [List.append_assoc, List.singleton_append] at hchanged
      have hfirst : s.Changed c (s.entries c ++ [e]) (s.setEntries c (s.entries c ++ [e])) :=
        ⟨by rw [entries_setEntries, if_pos rfl],
          fun name hne => by rw [entries_setEntries, if_neg hne]⟩
      rw [hrest] at h
      refine ⟨e :: added, ?_, ?_⟩
      · cases others <;> cases h <;> exact hfirst.trans hchanged
      · cases others <;> cases h <;> exact .put he ht hbatch

/-- So does a call that inserts documents, if the store can be reached. -/
theorem insertMany_batch (hu : s.unavailable = false)
    (h : (insertMany c docs fresh).run s = (result, t)) :
    ∃ added, s.Changed c (s.entries c ++ added) t ∧
      Batch c (s.entries c) docs fresh added result := by
  rw [insertMany, run_bind, run_begin, hu] at h
  obtain ⟨added, hchanged, hbatch⟩ := placeAll_batch (s := s.tick .insert) h
  exact ⟨added, ⟨hchanged.here, hchanged.elsewhere⟩, hbatch⟩

namespace Batch

variable {entries added : List Stored}

theorem keeps (h : Batch c entries docs fresh added result) :
    List.Forall₂ Keeps (docs.take added.length) added := by
  induction h with
  | done => exact .nil
  | refused => exact .nil
  | put he _ _ ih => exact .cons ⟨_, he⟩ ih

theorem length_of_ok (h : Batch c entries docs fresh added result) :
    (∃ ids, result = .ok ids) → added.length = docs.length := by
  induction h with
  | done => exact fun _ => rfl
  | refused => exact nofun
  | @put _ _ _ _ _ _ result _ _ _ ih =>
    rintro ⟨ids, hids⟩
    cases result with
    | error fault => cases hids
    | ok others => exact congrArg (· + 1) (ih ⟨others, rfl⟩)

/-- None is put in just when the first of all is refused. -/
theorem ne_nil_iff (h : Batch c entries docs fresh added result) :
    added ≠ [] ↔ ∃ doc next, docs.head? = some doc ∧
      accept c entries doc (fresh 0) = .ok next := by
  cases h with
  | done => exact iff_of_false (fun hne => hne rfl) nofun
  | refused haccept =>
    refine iff_of_false (fun hne => hne rfl) ?_
    rintro ⟨_, next, hdoc, hnext⟩
    cases hdoc
    cases haccept.symm.trans hnext
  | put he ht =>
    exact iff_of_true nofun ⟨_, _, rfl, accept_eq_ok_iff.2 ⟨_, he, ht, rfl⟩⟩

end Batch

/-- Documents are put in up to the first that is refused, if the store can be reached.
None is put in just when that is the first of all. -/
theorem insertMany_cases (h : (insertMany c docs fresh).run s = (result, t)) :
    ∃ added, s.Changed c (s.entries c ++ added) t ∧
      List.Forall₂ Keeps (docs.take added.length) added ∧
      ((∃ ids, result = .ok ids) → added.length = docs.length) ∧
      (added ≠ [] ↔ s.unavailable = false ∧ ∃ doc next, docs.head? = some doc ∧
        accept c (s.entries c) doc (fresh 0) = .ok next) := by
  cases hu : s.unavailable with
  | true =>
    rw [insertMany, run_bind, run_begin, hu] at h
    cases h
    refine ⟨[], changed_nothing fun _ => rfl, .nil, nofun, ?_⟩
    exact iff_of_false (fun hne => hne rfl) nofun
  | false =>
    obtain ⟨added, hchanged, hbatch⟩ := insertMany_batch hu h
    refine ⟨added, hchanged, hbatch.keeps, hbatch.length_of_ok, ?_⟩
    rw [hbatch.ne_nil_iff, and_iff_right rfl]

end Folio.Store
