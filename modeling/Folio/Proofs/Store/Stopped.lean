import Folio.Proofs.Store.Revising

/-!
# Updates of several documents that stop

An update of every match rewrites one document after another and keeps what it
has written when it comes to a document that cannot be updated. So a call that
fails leaves its collection as it was only if it had written nothing new before
it stopped.

Results:
* `Revised.documents_iff`: rewritten places that hold the same documents.
* `updateMany_failed_iff`: which failed updates leave every collection as it was.
-/
namespace Folio

variable {c : String} {filter : Filter} {docs : List Document} {s t : Store}

namespace Stored

theorem At.unique {entries : List Stored} {i : Nat} {doc other : Document} (h : At entries i doc)
    (h' : At entries i other) : doc = other := by
  obtain ⟨e, he, hd⟩ := h
  obtain ⟨e', he', hd'⟩ := h'
  cases he.symm.trans he'
  exact Except.ok.inj (hd.symm.trans hd')

/-- The documents of the entries, place by place. -/
theorem documents_eq_iff {entries : List Stored} (hlen : entries.length = docs.length) :
    documents entries = .ok docs ↔ ∀ i doc, docs[i]? = some doc → At entries i doc := by
  rw [documents, mapM_eq_ok_iff]
  constructor
  · intro h i doc hi
    have hplace := congrArg (·[i]?) h
    simp only [List.getElem?_map, hi, Option.map_some] at hplace
    exact Option.map_eq_some_iff.1 hplace
  · intro h
    refine List.ext_getElem (by simpa using hlen) fun i hi hi' => ?_
    rw [List.length_map] at hi hi'
    obtain ⟨e, he, hd⟩ := h i docs[i] (List.getElem?_eq_getElem hi')
    obtain ⟨_, rfl⟩ := List.getElem?_eq_some_iff.1 he
    rw [List.getElem_map, List.getElem_map, hd]

/-- A search goes through the documents that can be read. -/
theorem docs_of_matching {entries : List Stored} {found : List (Nat × Document)}
    (hd : documents entries = .ok docs) (hm : matching filter entries 0 = .ok found) :
    found.map (·.2) = docs.filter (filter.matchesDoc ·) := by
  have hmap := matching_documents filter hd 0
  rw [hm] at hmap
  exact Except.ok.inj hmap

end Stored

namespace Store

variable {update : Update}

/-- What is read where a document was updated. -/
def rewritten (step : Document → Except StoreFault Document) (doc : Document) :
    Except StoreFault Document :=
  step doc >>= Stored.ofDocument >>= Stored.document

/-- The documents that are rewritten: of the matches, those before the first
that cannot be updated. -/
def reached (filter : Filter) (update : Update) (docs : List Document) : List Document :=
  (docs.filter (filter.matchesDoc ·)).takeWhile (writable update)

/-- Where places are rewritten, the same documents are read as before exactly if
each of them is what is read in its place. -/
theorem Revised.documents_iff {step : Document → Except StoreFault Document} {places : List Nat}
    (h : Revised s c step places t) (hd : s.documents c = .ok docs) :
    t.documents c = .ok docs ↔
      ∀ i ∈ places, ∀ doc, Stored.At (s.entries c) i doc → rewritten step doc = .ok doc := by
  have hlen : (s.entries c).length = docs.length := by
    have hmap := mapM_eq_ok_iff.1 (show (s.entries c).mapM Stored.document = .ok docs from hd)
    simpa using congrArg List.length hmap
  have hhere := (Stored.documents_eq_iff hlen).1 hd
  rw [documents, Stored.documents_eq_iff (h.length.trans hlen)]
  -- what is read at a place that was written
  have hread : ∀ i ∈ places, ∀ doc, Stored.At (s.entries c) i doc →
      (Stored.At (t.entries c) i doc ↔ rewritten step doc = .ok doc) := by
    intro i hi doc hat
    obtain ⟨old, next, entry, hold, hn, he, hget⟩ := h.written i hi
    cases hat.unique hold
    have hrewritten : rewritten step doc = entry.document := by
      rw [rewritten, hn]
      show Stored.ofDocument next >>= Stored.document = entry.document
      rw [he]
      rfl
    rw [hrewritten]
    constructor
    · rintro ⟨e, hi, hdoc⟩
      cases hget.symm.trans hi
      exact hdoc
    · exact fun hdoc => ⟨entry, hget, hdoc⟩
  constructor
  · intro hthere i hi doc hat
    exact (hread i hi doc hat).1 (hthere i doc (hat.getElem? hd))
  · intro hsame i doc hi
    have hat := hhere i doc hi
    by_cases hw : i ∈ places
    · exact (hread i hw doc hat).2 (hsame i hw doc hat)
    · obtain ⟨e, he, hdoc⟩ := hat
      exact ⟨e, (h.kept i hw).trans he, hdoc⟩

/-- An update of every match, whether it succeeds or stops: no other collection
has changed, and this one has not if each document that was rewritten is read as
before. -/
theorem updateMany_documents_iff {outcome : Except StoreFault UpdateResult}
    (hu : s.unavailable = false) (hd : s.documents c = .ok docs)
    (h : (updateMany c filter update).run s = (outcome, t)) :
    (∀ name, name ≠ c → t.documents name = s.documents name) ∧
      (t.documents c = .ok docs ↔
        ∀ doc ∈ reached filter update docs, rewritten (updated update) doc = .ok doc) := by
  obtain ⟨found, hm⟩ := Stored.exists_matching filter hd
  rw [updateMany, run_searchAll hu hm] at h
  have hrevised := (updateAll_revised (s := s.tick .update)
    (fun q hq => Stored.at_of_matching hm hq) (Stored.matching_ok hm).2 h).1.of_tick
  have hreached : reached filter update docs =
      (found.takeWhile fun q => writable update q.2).map (·.2) := by
    rw [reached, ← Stored.docs_of_matching hd hm, List.takeWhile_map]
    rfl
  refine ⟨fun name hne => congrArg Stored.documents (hrevised.elsewhere name hne), ?_⟩
  rw [hrevised.documents_iff hd, hreached]
  have hat : ∀ q ∈ found.takeWhile fun q => writable update q.2,
      Stored.At (s.entries c) q.1 q.2 := fun q hq =>
    Stored.at_of_matching hm ((List.takeWhile_prefix _).subset hq)
  constructor
  · intro hsame doc hdoc
    obtain ⟨q, hq, rfl⟩ := List.mem_map.1 hdoc
    exact hsame q.1 (List.mem_map_of_mem hq) q.2 (hat q hq)
  · intro hsame i hi doc hdoc
    obtain ⟨q, hq, rfl⟩ := List.mem_map.1 hi
    cases (hat q hq).unique hdoc
    exact hsame q.2 (List.mem_map_of_mem hq)

/-- A search that fails has changed nothing. -/
theorem updateMany_unread {fault fault' : StoreFault} (hd : s.documents c = .error fault')
    (h : (updateMany c filter update).run s = (.error fault, t)) : s.Same t := by
  rcases updateMany_run h with ⟨_, -, hsame⟩ | ⟨found, hm, -⟩
  · exact hsame
  · have hmap := Stored.map_matching filter (s.entries c) 0
    rw [hm, show Stored.documents (s.entries c) = .error fault' from hd] at hmap
    cases hmap

/-- An update of every match that fails has changed no other collection. Its own
collection holds the same documents as before exactly if the store could not be
reached, or the collection not be read, or each match before the one that could
not be updated is read as it was. -/
theorem updateMany_failed_iff {fault : StoreFault}
    (h : (updateMany c filter update).run s = (.error fault, t)) :
    (∀ name, name ≠ c → t.documents name = s.documents name) ∧
      (t.documents c = s.documents c ↔
        s.unavailable = true ∨ ∀ docs, s.documents c = .ok docs →
          ∀ doc ∈ reached filter update docs, rewritten (updated update) doc = .ok doc) := by
  cases hu : s.unavailable with
  | true =>
    cases (run_refused hu).symm.trans h
    exact ⟨fun _ _ => rfl, iff_of_true rfl (.inl rfl)⟩
  | false =>
    cases hd : s.documents c with
    | error fault' =>
      have hsame := updateMany_unread hd h
      refine ⟨fun name _ => hsame.documents name, iff_of_true ?_ (.inr nofun)⟩
      exact (hsame.documents c).trans hd
    | ok docs =>
      obtain ⟨helsewhere, hiff⟩ := updateMany_documents_iff hu hd h
      refine ⟨helsewhere, hiff.trans ⟨fun hsame => .inr fun others ho => ?_, fun hsame => ?_⟩⟩
      · cases ho
        exact hsame
      · exact hsame.resolve_left Bool.false_ne_true docs rfl

/-- Two tallies are put in; the second is no number. -/
def tallies : List Request :=
  [.insertOne "tallies" ⟨[("n", .integer 1)]⟩ (.ofParts 1 1),
    .insertOne "tallies" ⟨[("n", .text "x")]⟩ (.ofParts 1 2)]

def tally (k : Nat) (v : Value) : Document := ⟨[("n", v), ("_id", .objectId (.ofParts 1 k))]⟩

/-- The first tally is counted up, the second cannot be, and the first stays as
it was written. -/
theorem updateMany_failed_tallies :
    ∃ t, (updateMany "tallies" .all [.inc "n" (.integer 1)]).run (empty.after tallies) =
        (.error (.update (.notNumeric "n")), t) ∧
      t.documents "tallies" ≠ (empty.after tallies).documents "tallies" := by
  have hfails : (updateMany "tallies" .all [.inc "n" (.integer 1)]).run (empty.after tallies) =
      (.error (.update (.notNumeric "n")),
        ((updateMany "tallies" .all [.inc "n" (.integer 1)]).run (empty.after tallies)).2) := by rfl
  have hdocs : (empty.after tallies).documents "tallies" =
      .ok [tally 1 (.integer 1), tally 2 (.text "x")] := by rfl
  refine ⟨_, hfails, fun hsame => ?_⟩
  rcases (updateMany_failed_iff hfails).2.1 hsame with hu | hkept
  · cases hu
  · cases hkept _ hdocs (tally 1 (.integer 1)) List.mem_cons_self

end Store
end Folio
