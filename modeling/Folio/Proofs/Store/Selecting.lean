import Folio.Proofs.Store.Failing
import Folio.Proofs.Store.Revising

/-!
# What a filter selects

All requests that take a filter agree on what it selects, the places of the
documents that match, though they search in two ways and take documents out in
two ways. What each of them answers and leaves is told by these places.

Results:
* `remaining_singleton`: an element taken out by its place.
* `FindOptions.run_stages`: options are a pipeline.
* `selected`: answers and changes of all requests that take a filter.
-/
namespace Folio

/-! ## Places taken out -/

section

variable {α β : Type}

/-- The elements at other places than the given ones. -/
def remaining (places : List Nat) (xs : List α) : List α :=
  (xs.zipIdx.filter fun x => !places.contains x.2).map (·.1)

theorem remaining_nil (xs : List α) : remaining [] xs = xs := by
  simp [remaining, List.zipIdx_map_fst]

theorem remaining_map (places : List Nat) (f : α → β) (xs : List α) :
    remaining places (xs.map f) = (remaining places xs).map f := by
  simp only [remaining, List.zipIdx_map, List.filter_map, List.map_map]
  rfl

theorem eraseIdx_eq_filter (xs : List α) (i k : Nat) :
    ((xs.zipIdx k).filter fun x => !([k + i] : List Nat).contains x.2).map (·.1) =
      xs.eraseIdx i := by
  induction xs generalizing i k with
  | nil => rfl
  | cons x rest ih =>
    cases i with
    | zero =>
      have hlater : ∀ y ∈ rest.zipIdx (k + 1), (!([k + 0] : List Nat).contains y.2) = true := by
        intro y hy
        have := List.le_snd_of_mem_zipIdx hy
        simp
        omega
      rw [List.zipIdx_cons, List.filter_cons_of_neg (by simp), List.filter_eq_self.2 hlater,
        List.zipIdx_map_fst]
      rfl
    | succ i =>
      rw [List.zipIdx_cons, List.filter_cons_of_pos (by simp), List.map_cons,
        List.eraseIdx_cons_succ, ← ih i (k + 1), Nat.add_right_comm k 1 i, Nat.add_assoc k i 1]

theorem remaining_singleton (i : Nat) (xs : List α) : remaining [i] xs = xs.eraseIdx i := by
  rw [remaining, ← eraseIdx_eq_filter xs i 0, Nat.zero_add]

end

/-! ## Options -/

/-- The pipeline that does what the options say. -/
def FindOptions.stages (options : FindOptions) : List Stage :=
  (options.sort.map fun s => .sort s.1 s.2).toList ++ (options.skip.map .skip).toList ++
    (options.limit.map .limit).toList

theorem FindOptions.run_stages (options : FindOptions) (docs : List Document) :
    Stage.run docs options.stages = options.apply docs := by
  obtain ⟨skip, limit, sort⟩ := options
  rcases skip with _ | n <;> rcases limit with _ | m <;> rcases sort with _ | ⟨field, direction⟩ <;>
    rfl

namespace Store

variable {c : String} {filter : Filter} {docs : List Document} {s t : Store} {r : Request}
  {every : Bool}

/-- The answer, where the store can be reached. -/
def reply (s : Store) (c : String) (answer : Answer) : Except StoreFault Answer :=
  if s.unavailable then .error (.unavailable c) else .ok answer

/-! ## Reading -/

theorem documents_at_hits {found : List (Nat × Document)} (hd : s.documents c = .ok docs)
    (hm : Stored.matching filter (s.entries c) 0 = .ok found) :
    found.map (·.2) = (hits filter docs).filterMap (docs[·]?) := by
  rw [hits, ← Stored.places_of_matching hd hm, List.filterMap_map]
  have hat : ∀ q ∈ found, docs[q.1]? = some q.2 :=
    fun q hq => (Stored.at_of_matching hm hq).getElem? hd
  rw [List.filterMap_congr (g := some ∘ (·.2)) hat, List.filterMap_eq_map]

theorem find_eq (hd : s.documents c = .ok docs) (options : FindOptions) :
    ((perform (.find c filter options)).run s).1 =
      s.reply c (.documents (options.apply ((hits filter docs).filterMap (docs[·]?)))) := by
  obtain ⟨found, hm⟩ := Stored.exists_matching filter hd
  rw [perform, run_map, run_find, hm, reply]
  cases s.unavailable with
  | true => rfl
  | false =>
    rw [← documents_at_hits hd hm]
    rfl

theorem count_eq (hd : s.documents c = .ok docs) :
    ((perform (.count c filter)).run s).1 = s.reply c (.number (hits filter docs).length) := by
  obtain ⟨found, hm⟩ := Stored.exists_matching filter hd
  rw [perform, run_map, run_count, hm, reply, hits, ← Stored.places_of_matching hd hm,
    List.length_map]
  cases s.unavailable <;> rfl

/-- A search with options is a pipeline, also where something cannot be read. -/
theorem find_eq_aggregate (s : Store) (c : String) (filter : Filter) (options : FindOptions) :
    ((perform (.find c filter options)).run s).1 =
      ((perform (.aggregate c (.select filter :: options.stages))).run s).1 := by
  have hmap := Stored.map_matching filter (s.entries c) 0
  rw [perform, run_map, run_find, perform, run_map, aggregate]
  cases hu : s.unavailable with
  | true =>
    rw [run_refused hu]
    rfl
  | false =>
    rw [run_counted hu]
    simp only [run_bind, run_get, run_lift, documents, entries_tick]
    rcases hm : Stored.matching filter (s.entries c) 0 with fault | found <;>
      rcases hd : Stored.documents (s.entries c) with fault' | docs <;>
      rw [hm, hd] at hmap
    · cases hmap
      rfl
    · cases hmap
    · cases hmap
    · have hfound : found.map (·.2) = docs.filter (filter.matchesDoc ·) := Except.ok.inj hmap
      show Except.ok (Answer.documents (options.apply (found.map (·.2)))) =
        Except.ok (Answer.documents (Stage.run (docs.filter (filter.matchesDoc ·)) options.stages))
      rw [hfound, options.run_stages]

/-! ## Deleting -/

theorem documents_remaining (hd : s.documents c = .ok docs) {places : List Nat}
    (h : s.Changed c (remaining places (s.entries c)) t) :
    t.documents c = .ok (remaining places docs) := by
  rw [documents, h.here, Stored.documents, mapM_eq_ok_iff, ← remaining_map, ← remaining_map,
    mapM_eq_ok_iff.1 hd]

/-- A store that cannot be reached deletes nothing. -/
theorem refused_removal (hr : r.target? = some ⟨c, filter, every, .remove⟩)
    (hu : s.unavailable = true) :
    ((perform r).run s).1 = .error (.unavailable c) ∧ s.Same ((perform r).run s).2 := by
  cases r with
  | findOneAndDelete _ _ =>
    cases hr
    rw [perform, run_map, findOneAndDelete, run_refused hu]
    exact ⟨rfl, fun _ => rfl⟩
  | deleteOne _ _ =>
    cases hr
    rw [perform, run_map, deleteOne, run_refused hu]
    exact ⟨rfl, fun _ => rfl⟩
  | deleteMany _ _ =>
    cases hr
    rw [perform, run_map, deleteMany, run_refused hu]
    exact ⟨rfl, fun _ => rfl⟩
  | _ => cases hr

theorem changed_nothing_picked (kind : CallKind) :
    s.Changed c (remaining [] (s.entries c)) (s.tick kind) := by
  rw [remaining_nil]
  exact ⟨rfl, fun _ _ => rfl⟩

theorem changed_one_picked (kind : CallKind) (i : Nat) :
    s.Changed c (remaining [i] (s.entries c))
      ((s.tick kind).setEntries c ((s.entries c).eraseIdx i)) := by
  rw [remaining_singleton]
  exact changed_setEntries kind _

/-- A request that deletes takes out exactly the places it picked, and tells how
many they are. -/
theorem perform_removed (hr : r.target? = some ⟨c, filter, every, .remove⟩)
    (hu : s.unavailable = false) (hd : s.documents c = .ok docs) :
    ∃ answer t, (perform r).run s = (.ok answer, t) ∧
      answer.matched = (picked filter every docs).length ∧
      s.Changed c (remaining (picked filter every docs) (s.entries c)) t := by
  obtain ⟨found, hm⟩ := Stored.exists_matching filter hd
  rw [picked_of_matching hd hm]
  cases r with
  | findOneAndDelete _ _ =>
    cases hr
    rw [perform, run_map, findOneAndDelete, run_search hu hm]
    rcases found with _ | ⟨⟨i, doc⟩, rest⟩
    · exact ⟨.document none, _, rfl, rfl, changed_nothing_picked _⟩
    · exact ⟨.document (some doc), _, rfl, rfl, changed_one_picked _ i⟩
  | deleteOne _ _ =>
    cases hr
    rw [perform, run_map, deleteOne, run_search hu hm]
    rcases found with _ | ⟨⟨i, doc⟩, rest⟩
    · exact ⟨.number 0, _, rfl, rfl, changed_nothing_picked _⟩
    · exact ⟨.number 1, _, rfl, rfl, changed_one_picked _ i⟩
  | deleteMany _ _ =>
    cases hr
    rw [perform, run_map, deleteMany, run_searchAll hu hm]
    exact ⟨.number (found.map (·.1)).length, _, rfl, rfl, changed_setEntries _ _⟩
  | _ => cases hr

/-- The document that is taken out is answered. -/
theorem findOneAndDelete_reply (hd : s.documents c = .ok docs) :
    ((perform (.findOneAndDelete c filter)).run s).1 =
      s.reply c (.document ((hits filter docs).head?.bind (docs[·]?))) := by
  rw [perform, run_map, findOneAndDelete, reply]
  cases hu : s.unavailable with
  | true =>
    rw [run_refused hu]
    rfl
  | false =>
    obtain ⟨found, hm⟩ := Stored.exists_matching filter hd
    rw [run_search hu hm, hits, ← Stored.places_of_matching hd hm]
    rcases found with _ | ⟨⟨i, doc⟩, rest⟩
    · rfl
    · have hat : docs[i]? = some doc := (Stored.at_of_matching hm List.mem_cons_self).getElem? hd
      show Except.ok (Answer.document (some doc)) = Except.ok (Answer.document docs[i]?)
      rw [hat]

/-! ## All requests -/

/-- What requests with a filter come to where all documents can be read: all go by
the places of the documents that match. -/
structure Selected (s : Store) (c : String) (filter : Filter) (docs : List Document) : Prop where
  found : ((perform (.find c filter {})).run s).1 =
    s.reply c (.documents ((hits filter docs).filterMap (docs[·]?)))
  counted : ((perform (.count c filter)).run s).1 = s.reply c (.number (hits filter docs).length)
  piped : ∀ options, ((perform (.find c filter options)).run s).1 =
    ((perform (.aggregate c (.select filter :: options.stages))).run s).1
  taken : ((perform (.findOneAndDelete c filter)).run s).1 =
    s.reply c (.document ((hits filter docs).head?.bind (docs[·]?)))
  removed : ∀ r every, r.target? = some ⟨c, filter, every, .remove⟩ →
    ∃ answer t, (perform r).run s = (s.reply c answer, t) ∧
      answer.matched = (picked filter every docs).length ∧
      t.documents c = .ok (if s.unavailable then docs else remaining (picked filter every docs) docs) ∧
      ∀ name, name ≠ c → t.documents name = s.documents name
  rewritten : ∀ r every step answer t, r.target? = some ⟨c, filter, every, .rewrite step⟩ →
    (perform r).run s = (.ok answer, t) →
    answer.matched = (picked filter every docs).length ∧
      (Revised s c step (picked filter every docs) t ∨
        r.upserts = true ∧ hits filter docs = [] ∧
          ∃ entry, s.Changed c (s.entries c ++ [entry]) t)

/-- Whatever takes a filter goes by the places that it selects. -/
theorem selected (filter : Filter) (hd : s.documents c = .ok docs) : Selected s c filter docs where
  found := find_eq hd {}
  counted := count_eq hd
  piped := find_eq_aggregate s c filter
  taken := findOneAndDelete_reply hd
  removed := by
    intro r every hr
    cases hu : s.unavailable with
    | true =>
      obtain ⟨hrefused, hsame⟩ := refused_removal hr hu
      refine ⟨.number (picked filter every docs).length, _, Prod.ext ?_ rfl, rfl, ?_, ?_⟩
      · rw [hrefused, reply, if_pos hu]
      · rw [if_pos rfl, hsame.documents, hd]
      · exact fun name _ => hsame.documents name
    | false =>
      obtain ⟨answer, t, hrun, hmatched, hchanged⟩ := perform_removed hr hu hd
      refine ⟨answer, t, ?_, hmatched, ?_, ?_⟩
      · rw [hrun, reply, if_neg (by simp [hu])]
      · rw [if_neg Bool.false_ne_true, documents_remaining hd hchanged]
      · exact fun name hne => congrArg Stored.documents (hchanged.elsewhere name hne)
  rewritten := by
    intro r every step answer t hr hrun
    rcases perform_revised hr hd hrun with
      ⟨written, -, hrevised, hok⟩ | ⟨hupserts, hnone, entry, a, ha, hmatched, hchanged⟩
    · obtain ⟨rfl, hmatched⟩ := hok answer rfl
      exact ⟨hmatched, .inl hrevised⟩
    · cases ha
      refine ⟨?_, .inr ⟨hupserts, hits_of_picked hnone, entry, hchanged⟩⟩
      rw [hmatched, hnone, List.length_nil]

/-- Of three tasks the first and the last are open; deleting the open ones leaves
the one between them. -/
theorem selected_tasks :
    hits (.eq "open" (.bool true)) [task 1 true, task 2 false, task 3 true] = [0, 2] ∧
      ∃ t, (perform (.deleteMany "tasks" (.eq "open" (.bool true)))).run (empty.after tasks) =
          (.ok (.number 2), t) ∧ t.documents "tasks" = .ok [task 2 false] := by
  have hdocs : (empty.after tasks).documents "tasks" =
      .ok [task 1 true, task 2 false, task 3 true] := by rfl
  obtain ⟨answer, t, hrun, -, hleft, -⟩ := (selected (.eq "open" (.bool true)) hdocs).removed
    (.deleteMany "tasks" (.eq "open" (.bool true))) true rfl
  obtain rfl : ((perform _).run (empty.after tasks)).2 = t := congrArg Prod.snd hrun
  exact ⟨by rfl, _, by rfl, hleft⟩

end Store
end Folio
