import Mathlib.Data.List.Basic
import Folio.Proofs.Collection.Finding
import Folio.Proofs.Store.Altering

/-!
# Requests that rewrite what a filter picks

A request picks places of a collection by a filter: the first match or every
match. One that rewrites writes these places in their order, each from the
document that stands there, and stops at the first that cannot be written. So
what it leaves can be told by the places that were written, a prefix of those
that were picked: all other entries are the same as before.

Results:
* `Stored.places_of_matching`: the places of the matches.
* `updateAll_revised`: the loop over several places.
* `perform_revised`: every request that rewrites, whether it succeeds or fails.
-/
namespace Folio

variable {α : Type} {c : String} {filter : Filter} {docs : List Document} {s t u : Store}

namespace Stored

variable {entries : List Stored} {found : List (Nat × Document)} {k : Nat}

/-- The first match is the first of all matches. -/
theorem first?_of_matching (h : matching filter entries k = .ok found) :
    first? filter entries k = .ok found.head? := by
  induction entries generalizing k found with
  | nil =>
    cases h
    rfl
  | cons e rest ih =>
    obtain ⟨doc, hdoc, h⟩ := ok_of_bind h
    obtain ⟨others, hrest, h⟩ := ok_of_bind h
    rw [first?_cons hdoc, ih hrest]
    cases h
    split <;> rfl

theorem places_of_matching (hd : documents entries = .ok docs)
    (hm : matching filter entries k = .ok found) :
    found.map (·.1) = docs.findIdxs (filter.matchesDoc ·) k := by
  induction entries generalizing docs k found with
  | nil =>
    cases hd
    cases hm
    rfl
  | cons e rest ih =>
    obtain ⟨doc, later, hdoc, hlater, rfl⟩ := ok_of_mapM_cons hd
    rw [matching_cons hdoc] at hm
    cases hrest : matching filter rest (k + 1) with
    | error fault =>
      rw [hrest] at hm
      cases hm
    | ok others =>
      rw [hrest] at hm
      cases hm
      rw [List.findIdxs_cons, ← ih hlater hrest]
      split <;> rfl

theorem exists_matching (filter : Filter) (hd : documents entries = .ok docs) :
    ∃ found, matching filter entries 0 = .ok found := by
  have hmap := matching_documents filter hd 0
  cases hm : matching filter entries 0 with
  | error fault =>
    rw [hm] at hmap
    cases hmap
  | ok found => exact ⟨found, rfl⟩

end Stored

namespace Store

/-! ## Targets -/

/-- What a request does with a document that it picks. -/
inductive Action where
  | rewrite (step : Document → Except StoreFault Document)
  | remove

/-- What a request picks, the first match of a filter or every match, and what
it does with it. -/
structure Target where
  collection : String
  filter : Filter
  every : Bool
  action : Action

/-- The requests that pick documents to change them. -/
def Request.target? : Request → Option Target
  | replaceOne c filter doc _ fresh => some ⟨c, filter, false, .rewrite (replacement · doc fresh)⟩
  | updateOne c filter update => some ⟨c, filter, false, .rewrite (updated update)⟩
  | updateMany c filter update => some ⟨c, filter, true, .rewrite (updated update)⟩
  | findOneAndUpdate c filter update _ => some ⟨c, filter, false, .rewrite (updated update)⟩
  | findOneAndReplace c filter doc _ fresh =>
    some ⟨c, filter, false, .rewrite (replacement · doc fresh)⟩
  | findOneAndDelete c filter | deleteOne c filter => some ⟨c, filter, false, .remove⟩
  | deleteMany c filter => some ⟨c, filter, true, .remove⟩
  | _ => none

/-- The request inserts a document if nothing matches. -/
def Request.upserts : Request → Bool
  | replaceOne _ _ _ upsert _ => upsert
  | _ => false

/-- The places of the documents that match. -/
def hits (filter : Filter) (docs : List Document) : List Nat := docs.findIdxs (filter.matchesDoc ·)

/-- The places that are picked: all matches or the first. -/
def picked (filter : Filter) (every : Bool) (docs : List Document) : List Nat :=
  if every then hits filter docs else (hits filter docs).take 1

theorem hits_of_picked {every : Bool} (h : picked filter every docs = []) : hits filter docs = [] := by
  cases every with
  | true => exact h
  | false =>
    rw [picked, if_neg Bool.false_ne_true] at h
    simpa using h

/-- How many matches an answer tells of. -/
def Answer.matched : Answer → Nat
  | .result r => r.matched
  | .document doc => doc.toList.length
  | .number n => n
  | _ => 0

/-! ## Searches -/

theorem run_refused {kind : CallKind} {f : Unit → Call α} (hu : s.unavailable = true) :
    (begin kind c >>= f).run s = (.error (.unavailable c), s.tick kind) := by
  rw [run_bind, run_begin, if_pos hu]

theorem run_counted {kind : CallKind} {f : Unit → Call α} (hu : s.unavailable = false) :
    (begin kind c >>= f).run s = (f ()).run (s.tick kind) := by
  rw [run_bind, run_begin, if_neg (by simp [hu])]

variable {found : List (Nat × Document)} {kind : CallKind}

/-- A search for one document goes on with the first of all matches. -/
theorem run_search {f : Option (Nat × Document) → Call α} (hu : s.unavailable = false)
    (hm : Stored.matching filter (s.entries c) 0 = .ok found) :
    (begin kind c >>= fun _ => locate c filter >>= f).run s = (f found.head?).run (s.tick kind) := by
  rw [run_counted hu, run_bind, run_locate, entries_tick, Stored.first?_of_matching hm]

theorem run_searchAll {f : List (Nat × Document) → Call α} (hu : s.unavailable = false)
    (hm : Stored.matching filter (s.entries c) 0 = .ok found) :
    (begin kind c >>= fun _ => locateAll c filter >>= f).run s = (f found).run (s.tick kind) := by
  rw [run_counted hu, run_bind, run_locateAll, entries_tick, hm]

theorem picked_of_matching (hd : s.documents c = .ok docs)
    (hm : Stored.matching filter (s.entries c) 0 = .ok found) (every : Bool) :
    picked filter every docs =
      if every then found.map (·.1) else found.head?.toList.map (·.1) := by
  rw [picked, hits, ← Stored.places_of_matching hd hm]
  cases every <;> cases found <;> rfl

/-! ## Rewritten places -/

/-- The documents at the places were rewritten where they stand, and no other
entry changed. -/
structure Revised (s : Store) (c : String) (step : Document → Except StoreFault Document)
    (places : List Nat) (t : Store) : Prop where
  length : (t.entries c).length = (s.entries c).length
  kept : ∀ i, i ∉ places → (t.entries c)[i]? = (s.entries c)[i]?
  written : ∀ i ∈ places, ∃ doc next entry, Stored.At (s.entries c) i doc ∧ step doc = .ok next ∧
    Stored.ofDocument next = .ok entry ∧ (t.entries c)[i]? = some entry
  elsewhere : ∀ name, name ≠ c → t.entries name = s.entries name

namespace Revised

variable {step : Document → Except StoreFault Document} {places : List Nat} {i : Nat}

theorem of_same (h : s.Same t) : Revised s c step [] t := by
  refine ⟨by rw [h c], fun i _ => by rw [h c], fun i hi => ?_, fun name _ => h name⟩
  cases hi

/-- What a call counts does not matter. -/
theorem of_tick (h : Revised (s.tick kind) c step places t) : Revised s c step places t :=
  ⟨h.length, h.kept, h.written, h.elsewhere⟩

theorem single {doc next : Document} {entry : Stored} (hat : Stored.At (s.entries c) i doc)
    (hn : step doc = .ok next) (he : Stored.ofDocument next = .ok entry)
    (h : s.Changed c ((s.entries c).set i entry) t) : Revised s c step [i] t := by
  obtain ⟨old, hi, -⟩ := id hat
  have hlt : i < (s.entries c).length := (List.getElem?_eq_some_iff.1 hi).1
  refine ⟨?_, ?_, ?_, h.elsewhere⟩
  · rw [h.here, List.length_set]
  · intro j hj
    rw [h.here, List.getElem?_set_ne]
    exact fun heq => hj (List.mem_singleton.2 heq.symm)
  · intro j hj
    rw [List.mem_singleton.1 hj, h.here]
    exact ⟨doc, next, entry, hat, hn, he, List.getElem?_set_self hlt⟩

/-- One place is rewritten, and then others. -/
theorem cons (h : Revised s c step [i] t) (hrest : Revised t c step places u) (hi : i ∉ places) :
    Revised s c step (i :: places) u := by
  have kept : ∀ j, j ≠ i → (t.entries c)[j]? = (s.entries c)[j]? :=
    fun j hj => h.kept j fun hm => hj (List.mem_singleton.1 hm)
  refine ⟨hrest.length.trans h.length, ?_, ?_, ?_⟩
  · intro j hj
    rw [List.mem_cons, not_or] at hj
    rw [hrest.kept j hj.2, kept j hj.1]
  · intro j hj
    rcases List.mem_cons.1 hj with rfl | hj
    · obtain ⟨doc, next, entry, hat, hn, he, hget⟩ := h.written j (List.mem_singleton_self j)
      exact ⟨doc, next, entry, hat, hn, he, (hrest.kept j hi).trans hget⟩
    · obtain ⟨doc, next, entry, ⟨old, hold, hdoc⟩, hn, he, hget⟩ := hrest.written j hj
      rw [kept j fun heq => hi (heq ▸ hj)] at hold
      exact ⟨doc, next, entry, ⟨old, hold, hdoc⟩, hn, he, hget⟩
  · exact fun name hne => (hrest.elsewhere name hne).trans (h.elsewhere name hne)

end Revised

/-! ## Several documents -/

/-- The document can be updated, and kept then. -/
def writable (update : Update) (doc : Document) : Bool :=
  (updated update doc >>= Stored.ofDocument).isOk

/-- The places are written in their order, up to the first that cannot be. -/
theorem updateAll_revised {update : Update} {result : UpdateResult}
    {outcome : Except StoreFault UpdateResult}
    (hat : ∀ q ∈ found, Stored.At (s.entries c) q.1 q.2)
    (hlt : found.Pairwise fun p q => p.1 < q.1)
    (h : (updateAll c update found result).run s = (outcome, t)) :
    Revised s c (updated update) ((found.takeWhile fun q => writable update q.2).map (·.1)) t ∧
      ∀ r, outcome = .ok r → found.takeWhile (fun q => writable update q.2) = found ∧
        r.matched = result.matched + found.length := by
  induction found generalizing s result with
  | nil =>
    cases h
    refine ⟨.of_same (.refl _), fun r hr => ?_⟩
    cases hr
    exact ⟨rfl, rfl⟩
  | cons q rest ih =>
    obtain ⟨i, doc⟩ := q
    obtain ⟨hlater, hlt⟩ := List.pairwise_cons.1 hlt
    -- nothing is written where the first place cannot be
    have stopped : ∀ fault, writable update doc = false →
        ((.error fault, s) : Except StoreFault UpdateResult × Store) = (outcome, t) →
        Revised s c (updated update)
          ((((i, doc) :: rest).takeWhile fun q => writable update q.2).map (·.1)) t ∧
          ∀ r, outcome = .ok r → ((i, doc) :: rest).takeWhile (fun q => writable update q.2) =
            (i, doc) :: rest ∧ r.matched = result.matched + (rest.length + 1) := by
      intro fault hw heq
      cases heq
      rw [List.takeWhile_cons_of_neg (Bool.not_eq_true _ ▸ hw)]
      exact ⟨.of_same (.refl _), fun r hr => by cases hr⟩
    rw [updateAll, run_bind, run_lift] at h
    cases hn : updated update doc with
    | error fault =>
      rw [hn] at h
      exact stopped fault (by rw [writable, hn]; rfl) h
    | ok next =>
      rw [hn] at h
      dsimp only at h
      rw [run_bind, run_overwrite] at h
      cases he : Stored.ofDocument next with
      | error fault =>
        rw [he] at h
        refine stopped fault ?_ h
        rw [writable, hn]
        exact congrArg Except.isOk he
      | ok entry =>
        rw [he] at h
        have hw : writable update doc = true := by
          rw [writable, hn]
          exact congrArg Except.isOk he
        have hfirst := hat (i, doc) List.mem_cons_self
        have hchanged := changed_of_setEntries (s := s) (c := c) ((s.entries c).set i entry)
        have hone : Revised s c (updated update) [i] _ := .single hfirst hn he hchanged
        have hothers : ∀ q ∈ rest, Stored.At ((s.setEntries c ((s.entries c).set i entry)).entries c)
            q.1 q.2 := by
          intro q hq
          rw [hchanged.here]
          exact (hat q (List.mem_cons_of_mem _ hq)).set_ne (Nat.ne_of_lt (hlater q hq)) entry
        obtain ⟨hrest, hok⟩ := ih hothers hlt h
        rw [List.takeWhile_cons_of_pos (p := fun q : Nat × Document => writable update q.2) hw]
        refine ⟨hone.cons hrest ?_, ?_⟩
        · intro hi
          obtain ⟨q, hq, rfl⟩ := List.mem_map.1 hi
          exact Nat.lt_irrefl _ (hlater q ((List.takeWhile_prefix _).subset hq))
        · intro r hr
          obtain ⟨hall, hmatched⟩ := hok r hr
          refine ⟨by rw [hall], ?_⟩
          rw [hmatched, List.length_cons]
          show result.matched + 1 + rest.length = result.matched + (rest.length + 1)
          omega

/-- An update of every match fails before it writes, or goes through all matches. -/
theorem updateMany_run {update : Update} {outcome : Except StoreFault UpdateResult}
    (h : (updateMany c filter update).run s = (outcome, t)) :
    (∃ fault, outcome = .error fault ∧ s.Same t) ∨
    ∃ found, Stored.matching filter (s.entries c) 0 = .ok found ∧
      (updateAll c update found {}).run (s.tick .update) = (outcome, t) := by
  cases hu : s.unavailable with
  | true =>
    cases (run_refused hu).symm.trans h
    exact .inl ⟨_, rfl, fun _ => rfl⟩
  | false =>
    rw [updateMany, run_counted hu, run_bind, run_locateAll, entries_tick] at h
    cases hm : Stored.matching filter (s.entries c) 0 with
    | error fault =>
      rw [hm] at h
      cases h
      exact .inl ⟨fault, rfl, fun _ => rfl⟩
    | ok found =>
      rw [hm] at h
      exact .inr ⟨found, rfl, h⟩

/-! ## One document -/

/-- Rewrites the first match, and tells of the document before and after. -/
def revise (kind : CallKind) (c : String) (filter : Filter)
    (step : Document → Except StoreFault Document) (absent : Call α)
    (tell : Document → Document → α) : Call α := do
  begin kind c
  match ← locate c filter with
  | some (i, doc) =>
    let next ← step doc
    overwrite c i next
    return tell doc next
  | none => absent

theorem map_revise {β : Type} (g : α → β) (kind : CallKind) (c : String) (filter : Filter)
    (step : Document → Except StoreFault Document) (absent : Call α)
    (tell : Document → Document → α) :
    g <$> revise kind c filter step absent tell =
      revise kind c filter step (g <$> absent) fun old new => g (tell old new) := by
  simp only [revise, map_bind]
  refine bind_congr fun _ => bind_congr fun found => ?_
  rcases found with _ | ⟨i, doc⟩
  · rfl
  · simp only [map_bind, map_pure]

/-- What is done where nothing matches: a document is inserted, or nothing. -/
def Request.absent : Request → Call Answer
  | replaceOne c _ doc true fresh =>
    .result <$> do return { upserted := some (← place c doc fresh) }
  | findOneAndUpdate .. | findOneAndReplace .. => pure (.document none)
  | _ => pure (.result {})

/-- The requests that rewrite one document. They tell of one match, and those that
count compare what is written with what was there. -/
theorem perform_eq_revise {r : Request} {step : Document → Except StoreFault Document}
    (h : r.target? = some ⟨c, filter, false, .rewrite step⟩) :
    ∃ kind tell, perform r = revise kind c filter step r.absent tell ∧
      ∀ old new, (tell old new).matched = 1 ∧
        ∀ u, tell old new = .result u → u.modified = if new == old then 0 else 1 := by
  have counting : ∀ old new : Document, let result : UpdateResult :=
      ⟨1, if new == old then 0 else 1, none⟩
      (Answer.result result).matched = 1 ∧ ∀ u, Answer.result result = .result u →
        u.modified = if new == old then 0 else 1 := by
    refine fun old new => ⟨rfl, fun u hu => ?_⟩
    cases hu
    rfl
  cases r with
  | replaceOne _ _ doc upsert fresh =>
    cases h
    refine ⟨.replace, fun old new => .result ⟨1, if new == old then 0 else 1, none⟩, ?_, counting⟩
    cases upsert <;> exact map_revise Answer.result ..
  | updateOne _ _ update =>
    cases h
    refine ⟨.update, fun old new => .result ⟨1, if new == old then 0 else 1, none⟩, ?_, counting⟩
    exact map_revise Answer.result ..
  | findOneAndUpdate _ _ update version =>
    cases h
    refine ⟨.findAndModify, fun old new => .document (some (version.of old new)), ?_,
      fun old new => ⟨rfl, nofun⟩⟩
    cases version <;> exact map_revise Answer.document ..
  | findOneAndReplace _ _ doc version fresh =>
    cases h
    refine ⟨.findAndModify, fun old new => .document (some (version.of old new)), ?_,
      fun old new => ⟨rfl, nofun⟩⟩
    cases version <;> exact map_revise Answer.document ..
  | _ => cases h

section

variable {step : Document → Except StoreFault Document} {r : Request} {every : Bool}

/-- The call fails and changes nothing, or the first match is rewritten and told of, or
nothing matches and the call goes on without. -/
theorem revise_run {absent : Call α} {tell : Document → Document → α}
    {outcome : Except StoreFault α}
    (h : (revise kind c filter step absent tell).run s = (outcome, t)) :
    (∃ fault, outcome = .error fault ∧ s.Same t) ∨
    (∃ q next, Stored.first? filter (s.entries c) 0 = .ok (some q) ∧ step q.2 = .ok next ∧
      outcome = .ok (tell q.2 next) ∧ Revised s c step [q.1] t) ∨
    (Stored.first? filter (s.entries c) 0 = .ok none ∧ absent.run (s.tick kind) = (outcome, t)) := by
  cases hu : s.unavailable with
  | true =>
    cases (run_refused hu).symm.trans h
    exact .inl ⟨_, rfl, fun _ => rfl⟩
  | false =>
    rw [revise, run_counted hu, run_bind, run_locate, entries_tick] at h
    rcases hfirst : Stored.first? filter (s.entries c) 0 with fault | _ | q
    · rw [hfirst] at h
      cases h
      exact .inl ⟨_, rfl, fun _ => rfl⟩
    · rw [hfirst] at h
      exact .inr (.inr ⟨rfl, h⟩)
    · rw [hfirst] at h
      rcases overwritten_cases h with hfault | ⟨next, entry, hn, he, ha, hchanged⟩
      · exact .inl hfault
      · refine .inr (.inl ⟨q, next, rfl, hn, ha, ?_⟩)
        exact .single (Stored.at_of_first? hfirst) hn he hchanged

/-- Where something matches, its place is rewritten or the call fails; where nothing
does, the call goes on without. -/
theorem revise_cases {absent : Call α} {tell : Document → Document → α}
    {outcome : Except StoreFault α} (hd : s.documents c = .ok docs)
    (h : (revise kind c filter step absent tell).run s = (outcome, t)) :
    (∃ written, written <+: picked filter false docs ∧ Revised s c step written t ∧
      ∀ a, outcome = .ok a → written = picked filter false docs ∧
        written.length = 1 ∧ ∃ old new, a = tell old new) ∨
    (picked filter false docs = [] ∧ absent.run (s.tick kind) = (outcome, t)) := by
  obtain ⟨found, hm⟩ := Stored.exists_matching filter hd
  have hfirst := Stored.first?_of_matching hm
  rw [picked_of_matching hd hm, if_neg Bool.false_ne_true]
  rcases revise_run h with ⟨fault, rfl, hsame⟩ | ⟨q, next, hq, -, rfl, hrevised⟩ | ⟨hnone, h⟩
  · exact .inl ⟨[], List.nil_prefix, .of_same hsame, fun a ha => by cases ha⟩
  · rw [← Except.ok.inj (hq.symm.trans hfirst)]
    refine .inl ⟨[q.1], List.prefix_rfl, hrevised, fun a ha => ⟨rfl, rfl, q.2, next, ?_⟩⟩
    exact (Except.ok.inj ha).symm
  · rw [← Except.ok.inj (hnone.symm.trans hfirst)]
    exact .inr ⟨rfl, h⟩

/-- Where nothing matches, a document is inserted or nothing changes. -/
theorem absent_cases {outcome : Except StoreFault Answer}
    (hr : r.target? = some ⟨c, filter, false, .rewrite step⟩)
    (h : r.absent.run s = (outcome, t)) :
    (s.Same t ∧ ∀ a, outcome = .ok a → a.matched = 0) ∨
    (r.upserts = true ∧ ∃ entry a, outcome = .ok a ∧ a.matched = 0 ∧
      s.Changed c (s.entries c ++ [entry]) t) := by
  cases r with
  | replaceOne _ _ doc upsert fresh =>
    cases hr
    cases upsert with
    | false =>
      cases h
      exact .inl ⟨.refl s, fun a ha => by cases ha; rfl⟩
    | true =>
      rw [Request.absent, run_map, run_bind, run_place, accept_eq] at h
      cases he : Stored.ofDocument (doc.withId none fresh) with
      | error fault =>
        rw [he] at h
        cases h
        exact .inl ⟨.refl s, fun a ha => by cases ha⟩
      | ok entry =>
        rw [he] at h
        cases ht : (s.entries c).any (·.id == entry.id) with
        | true =>
          simp only [ht, if_true] at h
          cases h
          exact .inl ⟨.refl s, fun a ha => by cases ha⟩
        | false =>
          simp only [ht, Bool.false_eq_true, if_false] at h
          cases h
          exact .inr ⟨rfl, entry, _, rfl, rfl, changed_of_setEntries _⟩
  | updateOne _ _ update =>
    cases hr
    cases h
    exact .inl ⟨.refl s, fun a ha => by cases ha; rfl⟩
  | findOneAndUpdate _ _ update version =>
    cases hr
    cases h
    exact .inl ⟨.refl s, fun a ha => by cases ha; rfl⟩
  | findOneAndReplace _ _ doc version fresh =>
    cases hr
    cases h
    exact .inl ⟨.refl s, fun a ha => by cases ha; rfl⟩
  | _ => cases hr

/-- A request that rewrites writes the places it picked, in their order, up to one
that cannot be written, and tells how many they are; or nothing matches, and one
entry is added. -/
theorem perform_revised {outcome : Except StoreFault Answer}
    (hr : r.target? = some ⟨c, filter, every, .rewrite step⟩) (hd : s.documents c = .ok docs)
    (h : (perform r).run s = (outcome, t)) :
    (∃ written, written <+: picked filter every docs ∧ Revised s c step written t ∧
      ∀ a, outcome = .ok a → written = picked filter every docs ∧ a.matched = written.length) ∨
    (r.upserts = true ∧ picked filter every docs = [] ∧
      ∃ entry a, outcome = .ok a ∧ a.matched = 0 ∧ s.Changed c (s.entries c ++ [entry]) t) := by
  cases every with
  | false =>
    obtain ⟨kind, tell, hperform, htell⟩ := perform_eq_revise hr
    rw [hperform] at h
    rcases revise_cases hd h with ⟨written, hpre, hrevised, hok⟩ | ⟨hnone, h⟩
    · refine .inl ⟨written, hpre, hrevised, fun a ha => ?_⟩
      obtain ⟨hall, hone, old, new, rfl⟩ := hok a ha
      exact ⟨hall, (htell old new).1.trans hone.symm⟩
    · rcases absent_cases hr h with ⟨hsame, hok⟩ | ⟨hu, entry, a, ha, hmatched, hchanged⟩
      · refine .inl ⟨[], List.nil_prefix, .of_tick (.of_same hsame), fun a ha => ?_⟩
        exact ⟨hnone.symm, hok a ha⟩
      · exact .inr ⟨hu, hnone, entry, a, ha, hmatched, hchanged.here, hchanged.elsewhere⟩
  | true =>
    cases r with
    | updateMany _ _ update =>
      cases hr
      refine .inl ?_
      rw [perform, run_map] at h
      obtain ⟨hok, rfl⟩ := Prod.mk.inj h
      rcases updateMany_run (Prod.eta _).symm with ⟨fault, hfault, hsame⟩ | ⟨found, hm, hrun⟩
      · rw [hfault] at hok
        cases hok
        exact ⟨[], List.nil_prefix, .of_same hsame, fun a ha => by cases ha⟩
      · rw [picked_of_matching hd hm]
        obtain ⟨hrevised, hall⟩ := updateAll_revised (s := s.tick .update)
          (fun q hq => Stored.at_of_matching hm hq) (Stored.matching_ok hm).2 hrun
        refine ⟨_, (List.takeWhile_prefix _).map _, .of_tick hrevised, fun a ha => ?_⟩
        rw [← hok] at ha
        obtain ⟨result, hresult, rfl⟩ := ok_of_map ha
        obtain ⟨hplaces, hmatched⟩ := hall result hresult
        rw [hplaces]
        refine ⟨rfl, ?_⟩
        show result.matched = (found.map (·.1)).length
        rw [hmatched, List.length_map]
        exact Nat.zero_add _
    | _ => cases hr

end

end Store
end Folio
