import Mathlib.Logic.Relation
import Folio.Proofs.Run
import Folio.Store.Calls

/-!
# Runs of a store

All that can be asked of a store, and what a run of requests may do to a
collection. Whatever is asked, and whether it succeeds or fails, the entries of
a collection change by edits of three kinds: a new entry whose id is not taken,
a document in the place of another one with the same id, and entries taken out.

Results:
* `perform_edits`: every request comes to such edits.
* `run_edits`: so does every run.
-/
namespace Folio

namespace Store

/-! ## The parts of a call -/

/-- The store after a call is counted. -/
def tick (store : Store) (kind : CallKind) : Store := { store with calls := store.calls.tick kind }

@[simp] theorem entries_tick (store : Store) (kind : CallKind) (c : String) :
    (store.tick kind).entries c = store.entries c := rfl

theorem run_begin (kind : CallKind) (c : String) (store : Store) :
    (begin kind c).run store =
      if store.unavailable then (.error (.unavailable c), store.tick kind)
      else (.ok (), store.tick kind) := by
  simp only [begin, run_bind, run_modify, run_get, tick]
  by_cases h : store.unavailable = true
  · rw [if_pos h, if_pos h]
    rfl
  · rw [if_neg h, if_neg h]
    rfl

@[simp] theorem run_locate (c : String) (filter : Filter) (store : Store) :
    (locate c filter).run store = (Stored.first? filter (store.entries c) 0, store) := by
  simp only [locate, run_bind, run_get, run_lift]

@[simp] theorem run_locateAll (c : String) (filter : Filter) (store : Store) :
    (locateAll c filter).run store = (Stored.matching filter (store.entries c) 0, store) := by
  simp only [locateAll, run_bind, run_get, run_lift]

@[simp] theorem run_evict (c : String) (i : Nat) (store : Store) :
    (evict c i).run store = (.ok (), store.setEntries c ((store.entries c).eraseIdx i)) := rfl

theorem run_overwrite (c : String) (i : Nat) (doc : Document) (store : Store) :
    (overwrite c i doc).run store =
      match Stored.ofDocument doc with
      | .ok entry => (.ok (), store.setEntries c ((store.entries c).set i entry))
      | .error fault => (.error fault, store) := by
  simp only [overwrite, run_bind, run_lift]
  cases Stored.ofDocument doc <;> rfl

theorem accept_eq (c : String) (entries : List Stored) (doc : Document) (fresh : ObjectId) :
    accept c entries doc fresh =
      match Stored.ofDocument (doc.withId none fresh) with
      | .ok entry =>
        if entries.any (·.id == entry.id) then .error (.duplicateKey c entry.id.written)
        else .ok (entries ++ [entry], entry.id)
      | .error fault => .error fault := by
  unfold accept
  cases Stored.ofDocument (doc.withId none fresh) with
  | error fault => rfl
  | ok entry =>
    simp only [bind, Except.bind]
    split <;> rfl

theorem run_place (c : String) (doc : Document) (fresh : ObjectId) (store : Store) :
    (place c doc fresh).run store =
      match accept c (store.entries c) doc fresh with
      | .ok (entries, id) => (.ok id, store.setEntries c entries)
      | .error fault => (.error fault, store) := by
  simp only [place, run_bind, run_get, run_lift]
  cases accept c (store.entries c) doc fresh <;> rfl

/-! ## Requests -/

/-- The answer to a request. -/
inductive Answer where
  | none
  | id (id : Value)
  | ids (ids : List Value)
  | values (values : List Value)
  | documents (docs : List Document)
  | document (doc : Option Document)
  | number (n : Nat)
  | result (result : UpdateResult)

/-- What can be asked of a store. Ids that it makes itself are given with the
request. -/
inductive Request where
  | insertOne (collection : String) (doc : Document) (fresh : ObjectId)
  | insertMany (collection : String) (docs : List Document) (fresh : Nat → ObjectId)
  | find (collection : String) (filter : Filter) (options : FindOptions)
  | count (collection : String) (filter : Filter)
  | distinct (collection field : String) (filter : Filter)
  | aggregate (collection : String) (stages : List Stage)
  | replaceOne (collection : String) (filter : Filter) (doc : Document) (upsert : Bool)
      (fresh : ObjectId)
  | updateOne (collection : String) (filter : Filter) (update : Update)
  | updateMany (collection : String) (filter : Filter) (update : Update)
  | findOneAndUpdate (collection : String) (filter : Filter) (update : Update) (version : Version)
  | findOneAndReplace (collection : String) (filter : Filter) (doc : Document) (version : Version)
      (fresh : ObjectId)
  | findOneAndDelete (collection : String) (filter : Filter)
  | deleteOne (collection : String) (filter : Filter)
  | deleteMany (collection : String) (filter : Filter)
  /-- Makes the store unreachable, or reachable again. -/
  | setUnavailable (unavailable : Bool)

/-- Performs a request. -/
def perform : Request → Call Answer
  | .insertOne c doc fresh => .id <$> insertOne c doc fresh
  | .insertMany c docs fresh => .ids <$> insertMany c docs fresh
  | .find c filter options => .documents <$> find c filter options
  | .count c filter => .number <$> count c filter
  | .distinct c field filter => .values <$> distinct c field filter
  | .aggregate c stages => .documents <$> aggregate c stages
  | .replaceOne c filter doc upsert fresh => .result <$> replaceOne c filter doc upsert fresh
  | .updateOne c filter update => .result <$> updateOne c filter update
  | .updateMany c filter update => .result <$> updateMany c filter update
  | .findOneAndUpdate c filter update version =>
    .document <$> findOneAndUpdate c filter update version
  | .findOneAndReplace c filter doc version fresh =>
    .document <$> findOneAndReplace c filter doc version fresh
  | .findOneAndDelete c filter => .document <$> findOneAndDelete c filter
  | .deleteOne c filter => .number <$> deleteOne c filter
  | .deleteMany c filter => .number <$> deleteMany c filter
  | .setUnavailable unavailable =>
    (fun _ => .none) <$> modify fun store => { store with unavailable }

/-- The store after requests, each of which may succeed or fail. -/
def after (store : Store) : List Request → Store
  | [] => store
  | r :: rest => after ((perform r).run store).2 rest

/-- The ids of the documents that a request may insert. -/
def Request.ids : Request → List Value
  | insertOne _ doc _ => (doc.get? idField).toList
  | insertMany _ docs _ => docs.filterMap (·.get? idField)
  | replaceOne _ _ doc upsert _ => if upsert then (doc.get? idField).toList else []
  | _ => []

/-! ## Edits -/

end Store

/-- The document stands at a place among the entries. -/
def Stored.At (entries : List Stored) (i : Nat) (doc : Document) : Prop :=
  ∃ e, entries[i]? = some e ∧ e.document = .ok doc

namespace Stored

theorem first?_some {filter : Filter} {entries : List Stored} {k i : Nat} {doc : Document}
    (h : first? filter entries k = .ok (some (i, doc))) :
    ∃ j, i = k + j ∧ At entries j doc ∧ filter.matchesDoc doc = true := by
  induction entries generalizing k with
  | nil => cases h
  | cons e rest ih =>
    obtain ⟨d, hd, h⟩ := ok_of_bind h
    by_cases hm : filter.matchesDoc d = true
    · simp only [hm, if_true] at h
      cases h
      exact ⟨0, rfl, ⟨e, rfl, hd⟩, hm⟩
    · simp only [hm] at h
      obtain ⟨j, hj, hat, hm⟩ := ih h
      exact ⟨j + 1, by omega, hat, hm⟩

theorem matching_ok {filter : Filter} {entries : List Stored} {k : Nat}
    {found : List (Nat × Document)} (h : matching filter entries k = .ok found) :
    (∀ p ∈ found, ∃ j, p.1 = k + j ∧ At entries j p.2) ∧ found.Pairwise fun p q => p.1 < q.1 := by
  induction entries generalizing k found with
  | nil => cases h; exact ⟨nofun, .nil⟩
  | cons e rest ih =>
    obtain ⟨d, hd, h⟩ := ok_of_bind h
    obtain ⟨others, hr, h⟩ := ok_of_bind h
    obtain ⟨hat, hlt⟩ := ih hr
    have later : ∀ p ∈ others, ∃ j, p.1 = k + j ∧ At (e :: rest) j p.2 ∧ 0 < j := by
      intro p hp
      obtain ⟨j, hj, ha⟩ := hat p hp
      exact ⟨j + 1, by omega, ha, by omega⟩
    cases h
    split
    · refine ⟨?_, List.pairwise_cons.2 ⟨?_, hlt⟩⟩
      · intro p hp
        rcases List.mem_cons.1 hp with rfl | hp
        · exact ⟨0, rfl, e, rfl, hd⟩
        · obtain ⟨j, hj, ha, -⟩ := later p hp
          exact ⟨j, hj, ha⟩
      · intro p hp
        obtain ⟨j, hj, -, h0⟩ := later p hp
        show k < p.1
        omega
    · refine ⟨?_, hlt⟩
      intro p hp
      obtain ⟨j, hj, ha, -⟩ := later p hp
      exact ⟨j, hj, ha⟩

theorem at_of_matching {filter : Filter} {entries : List Stored} {found : List (Nat × Document)}
    (h : matching filter entries 0 = .ok found) {p : Nat × Document} (hp : p ∈ found) :
    At entries p.1 p.2 := by
  obtain ⟨j, hj, hat⟩ := (matching_ok h).1 p hp
  rwa [hj, Nat.zero_add]

theorem at_of_first? {filter : Filter} {entries : List Stored} {p : Nat × Document}
    (h : first? filter entries 0 = .ok (some p)) : At entries p.1 p.2 := by
  obtain ⟨j, hj, hat, -⟩ := first?_some h
  rwa [hj, Nat.zero_add]

theorem first?_cons {filter : Filter} {e : Stored} {entries : List Stored} {k : Nat} {doc : Document}
    (he : e.document = .ok doc) : first? filter (e :: entries) k =
      if filter.matchesDoc doc then .ok (some (k, doc)) else first? filter entries (k + 1) := by
  rw [first?, he]
  rfl

theorem matching_cons {filter : Filter} {e : Stored} {entries : List Stored} {k : Nat}
    {doc : Document} (he : e.document = .ok doc) :
    matching filter (e :: entries) k = (matching filter entries (k + 1)).map fun found =>
      if filter.matchesDoc doc then (k, doc) :: found else found := by
  rw [matching, he]
  cases matching filter entries (k + 1) <;> rfl

/-- A search reads everything, and goes through the documents. -/
theorem map_matching (filter : Filter) (entries : List Stored) (k : Nat) :
    (matching filter entries k).map (List.map (·.2)) =
      (documents entries).map (List.filter (filter.matchesDoc ·)) := by
  induction entries generalizing k with
  | nil => rfl
  | cons e rest ih =>
    rw [documents, List.mapM_cons]
    cases he : e.document with
    | error fault =>
      rw [matching, he]
      rfl
    | ok doc =>
      have hrest := ih (k + 1)
      rw [documents] at hrest
      rw [matching_cons he]
      rcases hm : matching filter rest (k + 1) with fault | found <;>
        rcases hd : List.mapM document rest with fault' | docs <;> rw [hm, hd] at hrest
      · exact hrest
      · cases hrest
      · cases hrest
      · have hfound : found.map (·.2) = docs.filter (filter.matchesDoc ·) := Except.ok.inj hrest
        show Except.ok _ = Except.ok _
        rw [List.filter_cons, ← hfound]
        split <;> rfl

theorem At.set_ne {entries : List Stored} {i j : Nat} {doc : Document} (h : At entries j doc)
    (hne : i ≠ j) (entry : Stored) : At (entries.set i entry) j doc := by
  obtain ⟨e, he, hd⟩ := h
  exact ⟨e, by rw [List.getElem?_set_ne hne, he], hd⟩

end Stored

namespace Store

/-- What may happen to the entries of a collection in one go. `may` has the ids
that inserted documents bring along. -/
inductive Edit (may : Value → Prop) : List Stored → List Stored → Prop
  | append {entries : List Stored} {doc : Document} {fresh : ObjectId} {entry : Stored} :
    (∀ id, doc.get? idField = some id → may id) →
    Stored.ofDocument (doc.withId none fresh) = .ok entry →
    entries.any (·.id == entry.id) = false → Edit may entries (entries ++ [entry])
  | overwrite {entries : List Stored} {i : Nat} {doc next : Document} {entry : Stored} :
    Stored.At entries i doc →
    (∀ id, doc.get? idField = some id → next.get? idField = some id) →
    Stored.ofDocument next = .ok entry → Edit may entries (entries.set i entry)
  | remove {entries others : List Stored} : others.Sublist entries → Edit may entries others

theorem Edit.mono {may might : Value → Prop} (h : ∀ id, may id → might id)
    {entries others : List Stored} (he : Edit may entries others) : Edit might entries others := by
  cases he with
  | append hd he ht => exact .append (fun id hid => h id (hd id hid)) he ht
  | overwrite ha hn he => exact .overwrite ha hn he
  | remove hs => exact .remove hs

/-- The entries of every collection changed by edits alone. -/
def Edited (may : Value → Prop) (s t : Store) : Prop :=
  ∀ c, Relation.ReflTransGen (Edit may) (s.entries c) (t.entries c)

namespace Edited

variable {may : Value → Prop} {α β : Type}

theorem refl (s : Store) : Edited may s s := fun _ => .refl

theorem trans {s t u : Store} (h : Edited may s t) (k : Edited may t u) : Edited may s u :=
  fun c => (h c).trans (k c)

theorem mono {might : Value → Prop} {s t : Store} (h : ∀ id, may id → might id)
    (he : Edited may s t) : Edited might s t :=
  fun c => (he c).lift id fun _ _ => Edit.mono h

theorem setEntries {s : Store} {c : String} {entries : List Stored}
    (h : Edit may (s.entries c) entries) : Edited may s (s.setEntries c entries) := by
  intro name
  rw [entries_setEntries]
  by_cases hc : name = c
  · rw [if_pos hc, hc]
    exact .single h
  · rw [if_neg hc]

theorem bind {x : Call α} {f : α → Call β} {s : Store} (hx : Edited may s (x.run s).2)
    (hf : ∀ a t, x.run s = (.ok a, t) → Edited may t ((f a).run t).2) :
    Edited may s ((x >>= f).run s).2 := by
  rw [run_bind]
  rcases hr : x.run s with ⟨e | a, t⟩
  · rwa [hr] at hx
  · rw [hr] at hx
    exact hx.trans (hf a t hr)

theorem map {x : Call α} {s : Store} (h : Edited may s (x.run s).2) (f : α → β) :
    Edited may s ((f <$> x).run s).2 := by
  rw [run_map]
  exact h

theorem begin {kind : CallKind} {c : String} {x : Call α} {s : Store}
    (h : Edited may (s.tick kind) (x.run (s.tick kind)).2) :
    Edited may s ((begin kind c >>= fun _ => x).run s).2 := by
  rw [run_bind, run_begin]
  by_cases hu : s.unavailable = true
  · rw [if_pos hu]
    exact refl s
  · rw [if_neg hu]
    exact h

end Edited

/-! ## What calls do -/

section

variable {may : Value → Prop} {c : String} {s : Store}

theorem place_edits {doc : Document} (fresh : ObjectId)
    (hd : ∀ id, doc.get? idField = some id → may id) :
    Edited may s ((place c doc fresh).run s).2 := by
  rw [run_place, accept_eq]
  cases he : Stored.ofDocument (doc.withId none fresh) with
  | error fault => exact .refl s
  | ok entry =>
    cases ht : (s.entries c).any (·.id == entry.id) with
    | true => simpa only [ht, if_true] using .refl s
    | false => simpa only [ht, Bool.false_eq_true, if_false] using .setEntries (.append hd he ht)

theorem placeAll_edits {docs : List Document} (fresh : Nat → ObjectId)
    (hd : ∀ doc ∈ docs, ∀ id, doc.get? idField = some id → may id) :
    Edited may s ((placeAll c fresh docs).run s).2 := by
  induction docs generalizing s fresh with
  | nil => exact .refl s
  | cons doc rest ih =>
    refine .bind (place_edits _ (hd doc List.mem_cons_self)) ?_
    intro id t _
    refine .bind (ih _ fun d hm => hd d (List.mem_cons_of_mem doc hm)) ?_
    intro ids t _
    exact .refl t

theorem overwrite_edits {i : Nat} {doc next : Document} (ha : Stored.At (s.entries c) i doc)
    (hn : ∀ id, doc.get? idField = some id → next.get? idField = some id) :
    Edited may s ((overwrite c i next).run s).2 := by
  rw [run_overwrite]
  cases he : Stored.ofDocument next with
  | error fault => exact .refl s
  | ok entry => exact .setEntries (.overwrite ha hn he)

theorem evict_edits (i : Nat) : Edited may s ((evict c i).run s).2 :=
  .setEntries (.remove (List.eraseIdx_sublist _ i))

/-- A change keeps the id of the document. -/
theorem id_updated {update : Update} {doc next : Document} (h : updated update doc = .ok next) :
    next.get? idField = doc.get? idField := by
  have hr := update.id_run doc
  unfold updated Update.apply at h
  split at h
  · next after ha =>
    cases h
    rwa [ha] at hr
  · cases h

theorem id_withId (doc : Document) (id : Option Value) (fresh : ObjectId) :
    (doc.withId id fresh).get? idField =
      some ((id.orElse fun _ => doc.get? idField).getD (.objectId fresh)) := by
  rw [Document.withId, Document.get?, Document.lookup, if_pos rfl]

/-- The other fields stay as they are. -/
theorem get?_withId {doc : Document} {id : Option Value} {fresh : ObjectId} {k : String}
    (hk : k ≠ idField) : (doc.withId id fresh).get? k = doc.get? k := by
  obtain ⟨fields⟩ := doc
  rw [Document.withId, Document.get?, Document.lookup, if_neg (Ne.symm hk)]
  show Document.lookup k (fields.filter _) = Document.lookup k fields
  induction fields with
  | nil => rfl
  | cons f rest ih =>
    obtain ⟨l, v⟩ := f
    by_cases hl : l = idField
    · rw [List.filter_cons_of_neg (by simpa using hl), ih, Document.lookup,
        if_neg (fun heq => hk (heq.symm.trans hl))]
    · rw [List.filter_cons_of_pos (by simpa using hl), Document.lookup, Document.lookup, ih]

/-- A replacement has the id of what it replaces. -/
theorem id_replacement {existing doc next : Document} {fresh : ObjectId}
    (h : replacement existing doc fresh = .ok next) {id : Value}
    (he : existing.get? idField = some id) : next.get? idField = some id := by
  rw [replacement, he] at h
  split at h
  · next new old _ ho =>
    cases ho
    split at h
    · cases h
    · cases h
      rw [id_withId]
      rfl
  · cases h
    rw [id_withId]
    rfl

/-- A replacement has the other fields that it is given. -/
theorem get?_replacement {existing doc next : Document} {fresh : ObjectId}
    (h : replacement existing doc fresh = .ok next) {k : String} (hk : k ≠ idField) :
    next.get? k = doc.get? k := by
  rw [replacement] at h
  split at h
  · split at h
    · cases h
    · cases h
      exact get?_withId hk
  · cases h
    exact get?_withId hk

/-- The first match is found, and something follows that may go on from it. -/
theorem locate_edits {α : Type} {filter : Filter} {f : Option (Nat × Document) → Call α}
    (hnone : Edited may s ((f none).run s).2)
    (hsome : ∀ i doc, Stored.At (s.entries c) i doc → Edited may s ((f (some (i, doc))).run s).2) :
    Edited may s ((locate c filter >>= f).run s).2 := by
  refine .bind (by rw [run_locate]; exact .refl s) ?_
  intro found t h
  rw [run_locate] at h
  obtain ⟨hf, rfl⟩ := Prod.mk.inj h
  cases found with
  | none => exact hnone
  | some p =>
    obtain ⟨j, hj, ha, -⟩ := Stored.first?_some hf
    rw [Nat.zero_add] at hj
    exact hsome p.1 p.2 (hj ▸ ha)

/-- A step that may fail and leaves the store alone. -/
theorem lift_edits {α β : Type} {x : Except StoreFault α} {f : α → Call β}
    (h : ∀ a, x = .ok a → Edited may s ((f a).run s).2) :
    Edited may s ((liftM x >>= f).run s).2 := by
  rw [run_bind, run_lift]
  cases x with
  | error fault => exact .refl s
  | ok a => exact h a rfl

/-- Each match is updated where it was found, as no other update reaches it. -/
theorem updateAll_edits {update : Update} {found : List (Nat × Document)} (result : UpdateResult)
    (ha : ∀ p ∈ found, Stored.At (s.entries c) p.1 p.2) (hp : found.Pairwise fun p q => p.1 < q.1) :
    Edited may s ((updateAll c update found result).run s).2 := by
  induction found generalizing s result with
  | nil => exact .refl s
  | cons p rest ih =>
    obtain ⟨i, doc⟩ := p
    obtain ⟨hlt, hp⟩ := List.pairwise_cons.1 hp
    refine lift_edits ?_
    intro next hn
    refine .bind (overwrite_edits (ha (i, doc) List.mem_cons_self) ?_) ?_
    · rw [id_updated hn]
      exact fun _ h => h
    · intro _ t ht
      rw [run_overwrite] at ht
      split at ht
      · obtain ⟨-, rfl⟩ := Prod.mk.inj ht
        refine ih _ ?_ hp
        intro q hq
        rw [entries_setEntries, if_pos rfl]
        exact (ha q (List.mem_cons_of_mem _ hq)).set_ne (Nat.ne_of_lt (hlt q hq)) _
      · cases (Prod.mk.inj ht).1

theorem without_sublist (places : List Nat) (entries : List Stored) :
    (without places entries).Sublist entries := by
  have := (List.filter_sublist (p := fun e => !places.contains e.2)
    (l := entries.zipIdx)).map (·.1)
  rwa [List.zipIdx_map_fst] at this

end

/-- Every request comes to edits, also when it fails on the way. -/
theorem perform_edits (r : Request) (s : Store) :
    Edited (· ∈ r.ids) s ((perform r).run s).2 := by
  cases r with
  | insertOne c doc fresh =>
    refine .map (.begin (place_edits fresh ?_)) _
    intro id h
    simp [Request.ids, h]
  | insertMany c docs fresh =>
    refine .map (.begin (placeAll_edits fresh ?_)) _
    intro doc hd id h
    exact List.mem_filterMap.2 ⟨doc, hd, h⟩
  | find c filter options =>
    refine .map (.begin (.bind (by rw [run_locateAll]; exact .refl _) ?_)) _
    exact fun _ t _ => .refl t
  | count c filter =>
    refine .map (.begin (.bind (by rw [run_locateAll]; exact .refl _) ?_)) _
    exact fun _ t _ => .refl t
  | distinct c field filter =>
    refine .map (.begin (.bind (by rw [run_locateAll]; exact .refl _) ?_)) _
    exact fun _ t _ => .refl t
  | aggregate c stages =>
    refine .map (.begin (.bind (.refl _) ?_)) _
    intro _ t _
    exact lift_edits fun _ _ => .refl t
  | replaceOne c filter doc upsert fresh =>
    refine .map (.begin (locate_edits ?_ ?_)) _
    · cases upsert with
      | false => exact .refl _
      | true =>
        refine .bind (place_edits fresh ?_) fun _ t _ => .refl t
        intro id h
        simp [Request.ids, h]
    · intro i existing ha
      refine lift_edits ?_
      intro next hn
      refine .bind (overwrite_edits ha fun _ => id_replacement hn) ?_
      exact fun _ t _ => .refl t
  | updateOne c filter update =>
    refine .map (.begin (locate_edits (.refl _) ?_)) _
    intro i doc ha
    refine lift_edits ?_
    intro next hn
    refine .bind (overwrite_edits ha ?_) fun _ t _ => .refl t
    rw [id_updated hn]
    exact fun _ h => h
  | updateMany c filter update =>
    refine .map (.begin (.bind (by rw [run_locateAll]; exact .refl _) ?_)) _
    intro found t h
    rw [run_locateAll] at h
    obtain ⟨hf, rfl⟩ := Prod.mk.inj h
    obtain ⟨ha, hp⟩ := Stored.matching_ok hf
    refine updateAll_edits _ ?_ hp
    intro p hm
    obtain ⟨j, hj, ha⟩ := ha p hm
    rw [Nat.zero_add] at hj
    exact hj ▸ ha
  | findOneAndUpdate c filter update version =>
    refine .map (.begin (locate_edits (.refl _) ?_)) _
    intro i doc ha
    refine lift_edits ?_
    intro next hn
    refine .bind (overwrite_edits ha ?_) fun _ t _ => .refl t
    rw [id_updated hn]
    exact fun _ h => h
  | findOneAndReplace c filter doc version fresh =>
    refine .map (.begin (locate_edits (.refl _) ?_)) _
    intro i existing ha
    refine lift_edits ?_
    intro next hn
    exact .bind (overwrite_edits ha fun _ => id_replacement hn) fun _ t _ => .refl t
  | findOneAndDelete c filter =>
    refine .map (.begin (locate_edits (.refl _) ?_)) _
    exact fun i doc _ => .bind (evict_edits i) fun _ t _ => .refl t
  | deleteOne c filter =>
    refine .map (.begin (locate_edits (.refl _) ?_)) _
    exact fun i doc _ => .bind (evict_edits i) fun _ t _ => .refl t
  | deleteMany c filter =>
    refine .map (.begin (.bind (by rw [run_locateAll]; exact .refl _) ?_)) _
    intro found t _
    refine .bind ?_ fun _ t _ => .refl t
    rw [run_modify]
    exact .setEntries (.remove (without_sublist _ _))
  | setUnavailable unavailable => exact .map (fun _ => .refl) _

/-- So does every run. -/
theorem run_edits (requests : List Request) (s : Store) :
    Edited (fun id => ∃ r ∈ requests, id ∈ r.ids) s (s.after requests) := by
  induction requests generalizing s with
  | nil => exact .refl s
  | cons r rest ih =>
    refine .trans ((perform_edits r s).mono ?_) ((ih _).mono ?_)
    · exact fun id h => ⟨r, List.mem_cons_self, h⟩
    · rintro id ⟨q, hq, h⟩
      exact ⟨q, List.mem_cons_of_mem r hq, h⟩

end Store
end Folio
