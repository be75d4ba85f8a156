import Folio.Proofs.Store.Requests

/-!
# Changes of one document

What a call that inserts, replaces, updates or deletes one document comes to:
either it fails, or finds nothing, and no document is another than before; or
one entry is added at the end, takes the place of one that matched, or is taken
out.

Results:
* `insertOne_cases`, `replaceOne_cases`, `findOneAndUpdate_cases`,
  `findOneAndDelete_cases`: the outcomes of the calls.
* `place_of_id`: what an id matches is the document with the id.
-/
namespace Folio

variable {c : String} {doc : Document} {fresh : ObjectId} {s t : Store}

namespace Store

/-- The stores hold the same entries. -/
def Same (s t : Store) : Prop := ∀ c, t.entries c = s.entries c

@[simp] theorem Same.refl (s : Store) : s.Same s := fun _ => rfl

theorem Same.trans {s t u : Store} (h : s.Same t) (h' : t.Same u) : s.Same u :=
  fun c => (h' c).trans (h c)

theorem Same.documents (h : s.Same t) (c : String) : t.documents c = s.documents c :=
  congrArg Stored.documents (h c)

/-- The store differs in one collection only, which has the entries. -/
structure Changed (s : Store) (c : String) (entries : List Stored) (t : Store) : Prop where
  here : t.entries c = entries
  elsewhere : ∀ name, name ≠ c → t.entries name = s.entries name

/-- What stays the same before and after does not matter. -/
theorem Changed.within {entries : List Stored} (h : s.Changed c entries t) {s' t' : Store}
    (hs : s'.Same s) (ht : t.Same t') : s'.Changed c entries t' :=
  ⟨(ht c).trans h.here, fun name hne =>
    (ht name).trans ((h.elsewhere name hne).trans (hs name))⟩

theorem changed_of_setEntries (entries : List Stored) : s.Changed c entries (s.setEntries c entries) := by
  constructor
  · rw [entries_setEntries, if_pos rfl]
  · intro name hne
    rw [entries_setEntries, if_neg hne]

theorem changed_setEntries (kind : CallKind) (entries : List Stored) :
    s.Changed c entries ((s.tick kind).setEntries c entries) :=
  (changed_of_setEntries entries).within (s := s.tick kind) (fun _ => rfl) fun _ => rfl

/-- An insertion fails and changes nothing, or adds one entry under an id that is
not there. -/
theorem insertOne_cases {result : Except StoreFault Value}
    (h : (insertOne c doc fresh).run s = (result, t)) :
    (∃ fault, result = .error fault ∧ s.Same t) ∨
    ∃ entry, result = .ok entry.id ∧ Stored.ofDocument (doc.withId none fresh) = .ok entry ∧
      (s.entries c).any (·.id == entry.id) = false ∧ s.Changed c (s.entries c ++ [entry]) t := by
  rw [insertOne, run_bind, run_begin] at h
  by_cases hu : s.unavailable = true
  · rw [if_pos hu] at h
    cases h
    exact .inl ⟨_, rfl, fun _ => rfl⟩
  · rw [if_neg hu] at h
    simp only [run_place, accept_eq, entries_tick] at h
    cases he : Stored.ofDocument (doc.withId none fresh) with
    | error fault =>
      simp only [he] at h
      cases h
      exact .inl ⟨fault, rfl, fun _ => rfl⟩
    | ok entry =>
      cases ht : (s.entries c).any (·.id == entry.id) with
      | true =>
        simp only [he, ht, if_true] at h
        cases h
        exact .inl ⟨_, rfl, fun _ => rfl⟩
      | false =>
        simp only [he, ht, Bool.false_eq_true, if_false] at h
        cases h
        exact .inr ⟨entry, rfl, rfl, ht, changed_setEntries _ _⟩

/-- A call that begins with a search fails there and changes nothing, or goes on
with what was found. -/
theorem locate_cases {α : Type} {kind : CallKind} {filter : Filter}
    {f : Option (Nat × Document) → Call α} {result : Except StoreFault α}
    (h : (begin kind c >>= fun _ => locate c filter >>= f).run s = (result, t)) :
    (∃ fault, result = .error fault ∧ s.Same t) ∨ (f none).run (s.tick kind) = (result, t) ∨
    ∃ i doc, Stored.At (s.entries c) i doc ∧ filter.matchesDoc doc = true ∧
      (f (some (i, doc))).run (s.tick kind) = (result, t) := by
  rw [run_bind, run_begin] at h
  by_cases hu : s.unavailable = true
  · rw [if_pos hu] at h
    cases h
    exact .inl ⟨_, rfl, fun _ => rfl⟩
  rw [if_neg hu] at h
  simp only [run_bind, run_locate, entries_tick] at h
  cases hl : Stored.first? filter (s.entries c) 0 with
  | error fault =>
    simp only [hl] at h
    cases h
    exact .inl ⟨fault, rfl, fun _ => rfl⟩
  | ok found =>
    simp only [hl] at h
    cases found with
    | none => exact .inr (.inl h)
    | some p =>
      obtain ⟨j, hj, hat, hm⟩ := Stored.first?_some hl
      rw [Nat.zero_add] at hj
      exact .inr (.inr ⟨p.1, p.2, hj ▸ hat, hm, h⟩)

/-- Another document is written in the place of one, if it can be. -/
theorem overwritten_cases {α : Type} {kind : CallKind} {i : Nat}
    {step : Except StoreFault Document} {answer : Document → α} {result : Except StoreFault α}
    (h : (do
      let next ← step
      overwrite c i next
      return answer next : Call α).run (s.tick kind) = (result, t)) :
    (∃ fault, result = .error fault ∧ s.Same t) ∨
    ∃ next entry, step = .ok next ∧ Stored.ofDocument next = .ok entry ∧
      result = .ok (answer next) ∧ s.Changed c ((s.entries c).set i entry) t := by
  rw [run_bind, run_lift] at h
  cases step with
  | error fault =>
    cases h
    exact .inl ⟨fault, rfl, fun _ => rfl⟩
  | ok next =>
    simp only [run_bind, run_overwrite] at h
    cases he : Stored.ofDocument next with
    | error fault =>
      simp only [he] at h
      cases h
      exact .inl ⟨fault, rfl, fun _ => rfl⟩
    | ok entry =>
      simp only [he] at h
      cases h
      exact .inr ⟨next, entry, rfl, he, rfl, changed_setEntries _ _⟩

/-- A replacement fails or finds nothing and changes nothing, or puts one entry
in the place of another. -/
theorem replaceOne_cases {filter : Filter} {result : Except StoreFault UpdateResult}
    (h : (replaceOne c filter doc false fresh).run s = (result, t)) :
    (∃ fault, result = .error fault ∧ s.Same t) ∨
    (∃ u, result = .ok u ∧ u.matched = 0 ∧ s.Same t) ∨
    ∃ u i existing next entry, result = .ok u ∧ u.matched = 1 ∧
      Stored.At (s.entries c) i existing ∧ filter.matchesDoc existing = true ∧
      replacement existing doc fresh = .ok next ∧ Stored.ofDocument next = .ok entry ∧
      s.Changed c ((s.entries c).set i entry) t := by
  rcases locate_cases h with hfault | hnone | ⟨i, existing, hat, hm, h⟩
  · exact .inl hfault
  · cases hnone
    exact .inr (.inl ⟨{}, rfl, rfl, fun _ => rfl⟩)
  · rcases overwritten_cases h with hfault | ⟨next, entry, hn, he, rfl, hchanged⟩
    · exact .inl hfault
    · exact .inr (.inr ⟨_, i, existing, next, entry, rfl, rfl, hat, hm, hn, he, hchanged⟩)

/-- An update of one document fails or finds nothing and changes nothing, or puts
one entry in the place of another. -/
theorem findOneAndUpdate_cases {filter : Filter} {update : Update} {version : Version}
    {result : Except StoreFault (Option Document)} :
    (findOneAndUpdate c filter update version).run s = (result, t) →
    (∃ fault, result = .error fault ∧ s.Same t) ∨ (result = .ok none ∧ s.Same t) ∨
    ∃ i before after entry, Stored.At (s.entries c) i before ∧ filter.matchesDoc before = true ∧
      updated update before = .ok after ∧ Stored.ofDocument after = .ok entry ∧
      result = .ok (some (match version with | .before => before | .after => after)) ∧
      s.Changed c ((s.entries c).set i entry) t := by
  intro h
  rcases locate_cases h with hfault | hnone | ⟨i, before, hat, hm, h⟩
  · exact .inl hfault
  · cases hnone
    exact .inr (.inl ⟨rfl, fun _ => rfl⟩)
  · rcases overwritten_cases h with hfault | ⟨after, entry, hn, he, rfl, hchanged⟩
    · exact .inl hfault
    · exact .inr (.inr ⟨i, before, after, entry, hat, hm, hn, he, rfl, hchanged⟩)

/-- A deletion fails or finds nothing and changes nothing, or takes one entry
out. -/
theorem findOneAndDelete_cases {filter : Filter} {result : Except StoreFault (Option Document)}
    (h : (findOneAndDelete c filter).run s = (result, t)) :
    (∃ fault, result = .error fault ∧ s.Same t) ∨ (result = .ok none ∧ s.Same t) ∨
    ∃ i existing, Stored.At (s.entries c) i existing ∧ filter.matchesDoc existing = true ∧
      result = .ok (some existing) ∧ s.Changed c ((s.entries c).eraseIdx i) t := by
  rcases locate_cases h with hfault | hnone | ⟨i, existing, hat, hm, h⟩
  · exact .inl hfault
  · cases hnone
    exact .inr (.inl ⟨rfl, fun _ => rfl⟩)
  · cases h
    exact .inr (.inr ⟨i, existing, hat, hm, rfl, changed_setEntries _ _⟩)

/-! ## Counting -/

/-- The same calls are counted, and the store can be reached as before. -/
def Uncounted (s t : Store) : Prop := t.calls = s.calls ∧ t.unavailable = s.unavailable

theorem uncounted_frame : Frame Uncounted :=
  ⟨fun _ => ⟨rfl, rfl⟩, fun h h' => ⟨h'.1.trans h.1, h'.2.trans h.2⟩⟩

theorem uncounted_place (c : String) (doc : Document) (fresh : ObjectId) :
    Within Uncounted (place c doc fresh) := by
  intro s
  rw [run_place]
  split
  · exact ⟨rfl, rfl⟩
  · exact uncounted_frame.refl s

theorem uncounted_locate (c : String) (filter : Filter) : Within Uncounted (locate c filter) := by
  intro s
  rw [run_locate]
  exact uncounted_frame.refl s

theorem uncounted_overwrite (c : String) (i : Nat) (doc : Document) :
    Within Uncounted (overwrite c i doc) := by
  intro s
  rw [run_overwrite]
  split
  · exact ⟨rfl, rfl⟩
  · exact uncounted_frame.refl s

/-- A call is counted once, also if it fails, and it succeeds only if the store
can be reached. -/
theorem counted {α : Type} {kind : CallKind} {m : Call α} (hm : Within Uncounted m)
    {result : Except StoreFault α} (h : (begin kind c >>= fun _ => m).run s = (result, t)) :
    t.calls = s.calls.tick kind ∧ ∀ a, result = .ok a → t.unavailable = false := by
  rw [run_bind, run_begin] at h
  cases hu : s.unavailable with
  | true =>
    rw [hu] at h
    cases h
    exact ⟨rfl, fun a ha => by cases ha⟩
  | false =>
    rw [hu] at h
    obtain ⟨hcalls, hreach⟩ := hm (s.tick kind)
    have ht : (m.run (s.tick kind)).2 = t := congrArg Prod.snd h
    rw [ht] at hcalls hreach
    exact ⟨hcalls, fun _ _ => hreach.trans hu⟩

theorem counted_insertOne {result : Except StoreFault Value}
    (h : (insertOne c doc fresh).run s = (result, t)) :
    t.calls = s.calls.tick .insert ∧ ∀ a, result = .ok a → t.unavailable = false :=
  counted (uncounted_place c doc fresh) h

theorem counted_replaceOne {filter : Filter} {upsert : Bool} {result : Except StoreFault UpdateResult}
    (h : (replaceOne c filter doc upsert fresh).run s = (result, t)) :
    t.calls = s.calls.tick .replace ∧ ∀ a, result = .ok a → t.unavailable = false := by
  refine counted (uncounted_frame.within_bind (uncounted_locate c filter) fun found => ?_) h
  cases found with
  | some p =>
    refine uncounted_frame.within_bind (uncounted_frame.within_lift _) fun next => ?_
    exact uncounted_frame.within_bind (uncounted_overwrite _ _ _) fun _ => uncounted_frame.within_pure _
  | none =>
    dsimp only
    split
    · exact uncounted_frame.within_bind (uncounted_place _ _ _) fun _ => uncounted_frame.within_pure _
    · exact uncounted_frame.within_pure _

end Store

/-! ## Documents by id -/

/-- Entries that can be read stand where their documents do. -/
theorem Stored.At.getElem? {entries : List Stored} {docs : List Document}
    (hd : documents entries = .ok docs) {i : Nat} (h : At entries i doc) : docs[i]? = some doc := by
  induction entries generalizing docs i with
  | nil =>
    obtain ⟨e, he, -⟩ := h
    cases he
  | cons e rest ih =>
    obtain ⟨first, others, he, hr, rfl⟩ := ok_of_mapM_cons hd
    obtain ⟨e', hi, hd'⟩ := h
    cases i with
    | zero =>
      cases hi
      rw [he] at hd'
      cases hd'
      rfl
    | succ i => exact ih hr ⟨e', hi, hd'⟩

theorem eq_of_same {a b : ObjectId} (h : Filter.same (.objectId a) (.objectId b) = true) :
    a = b := by
  rcases Bool.or_eq_true_iff.1 h with h | h
  · exact eq_of_beq (α := ObjectId) h
  · have hcmp : compare a.bytes b.bytes = .eq := Option.some.inj (eq_of_beq h)
    have : a.bytes = b.bytes := Std.LawfulEqCmp.eq_of_compare hcmp
    cases a
    cases b
    cases this
    rfl

/-- What matches an id and has one has this one. -/
theorem matches_id {a b : ObjectId} (h : doc.get? idField = some (.objectId a))
    (hm : (Filter.id b).matchesDoc doc = true) : a = b := by
  have hpath : doc.getPath? idField = doc.get? idField := rfl
  rw [Filter.id, Filter.matchesDoc, Filter.fieldEquals, hpath, h] at hm
  exact eq_of_same hm

theorem matchesDoc_id {id : ObjectId} (h : doc.get? idField = some (.objectId id)) :
    (Filter.id id).matchesDoc doc = true := by
  have hpath : doc.getPath? idField = doc.get? idField := rfl
  rw [Filter.id, Filter.matchesDoc, Filter.fieldEquals, hpath, h]
  exact Bool.or_eq_true_iff.2 (.inl (beq_self_eq_true (α := ObjectId) id))

/-- Where the ids are different object ids, the id of a match is the one asked
for, and it tells the place. -/
theorem place_of_id {entries : List Stored} {docs : List Document} {ids : List ObjectId}
    (hd : Stored.documents entries = .ok docs)
    (hids : docs.map (·.get? idField) = ids.map fun id => some (.objectId id)) (hn : ids.Nodup)
    {i : Nat} {id : ObjectId} (ha : Stored.At entries i doc)
    (hm : (Filter.id id).matchesDoc doc = true) :
    doc.get? idField = some (.objectId id) ∧ id ∈ ids ∧ i = ids.idxOf id := by
  have hi := congrArg (·[i]?) hids
  simp only [List.getElem?_map, ha.getElem? hd, Option.map_some] at hi
  obtain ⟨a, ha, heq⟩ := Option.map_eq_some_iff.1 hi.symm
  have := matches_id heq.symm hm
  subst this
  obtain ⟨hlt, hget⟩ := List.getElem?_eq_some_iff.1 ha
  refine ⟨heq.symm, List.mem_of_getElem? ha, ?_⟩
  rw [← hget, hn.idxOf_getElem]

end Folio
