import Mathlib.Data.List.Nodup
import Folio.Collection.Basic
import Folio.Proofs.Store.Changes

/-!
# Finding a record by id

Looking for a record counts a call and changes nothing that is stored. Where
everything stored can be read and the ids are different object ids, the record
with an id is the only one that is found for it.

Results:
* `findById_same`: what is stored stays as it is.
* `run_findById`: the document with the id is read, and its record rebuilt.
-/
namespace Folio

/-- A call that looks for documents answers from what can be read, and counts. -/
theorem Store.run_located {α : Type} (kind : CallKind) (c : String) (filter : Filter)
    (answer : List (Nat × Document) → α) (s : Store) :
    (begin kind c >>= fun _ => locateAll c filter >>= fun found => pure (answer found)).run s =
      (if s.unavailable then .error (.unavailable c)
        else (Stored.matching filter (s.entries c) 0).map answer, s.tick kind) := by
  rw [run_bind, run_begin]
  by_cases hu : s.unavailable = true
  · simp only [hu, if_true]
  · simp only [hu, Bool.false_eq_true, if_false]
    rw [run_bind, run_locateAll, entries_tick]
    cases Stored.matching filter (s.entries c) 0 <;> rfl

theorem Store.run_find (c : String) (filter : Filter) (options : FindOptions) (s : Store) :
    (find c filter options).run s =
      (if s.unavailable then .error (.unavailable c)
        else (Stored.matching filter (s.entries c) 0).map fun found =>
          options.apply (found.map (·.2)), s.tick .find) := by
  rw [find, run_located]

theorem Store.run_count (c : String) (filter : Filter) (s : Store) :
    (count c filter).run s =
      (if s.unavailable then .error (.unavailable c)
        else (Stored.matching filter (s.entries c) 0).map List.length, s.tick .count) := by
  rw [count, run_located]

theorem Store.run_distinct (c field : String) (filter : Filter) (s : Store) :
    (distinct c field filter).run s =
      (if s.unavailable then .error (.unavailable c)
        else (Stored.matching filter (s.entries c) 0).map fun found =>
          (found.flatMap fun f => candidates field f.2).foldl addNew [], s.tick .distinct) := by
  rw [distinct, run_located]

/-- Where all entries can be read, a search goes through their documents. -/
theorem Stored.matching_documents (filter : Filter) {entries : List Stored} {docs : List Document}
    (hd : documents entries = .ok docs) (k : Nat) :
    (matching filter entries k).map (List.map (·.2)) = .ok (docs.filter (filter.matchesDoc ·)) := by
  rw [map_matching, hd]
  rfl

/-- The first document that an id matches is the one that has the id. -/
theorem find?_id {docs : List Document} {ids : List ObjectId}
    (hids : docs.map (·.get? idField) = ids.map fun id => some (.objectId id)) (hn : ids.Nodup)
    {doc : Document} (hm : doc ∈ docs) {id : ObjectId} (hid : doc.get? idField = some (.objectId id)) :
    docs.find? ((Filter.id id).matchesDoc ·) = some doc := by
  obtain ⟨found, hfound⟩ : ∃ found, docs.find? ((Filter.id id).matchesDoc ·) = some found :=
    Option.isSome_iff_exists.1 (List.find?_isSome.2 ⟨doc, hm, matchesDoc_id hid⟩)
  have hmem := List.mem_of_find?_eq_some hfound
  have hmatches : (Filter.id id).matchesDoc found = true :=
    List.find?_some (p := fun doc => (Filter.id id).matchesDoc doc) hfound
  have hmap := List.mem_map_of_mem (f := fun doc : Document => doc.get? idField) hmem
  rw [hids] at hmap
  obtain ⟨a, -, ha⟩ := List.mem_map.1 hmap
  have hsame := matches_id ha.symm hmatches
  have hnodup : (docs.map (·.get? idField)).Nodup := by
    rw [hids]
    exact hn.map fun a b h => by cases h; rfl
  rw [hfound, List.inj_on_of_nodup_map hnodup hmem hm (by rw [hid, ← ha, hsame])]

namespace Backend

theorem run_call {α : Type} (call : Store.Call α) (b : Backend) :
    (Backend.call call).run b =
      (((call.run b.store).1).mapError .store, { b with store := (call.run b.store).2 }) := rfl

theorem run_look {α : Type} (m : RegistryM α) (b : Backend) :
    (Backend.look m).run b = ((m.run b.registry).1, { b with registry := (m.run b.registry).2 }) :=
  rfl

end Backend

namespace Collection

variable {E : Type} [Record E]

/-- Rebuilding a record leaves the store alone. -/
theorem store_inflate? (c : Collection) (doc : Option Document) (b : Backend) :
    ((c.inflate? doc : BackendM (Option E)).run b).2.store = b.store := by
  cases doc with
  | none => rfl
  | some doc =>
    rw [inflate?, run_bind, inflate, Backend.run_look]
    rcases (Registry.inflate c.cls doc : RegistryM E).run b.registry with ⟨_ | _, _⟩ <;> rfl

theorem store_findById (c : Collection) (id : ObjectId) (b : Backend) :
    ((c.findById (some id) : BackendM (Option E)).run b).2.store = b.store.tick .find := by
  rw [findById, findFirst, run_bind, Backend.run_call, Store.run_find]
  dsimp only
  generalize (if b.store.unavailable then _ else _ : Except StoreFault (List Document)) = found
  cases found with
  | error fault => rfl
  | ok docs => exact store_inflate? ..

/-- Looking a record up leaves what is stored as it is. -/
theorem findById_same (c : Collection) (id : Option ObjectId) (b : Backend) :
    b.store.Same ((c.findById id : BackendM (Option E)).run b).2.store := by
  cases id with
  | none => exact .refl _
  | some id =>
    rw [store_findById]
    exact fun _ => rfl

/-- Without a scope, the record with an id is rebuilt of the document that has
the id. -/
theorem run_findById {c : Collection} (hscope : c.scope = .plain) {b : Backend}
    (havailable : b.store.unavailable = false) {docs : List Document} {ids : List ObjectId}
    (hd : b.store.documents c.name = .ok docs)
    (hids : docs.map (·.get? idField) = ids.map fun id => some (.objectId id)) (hn : ids.Nodup)
    {doc : Document} (hm : doc ∈ docs) {id : ObjectId} (hid : doc.get? idField = some (.objectId id))
    {e : E} {r : Registry} (hr : (Registry.inflate c.cls doc : RegistryM E).run b.registry = (.ok e, r)) :
    (c.findById (some id) : BackendM (Option E)).run b =
      (.ok (some e), ⟨b.store.tick .find, r⟩) := by
  have hmatching := Stored.matching_documents (.id id) hd 0
  rw [findById, findFirst, visible_plain hscope, run_bind, Backend.run_call, Store.run_find, havailable]
  cases hfound : Stored.matching (.id id) (b.store.entries c.name) 0 with
  | error fault => rw [hfound] at hmatching; cases hmatching
  | ok found =>
    rw [hfound] at hmatching
    have hhead : (FindOptions.apply { limit := some 1 } (found.map (·.2))).head? = some doc := by
      show ((found.map (·.2)).take 1).head? = some doc
      rw [List.head?_take, if_neg Nat.one_ne_zero, Except.ok.inj hmatching, List.head?_filter,
        find?_id hids hn hm hid]
    show (c.inflate? (FindOptions.apply { limit := some 1 } (found.map (·.2))).head? :
      BackendM (Option E)).run { b with store := b.store.tick .find } = _
    rw [hhead, inflate?, inflate, run_bind, Backend.run_look, hr]
    rfl

end Collection
end Folio
