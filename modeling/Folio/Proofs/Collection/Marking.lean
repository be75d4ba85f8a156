import Folio.Proofs.Collection.Puts
import Folio.Proofs.Store.Tombstones

/-!
# Saving and deleting where records have a mark

A save writes the mark that the entity has, whatever becomes of its stamps. So it
advances the entries if an entity that is new is not marked, and one that is
stored is marked if the stored one is. A delete in the defunct scope marks.

Results:
* `save_advance`, `delete_advance`: what saving and deleting do to the entries.
* `findById_mark`: what is found for an id has the mark that is stored.
-/
namespace Folio

variable {s : Schema} {known : ClassRef → Prop} {c : Collection} {b : Backend} {e : Entity}
  {ambient : Ambient}

/-- The entity has this mark; it is not marked if it is new, and it is if what is
stored under its id is. -/
structure Entity.Heeds (e : Entity) (entries : List Stored) (flag : Bool) : Prop where
  mark : Keyed.get? defunctProperty e.attributes = some (.bool flag)
  new : Record.id? e = none → flag = false
  stored : ∀ id, Record.id? e = some id → ∀ old ∈ entries, old.id = .objectId id →
    old.Bears true → flag = true

/-- An object id is in a list of ids if it equals one of them. -/
theorem Value.any_objectId {entries : List Stored} {e : Stored} {id : ObjectId}
    (hid : e.id = .objectId id) (h : entries.any (·.id == e.id) = false) :
    e.id ∉ entries.map (·.id) := by
  intro hmem
  obtain ⟨old, hold, heq⟩ := List.mem_map.1 hmem
  have hself : (old.id == e.id) = true := by
    rw [show old.id = e.id from heq, hid]
    exact beq_self_eq_true (α := ObjectId) id
  exact List.any_eq_false.1 h old hold hself

namespace Collection

open Stored (Records Advance)

variable {flag : Bool} {newId : Option ObjectId}

/-! ## Saving -/

/-- Saving an entity that heeds the marks advances the entries. -/
theorem save_advance (hr : b.registry.Sound s known) (hrecords : Records (b.store.entries c.name))
    (he : e.Heeds (b.store.entries c.name) flag) {result : Except Failure (Option Entity)}
    {after : Held Entity}
    (hrun : (c.save newId ambient : HeldM Entity (Option Entity)).run ⟨e, b⟩ = (result, after)) :
    Advance (b.store.entries c.name) (after.backend.store.entries c.name) := by
  have hmark : Held.Unstamped defunctProperty := by
    unfold Held.Unstamped
    decide
  obtain ⟨-, hsame | hput⟩ := save_put s known hrun
  · rw [hsame c.name]
    exact .same
  cases hput with
  | @added x doc r entry new alike id encoded kept free changed =>
    have hunmarked := (alike _ hmark).trans he.mark
    rw [he.new new] at hunmarked
    have hentry : entry.id = .objectId (newId.getD (ambient.fresh 0)) := by
      have hget := (Stored.ofDocument_ok kept).1
      rw [Store.id_withId, Registry.id_encodeRecord hr id encoded] at hget
      exact (Option.some.inj hget).symm
    rw [changed.here]
    refine .added hentry (Value.any_objectId hentry free) ⟨_, kept, ?_⟩
    rw [Store.get?_withId (by decide)]
    exact Registry.mark_encodeRecord hr hunmarked encoded
  | @replaced x id doc existing next r i entry isId alike encoded place found replacement kept changed =>
    obtain ⟨old, hold, hread⟩ := place
    obtain ⟨holdId, hget⟩ := hrecords.id_of_match hold hread found
    have hentry : entry.id = old.id := by
      have hnextId := (Stored.ofDocument_ok kept).1
      rw [Store.id_replacement replacement hget] at hnextId
      rw [holdId]
      exact (Option.some.inj hnextId).symm
    have hbears : entry.Bears flag := by
      refine ⟨next, kept, ?_⟩
      rw [Store.get?_replacement replacement (by decide)]
      exact Registry.mark_encodeRecord hr ((alike _ hmark).trans he.mark) encoded
    rw [changed.here]
    refine .changed hold hentry hbears fun hmarked => ?_
    rwa [he.stored id isId old (List.mem_of_getElem? hold) holdId hmarked] at hbears

/-! ## Finding -/

/-- What is found for an id, whatever the scope hides, has the mark that is stored
under the id. -/
theorem findById_mark (hc : s.Markable known c.cls) (hscope : c.scope = .plain)
    (hr : b.registry.Sound s known) (hrecords : Records (b.store.entries c.name)) {id : ObjectId}
    {stored : Entity} {after : Backend}
    (hrun : (c.findById (some id) : BackendM (Option Entity)).run b = (.ok (some stored), after))
    {old : Stored} (hold : old ∈ b.store.entries c.name) (hid : old.id = .objectId id)
    (hbears : old.Bears flag) :
    Keyed.get? defunctProperty stored.attributes = some (.bool flag) := by
  obtain ⟨i, doc, r, ⟨found, hi, hread⟩, hm, hinflate⟩ := rebuilt_of_findById hscope hrun
  obtain ⟨hfound, -⟩ := hrecords.id_of_match hi hread hm
  -- the ids are different, so what was found is the entry
  cases List.inj_on_of_nodup_map hrecords.distinct hold (List.mem_of_getElem? hi)
    (hid.trans hfound.symm)
  obtain ⟨hn, hmark, -⟩ := hbears.read hread
  exact Registry.mark_inflate hc hr hn hmark hinflate

/-! ## Deleting -/

/-- Deleting in the defunct scope marks one entry, or does nothing. -/
theorem delete_advance (hscope : c.scope = .defunct) (hrecords : Records (b.store.entries c.name))
    {id : Option ObjectId} {result : Except Failure (Option Entity)} {after : Backend}
    (hrun : (c.deleteById id : BackendM (Option Entity)).run b = (result, after)) :
    Advance (b.store.entries c.name) (after.store.entries c.name) := by
  rcases deleteById_cases hrun with ⟨-, hsame⟩ | ⟨i, doc, -, htakes, -⟩
  · rw [hsame c.name]
    exact .same
  · cases htakes with
    | out scope => rw [hscope] at scope; cases scope
    | @marked i next entry _ place found updated kept changed =>
      obtain ⟨old, hold, hread⟩ := place
      have hmem := List.mem_of_getElem? hold
      obtain ⟨a, ha⟩ := hrecords.ids old hmem
      obtain ⟨flag, hbears⟩ := hrecords.marks old hmem
      have hentry : entry.id = old.id := by
        have hid := (Stored.ofDocument_ok kept).1
        rw [Store.id_updated updated, (hbears.read hread).2.2, ha] at hid
        rw [ha]
        exact (Option.some.inj hid).symm
      rw [changed.here]
      exact .changed hold hentry ⟨next, kept, get?_markDefunct updated⟩ fun _ =>
        ⟨next, kept, get?_markDefunct updated⟩

end Collection
end Folio
