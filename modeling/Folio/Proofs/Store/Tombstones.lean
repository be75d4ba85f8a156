import Mathlib.Data.List.Nodup
import Folio.Collection.Basic
import Folio.Proofs.Store.Changes
import Folio.Proofs.Store.Identity

/-!
# Records with a mark

Each entry keeps a document that says whether it is defunct. An advance puts one
entry behind the others, under a new id and not marked, or puts one in the place
of another, under the same id and marked if the other was.

Results:
* `Records.advance`: the ids stay different and each entry says whether it is
  defunct.
* `Lasts`: the entries are still there, and the marked ones are marked; a preorder
  that every advance is in.
* `Advance.created`: what is new is not marked.
-/
namespace Folio

variable {entries others : List Stored} {e : Stored} {flag : Bool} {doc : Document}

namespace Stored

/-- The entry keeps a document with this mark. -/
def Bears (e : Stored) (flag : Bool) : Prop :=
  ∃ doc, ofDocument doc = .ok e ∧ doc.get? defunctProperty = some (.bool flag)

/-- What is read back of the entry has its id and its mark, each name once. -/
theorem Bears.read (h : e.Bears flag) (hd : e.document = .ok doc) :
    (doc.fields.map (·.1)).Nodup ∧ doc.get? defunctProperty = some (.bool flag) ∧
      doc.get? idField = some e.id.canonical := by
  obtain ⟨kept, hof, hflag⟩ := h
  obtain ⟨hn, hget⟩ := get?_document hof hd
  refine ⟨hn, ?_, ?_⟩
  · rw [hget, hflag]
    rfl
  · rw [hget, (ofDocument_ok hof).1]
    rfl

/-- The entries have different object ids, and each has a mark or none. -/
structure Records (entries : List Stored) : Prop where
  ids : ∀ e ∈ entries, ∃ id, e.id = .objectId id
  distinct : (entries.map (·.id)).Nodup
  marks : ∀ e ∈ entries, ∃ flag, e.Bears flag

/-- An entry that can be read is read with the mark that it has. -/
theorem Records.bears_iff (h : Records entries) (he : e ∈ entries) (hd : e.document = .ok doc) :
    e.Bears flag ↔ doc.get? defunctProperty = some (.bool flag) := by
  refine ⟨fun hbears => (hbears.read hd).2.1, fun hread => ?_⟩
  obtain ⟨other, hbears⟩ := h.marks e he
  cases (hbears.read hd).2.1.symm.trans hread
  exact hbears

/-- One entry is new, or one is another than before, or none is. -/
inductive Advance (entries : List Stored) : List Stored → Prop
  | same : Advance entries entries
  | added {e : Stored} {id : ObjectId} (isId : e.id = .objectId id)
      (new : e.id ∉ entries.map (·.id)) (unmarked : e.Bears false) : Advance entries (entries ++ [e])
  | changed {i : Nat} {old e : Stored} {flag : Bool} (place : entries[i]? = some old)
      (sameId : e.id = old.id) (mark : e.Bears flag) (kept : old.Bears true → e.Bears true) :
      Advance entries (entries.set i e)

/-- Each entry is still there, and is marked if it was. -/
def Lasts (entries others : List Stored) : Prop :=
  ∀ e ∈ entries, ∃ e' ∈ others, e'.id = e.id ∧ (e.Bears true → e'.Bears true)

theorem Lasts.refl (entries : List Stored) : Lasts entries entries :=
  fun e he => ⟨e, he, rfl, fun hm => hm⟩

theorem Lasts.trans {more : List Stored} (h : Lasts entries others) (h' : Lasts others more) :
    Lasts entries more := by
  intro e he
  obtain ⟨e', he', hid, hmark⟩ := h e he
  obtain ⟨e'', he'', hid', hmark'⟩ := h' e' he'
  exact ⟨e'', he'', hid'.trans hid, fun hm => hmark' (hmark hm)⟩

theorem Records.advance (h : Records entries) (ha : Advance entries others) : Records others := by
  cases ha with
  | same => exact h
  | @added e id isId new unmarked =>
    refine ⟨?_, ?_, ?_⟩
    · intro x hx
      rcases List.mem_append.1 hx with hx | hx
      · exact h.ids x hx
      · rw [List.mem_singleton.1 hx]
        exact ⟨id, isId⟩
    · rw [List.map_append, List.nodup_append]
      refine ⟨h.distinct, List.nodup_singleton _, ?_⟩
      rintro a ha b hb rfl
      rw [List.map_singleton, List.mem_singleton] at hb
      exact new (hb ▸ ha)
    · intro x hx
      rcases List.mem_append.1 hx with hx | hx
      · exact h.marks x hx
      · rw [List.mem_singleton.1 hx]
        exact ⟨false, unmarked⟩
  | @changed i old e flag place sameId mark kept =>
    refine ⟨?_, ?_, ?_⟩
    · intro x hx
      rcases List.mem_or_eq_of_mem_set hx with hx | rfl
      · exact h.ids x hx
      · rw [sameId]
        exact h.ids old (List.mem_of_getElem? place)
    · rw [map_id_set place sameId]
      exact h.distinct
    · intro x hx
      rcases List.mem_or_eq_of_mem_set hx with hx | rfl
      · exact h.marks x hx
      · exact ⟨flag, mark⟩

/-- Nothing is removed, and no mark is taken away. -/
theorem Advance.lasts (h : Advance entries others) : Lasts entries others := by
  cases h with
  | same => exact .refl entries
  | added => exact fun e he => ⟨e, List.mem_append_left _ he, rfl, fun hm => hm⟩
  | @changed i old e flag place sameId mark kept =>
    intro x hx
    obtain ⟨j, hj⟩ := List.getElem?_of_mem hx
    by_cases hij : i = j
    · subst hij
      cases place.symm.trans hj
      obtain ⟨hlt, -⟩ := List.getElem?_eq_some_iff.1 place
      exact ⟨e, List.mem_of_getElem? (List.getElem?_set_self hlt), sameId, kept⟩
    · refine ⟨x, List.mem_of_getElem? (i := j) ?_, rfl, fun hm => hm⟩
      rw [List.getElem?_set_ne hij, hj]

/-- What is new is not marked. -/
theorem Advance.created (h : Advance entries others) {x : Stored} (hx : x ∈ others)
    (hnew : x.id ∉ entries.map (·.id)) : x.Bears false := by
  cases h with
  | same => exact absurd (List.mem_map_of_mem hx) hnew
  | added _ _ unmarked =>
    rcases List.mem_append.1 hx with hx | hx
    · exact absurd (List.mem_map_of_mem hx) hnew
    · rw [List.mem_singleton.1 hx]
      exact unmarked
  | @changed i old e flag place sameId mark kept =>
    rw [← map_id_set place sameId] at hnew
    exact absurd (List.mem_map_of_mem hx) hnew

/-! ## Entries by id -/

variable {id : ObjectId} {i : Nat} {old : Stored}

/-- The document that an id matches is that of the entry with the id. -/
theorem Records.id_of_match (h : Records entries) (hi : entries[i]? = some old)
    (hd : old.document = .ok doc) (hm : (Filter.id id).matchesDoc doc = true) :
    old.id = .objectId id ∧ doc.get? idField = some (.objectId id) := by
  have hold := List.mem_of_getElem? hi
  obtain ⟨a, ha⟩ := h.ids old hold
  obtain ⟨flag, hbears⟩ := h.marks old hold
  have hget := (hbears.read hd).2.2
  rw [ha] at hget
  cases matches_id hget hm
  exact ⟨ha, hget⟩

end Stored
end Folio
