import Folio.Proofs.Value.Arrangement
import Folio.Store.Calls

/-!
# Documents with distinct names

Inserting into a document and taking out of it keep its names distinct, and so
does all that a store does to a document before it writes it.

Results:
* `WellNamed.withId`, `wellNamed_replacement`: the document that is written for
  one handed in has distinct names.
* `wellNamed_updated`: so has one that is updated.
-/
namespace Folio

/-- No two fields have one name, at any depth. -/
def Document.WellNamed (doc : Document) : Prop :=
  (Value.document doc).everywhere Value.distinct = true

namespace Document

variable {doc : Document}

theorem wellNamed_iff :
    doc.WellNamed ↔ doc.keys.Nodup ∧ ∀ f ∈ doc.fields, f.2.everywhere Value.distinct = true := by
  obtain ⟨fields⟩ := doc
  exact Value.everywhere_document.trans (and_congr_left fun _ => decide_eq_true_iff)

theorem WellNamed.canonical (h : doc.WellNamed) : doc.canonical.WellNamed := by
  have hp : ∀ v : Value, v.canonical.distinct = v.distinct := by
    intro v
    cases v with
    | array items => rfl
    | document doc =>
      obtain ⟨fields⟩ := doc
      rw [Value.canonical_document]
      refine decide_eq_decide.2 ?_
      rw [((Value.arrange_perm _).map _).nodup_iff, List.map_map]
      rfl
    | _ => rfl
  obtain ⟨fields⟩ := doc
  exact (Value.everywhere_canonical hp (.document ⟨fields⟩)).2 h

theorem mem_of_lookup {key : String} {v : Value} {fields : List (String × Value)}
    (h : lookup key fields = some v) : (key, v) ∈ fields := by
  induction fields with
  | nil => cases h
  | cons f rest ih =>
    obtain ⟨k, w⟩ := f
    rw [lookup] at h
    by_cases hk : k = key
    · rw [if_pos hk] at h
      cases h
      exact hk ▸ List.mem_cons_self
    · rw [if_neg hk] at h
      exact List.mem_cons_of_mem _ (ih h)

theorem contains_iff {key : String} : doc.contains key = true ↔ key ∈ doc.keys := by
  obtain ⟨fields⟩ := doc
  simp only [keys, contains, get?]
  induction fields with
  | nil => simp [lookup]
  | cons f rest ih =>
    obtain ⟨k, w⟩ := f
    rw [List.map_cons, List.mem_cons, lookup]
    by_cases heq : k = key
    · simp [heq]
    · rw [if_neg heq, ih, or_iff_right (Ne.symm heq)]

theorem WellNamed.get? (h : doc.WellNamed) {key : String} {v : Value}
    (hv : doc.get? key = some v) : v.everywhere Value.distinct = true :=
  (wellNamed_iff.1 h).2 _ (mem_of_lookup hv)

theorem mem_put {key : String} {v : Value} {fields : List (String × Value)} {f : String × Value}
    (h : f ∈ put key v fields) : f = (key, v) ∨ f ∈ fields := by
  induction fields with
  | nil => exact .inl (List.mem_singleton.1 h)
  | cons g rest ih =>
    obtain ⟨k, w⟩ := g
    rw [put] at h
    by_cases hk : k = key
    · rw [if_pos hk, hk] at h
      rcases List.mem_cons.1 h with h | h
      · exact .inl h
      · exact .inr (List.mem_cons_of_mem _ h)
    · rw [if_neg hk] at h
      rcases List.mem_cons.1 h with h | h
      · exact .inr (h ▸ List.mem_cons_self)
      · exact (ih h).imp_right (List.mem_cons_of_mem _)

theorem put_of_not_mem {key : String} {v : Value} {fields : List (String × Value)}
    (h : key ∉ fields.map (·.1)) : put key v fields = fields ++ [(key, v)] := by
  induction fields with
  | nil => rfl
  | cons f rest ih =>
    obtain ⟨k, w⟩ := f
    obtain ⟨hk, hr⟩ := not_or.1 (mt List.mem_cons.2 h)
    rw [put, if_neg (Ne.symm hk), ih hr, List.cons_append]

theorem nodup_insert (h : doc.keys.Nodup) (key : String) (v : Value) :
    (doc.insert key v).keys.Nodup := by
  rw [keys_insert]
  split
  · exact h
  · next hk =>
    refine List.nodup_append.2 ⟨h, List.pairwise_singleton .., ?_⟩
    rintro a ha b hb rfl
    exact hk (List.mem_singleton.1 hb ▸ ha)

theorem WellNamed.insert (h : doc.WellNamed) {key : String} {v : Value}
    (hv : v.everywhere Value.distinct = true) : (doc.insert key v).WellNamed := by
  obtain ⟨hn, hf⟩ := wellNamed_iff.1 h
  refine wellNamed_iff.2 ⟨nodup_insert hn key v, ?_⟩
  intro f hm
  rcases mem_put hm with rfl | hm
  · exact hv
  · exact hf f hm

theorem drop_sublist (key : String) (fields : List (String × Value)) :
    (drop key fields).Sublist fields := by
  induction fields with
  | nil => exact .slnil
  | cons f rest ih =>
    obtain ⟨k, v⟩ := f
    rw [drop]
    split
    · exact List.sublist_cons_self _ _
    · exact ih.cons_cons _

theorem WellNamed.erase (h : doc.WellNamed) (key : String) : (doc.erase key).WellNamed := by
  obtain ⟨hn, hf⟩ := wellNamed_iff.1 h
  have hs := drop_sublist key doc.fields
  exact wellNamed_iff.2 ⟨hn.sublist (hs.map _), fun f hm => hf f (hs.subset hm)⟩

/-- The id is put in front of the other fields. -/
theorem WellNamed.withId (h : doc.WellNamed) {id : Option Value}
    (hid : ∀ v, id = some v → v.everywhere Value.distinct = true) (fresh : ObjectId) :
    (doc.withId id fresh).WellNamed := by
  obtain ⟨hn, hf⟩ := wellNamed_iff.1 h
  refine wellNamed_iff.2 ⟨List.nodup_cons.2 ⟨?_, hn.sublist (List.filter_sublist.map _)⟩, ?_⟩
  · intro hm
    obtain ⟨f, hf, hk⟩ := List.mem_map.1 hm
    exact of_decide_eq_true (List.mem_filter.1 hf).2 hk
  · intro f hm
    rcases List.mem_cons.1 hm with rfl | hm
    · cases id with
      | some v => exact hid v rfl
      | none =>
        cases hv : doc.get? idField with
        | none => rfl
        | some v => exact h.get? hv
    · exact hf f (List.mem_filter.1 hm).1

end Document

/-- A value that is set has distinct names. -/
def Change.WellNamed : Change → Prop
  | .set _ value => value.everywhere Value.distinct = true
  | .unset _ | .inc _ _ => True

theorem Change.distinct_sum {field : String} {current amount next : Value}
    (h : sum field current amount = .ok next) : next.everywhere Value.distinct = true := by
  unfold sum at h
  split at h
  · dsimp only at h
    split at h
    · cases h
      rfl
    · cases h
  · split at h
    · cases h
      rfl
    · cases h

theorem Change.wellNamed_apply {change : Change} (hc : change.WellNamed) {doc next : Document}
    (hd : doc.WellNamed) (h : change.apply doc = .ok next) : next.WellNamed := by
  unfold Change.apply at h
  split at h
  · cases h
  · cases change with
    | set field value => cases h; exact hd.insert hc
    | unset field => cases h; exact hd.erase field
    | inc field amount =>
      cases hs : sum field ((doc.get? field).getD (.integer 0)) amount with
      | error fault => simp only [hs, bind, Except.bind] at h; cases h
      | ok v =>
        simp only [hs, bind, Except.bind] at h
        cases h
        exact hd.insert (distinct_sum hs)

theorem Update.wellNamed_run {update : Update} (hu : ∀ change ∈ update, change.WellNamed)
    {doc : Document} (hd : doc.WellNamed) : (update.run doc).1.WellNamed := by
  induction update generalizing doc with
  | nil => exact hd
  | cons change rest ih =>
    unfold run
    split
    · next next h =>
      exact ih (fun c hc => hu c (List.mem_cons_of_mem _ hc))
        (Change.wellNamed_apply (hu change List.mem_cons_self) hd h)
    · exact hd

namespace Store

theorem wellNamed_updated {update : Update} (hu : ∀ change ∈ update, change.WellNamed)
    {doc next : Document} (hd : doc.WellNamed) (h : updated update doc = .ok next) :
    next.WellNamed := by
  have hr := Update.wellNamed_run hu hd
  unfold updated Update.apply at h
  split at h
  · next after ha =>
    cases h
    rwa [ha] at hr
  · cases h

theorem wellNamed_replacement {existing doc next : Document} {fresh : ObjectId}
    (he : existing.WellNamed) (hd : doc.WellNamed) (h : replacement existing doc fresh = .ok next) :
    next.WellNamed := by
  have hid : ∀ v, existing.get? idField = some v → v.everywhere Value.distinct = true :=
    fun v hv => he.get? hv
  unfold replacement at h
  split at h
  · next new old _ ho =>
    split at h
    · cases h
    · cases h
      refine hd.withId ?_ fresh
      intro v hv
      cases hv
      exact hid _ ho
  · cases h
    exact hd.withId hid fresh

end Store
end Folio
