import Folio.Proofs.Value.WellNamed
import Mathlib.Data.List.Induction

/-!
# Documents made of pairs

Pairs that are inserted one after another make one document. What it is can be
said without the insertions: each name stands where it was given first, and has
the value it was given last.

Results:
* `ext_of_get?`: a document with distinct names is its names, in order, and
  their values.
* `gathers_iff`: the document made of pairs is the only one so described.
-/
namespace Folio.Document

variable {doc other : Document} {pairs : List (String × Value)}

theorem fields_of_nodup (h : doc.keys.Nodup) :
    doc.fields = doc.keys.map fun key => (key, (doc.get? key).getD .null) := by
  rw [keys, List.map_map]
  refine (List.map_id _).symm.trans (List.map_congr_left fun f hf => ?_)
  have hv : doc.get? f.1 = some f.2 := (Value.lookup_iff_mem h).2 hf
  simp only [Function.comp, hv, Option.getD_some, id]

theorem ext_of_get? (hn : doc.keys.Nodup) (hk : other.keys = doc.keys)
    (hg : ∀ key, other.get? key = doc.get? key) : other = doc := by
  have ho : other.fields = doc.fields := by
    rw [fields_of_nodup hn, fields_of_nodup (hk ▸ hn), hk]
    simp only [hg]
  cases doc
  cases other
  exact congrArg _ ho

/-- The document has the names of the pairs, each where it stands first, and
under each name the value of the last pair that has it. -/
structure Gathers (doc : Document) (pairs : List (String × Value)) : Prop where
  keys : doc.keys = (pairs.map (·.1)).eraseDups
  get? : ∀ key, doc.get? key = pairs.reverse.lookup key

theorem gathers_empty : empty.Gathers [] := ⟨rfl, fun _ => rfl⟩

theorem Gathers.insert (h : doc.Gathers pairs) (key : String) (v : Value) :
    (doc.insert key v).Gathers (pairs ++ [(key, v)]) := by
  constructor
  · rw [keys_insert, h.keys, List.map_append, List.eraseDups_append]
    by_cases hk : key ∈ pairs.map (·.1)
    · simp only [List.mem_eraseDups, if_pos hk]
      have hnone : [key].removeAll (pairs.map (·.1)) = [] := by
        simp [List.removeAll, List.mem_map.1 hk]
      simp only [List.map_cons, List.map_nil, hnone, List.eraseDups_nil, List.append_nil]
    · simp only [List.mem_eraseDups, if_neg hk]
      have hsome : [key].removeAll (pairs.map (·.1)) = [key] := by
        simpa [List.removeAll] using hk
      simp only [List.map_cons, List.map_nil, hsome, List.eraseDups_cons, List.filter_nil,
        List.eraseDups_nil]
  · intro k
    rw [get?_insert, h.get?, List.reverse_append, List.reverse_singleton, List.singleton_append,
      List.lookup_cons]
    by_cases hk : k = key
    · rw [if_pos hk, beq_iff_eq.2 hk]
    · rw [if_neg hk, beq_eq_false_iff_ne.2 hk]

theorem ofList_snoc (pairs : List (String × Value)) (p : String × Value) :
    ofList (pairs ++ [p]) = (ofList pairs).insert p.1 p.2 :=
  List.foldl_append ..

theorem gathers_ofList (pairs : List (String × Value)) : (ofList pairs).Gathers pairs := by
  induction pairs using List.reverseRecOn with
  | nil => exact gathers_empty
  | append_singleton pairs p ih =>
    rw [ofList_snoc]
    exact ih.insert p.1 p.2

theorem nodup_ofList (pairs : List (String × Value)) : (ofList pairs).keys.Nodup := by
  induction pairs using List.reverseRecOn with
  | nil => exact List.nodup_nil
  | append_singleton pairs p ih =>
    rw [ofList_snoc]
    exact nodup_insert ih p.1 p.2

theorem gathers_iff : doc.Gathers pairs ↔ doc = ofList pairs := by
  constructor
  · intro h
    have ho := gathers_ofList pairs
    exact ext_of_get? (nodup_ofList pairs) (h.keys.trans ho.keys.symm)
      fun key => (h.get? key).trans (ho.get? key).symm
  · rintro rfl
    exact gathers_ofList pairs

end Folio.Document
