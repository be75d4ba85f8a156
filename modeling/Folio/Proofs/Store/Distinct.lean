import Folio.Proofs.Cbor.Variants
import Folio.Proofs.Store.Addressing
import Folio.Proofs.Store.Inserted
import Folio.Proofs.Value.Comparing
import Folio.Proofs.Value.Rearranged

/-!
# The different values of a field

A field that holds an array contributes its elements to the values of the field,
each value once. A filter looks into such a field too, but not for an array: that
has to equal all that the field holds. So an array in an array is among the values,
and no document may be found by it.

Results:
* `pairwise_foldl_addNew`, `covered_of_mem`: values are taken once, and none is left
  out.
* `fieldEquals_eq_any`, `fieldEquals_array`: what a filter asks for equality.
* `distinct_iff`: which values documents are found by, and which documents are found
  by a value.
-/
namespace Folio

variable {c field : String} {filter : Filter} {v w : Value} {vs values : List Value}
  {doc : Document} {docs : List Document} {s : Store}

/-! ## Values that are arrays -/

namespace Value

theorem array?_of_family {family : Family} (h : v.family? = some family) : v.array? = none := by
  cases v with
  | array items => cases h
  | _ => rfl

theorem eq_array_of_ne (h : v.array? ≠ none) : ∃ items, v = array items := by
  cases v with
  | array items => exact ⟨items, rfl⟩
  | _ => exact absurd rfl h

theorem array?_of_beq (h : (v == w) = true) : v.array? = none ↔ w.array? = none := by
  cases v with
  | array items => cases w <;> first | simp [array?]; done | cases h
  | document doc =>
    obtain ⟨fields⟩ := doc
    cases w <;> first | simp [array?]; done | cases h
  | _ => cases w <;> first | simp [array?]; done | cases h

end Value

namespace Filter

/-- What counts as the same as an array is an array. -/
theorem array?_of_same (h : same v w = true) : v.array? = none ↔ w.array? = none := by
  rw [same, Bool.or_eq_true] at h
  rcases h with h | h
  · exact Value.array?_of_beq h
  · obtain ⟨family, hv, hw⟩ := Value.family_of_compare? (beq_iff_eq.1 h)
    exact iff_of_true (Value.array?_of_family hv) (Value.array?_of_family hw)

theorem same_array (v : Value) (items : List Value) :
    same v (.array items) = (v == .array items) := by
  cases hc : v.compare? (.array items) with
  | none => rw [same, hc]; simp
  | some o =>
    obtain ⟨family, -, h⟩ := Value.family_of_compare? hc
    cases h

theorem same_of_beq (h : (v == w) = true) : same v w = true := by
  rw [same, h, Bool.true_or]

/-- A filter for a value that is no array looks at all that the field contributes. -/
theorem fieldEquals_eq_any (hv : v.array? = none) (h : doc.getPath? field = some w) :
    fieldEquals doc field v = (Store.candidates field doc).any (same · v) := by
  unfold fieldEquals Store.candidates
  rw [h]
  cases w with
  | array items =>
    cases v with
    | array others => cases hv
    | _ => rfl
  | _ => simp

/-- A filter for an array looks at the field as a whole. -/
theorem fieldEquals_array {items : List Value} :
    fieldEquals doc field (.array items) = true ↔
      ∃ w, doc.getPath? field = some w ∧ (w == .array items) = true := by
  unfold fieldEquals
  cases doc.getPath? field with
  | none => simp [Value.isNull]
  | some w => cases w <;> simp [same_array]

end Filter

namespace Store

theorem candidates_of_plain (h : doc.getPath? field = some w) (hw : w.array? = none) :
    candidates field doc = [w] := by
  unfold candidates
  rw [h]
  cases w with
  | array items => cases hw
  | _ => rfl

theorem getPath?_of_candidate (h : v ∈ candidates field doc) :
    ∃ w, doc.getPath? field = some w := by
  unfold candidates at h
  cases hw : doc.getPath? field with
  | none => rw [hw] at h; cases h
  | some w => exact ⟨w, rfl⟩

/-! ## Each value once -/

theorem mem_addNew (h : w ∈ addNew values v) : w ∈ values ∨ w = v := by
  unfold addNew at h
  split at h
  · exact .inl h
  · rwa [List.mem_append, List.mem_singleton] at h

theorem mem_foldl_addNew (h : w ∈ vs.foldl addNew values) : w ∈ values ∨ w ∈ vs := by
  induction vs generalizing values with
  | nil => exact .inl h
  | cons v rest ih =>
    rcases ih h with hw | hw
    · rcases mem_addNew hw with hw | rfl
      · exact .inl hw
      · exact .inr List.mem_cons_self
    · exact .inr (List.mem_cons_of_mem _ hw)

/-- Two values of the list are different, whichever is asked first. -/
def Different (v w : Value) : Prop := (v == w) = false ∧ (w == v) = false

theorem pairwise_addNew (h : values.Pairwise Different) (v : Value) :
    (addNew values v).Pairwise Different := by
  unfold addNew
  split
  · exact h
  · next hnew =>
    rw [Bool.not_eq_true, List.any_eq_false] at hnew
    refine List.pairwise_append.2 ⟨h, List.pairwise_singleton _ _, fun w hw u hu => ?_⟩
    cases List.mem_singleton.1 hu
    refine ⟨Bool.eq_false_iff.2 (hnew w hw), Bool.eq_false_iff.2 fun hvw => ?_⟩
    exact hnew w hw (Value.beq_symm hvw)

theorem pairwise_foldl_addNew (h : values.Pairwise Different) (vs : List Value) :
    (vs.foldl addNew values).Pairwise Different := by
  induction vs generalizing values with
  | nil => exact h
  | cons v rest ih => exact ih (pairwise_addNew h v)

/-- Some value of the list equals `w`. -/
def Covered (values : List Value) (w : Value) : Prop := ∃ v ∈ values, (v == w) = true

theorem covered_addNew (h : Covered values w) (v : Value) : Covered (addNew values v) w := by
  obtain ⟨u, hu, huw⟩ := h
  refine ⟨u, ?_, huw⟩
  unfold addNew
  split
  · exact hu
  · exact List.mem_append_left _ hu

theorem covered_addNew_self (hv : (v == v) = true) (values : List Value) :
    Covered (addNew values v) v := by
  unfold addNew
  split
  · next hany => exact List.any_eq_true.1 hany
  · exact ⟨v, List.mem_append_right _ (List.mem_singleton_self v), hv⟩

theorem covered_foldl_addNew (h : Covered values w) (vs : List Value) :
    Covered (vs.foldl addNew values) w := by
  induction vs generalizing values with
  | nil => exact h
  | cons v rest ih => exact ih (covered_addNew h v)

/-- No value is left out. -/
theorem covered_of_mem (hw : (w == w) = true) (h : w ∈ vs) (values : List Value) :
    Covered (vs.foldl addNew values) w := by
  induction vs generalizing values with
  | nil => cases h
  | cons v rest ih =>
    rcases List.mem_cons.1 h with rfl | h
    · exact covered_foldl_addNew (covered_addNew_self hw values) rest
    · exact ih h _

/-! ## The values of a field -/

theorem hasNaN_of_documents (hd : s.documents c = .ok docs) (h : doc ∈ docs) :
    (Value.document doc).hasNaN = false := by
  have hmem := List.mem_map_of_mem (f := Except.ok (ε := StoreFault)) h
  rw [← mapM_eq_ok_iff.1 hd, List.mem_map] at hmem
  obtain ⟨e, -, he⟩ := hmem
  unfold Stored.document Cbor.decodeDocument at he
  cases hv : Cbor.decode e.bytes with
  | error fault => rw [hv] at he; cases he
  | ok v =>
    rw [hv] at he
    cases v with
    | document other =>
      cases he
      exact Cbor.hasNaN_of_decode hv
    | _ => cases he

/-- What a field contributes has no NaN in it. -/
theorem hasNaN_candidates (hn : (Value.document doc).hasNaN = false)
    (h : v ∈ candidates field doc) : v.hasNaN = false := by
  unfold candidates at h
  cases hw : doc.getPath? field with
  | none => rw [hw] at h; cases h
  | some w =>
    have hnan := Document.hasNaN_getPath? hn hw
    rw [hw] at h
    cases w with
    | array items => exact Value.hasNaN_array.1 hnan v h
    | _ =>
      cases List.mem_singleton.1 h
      exact hnan

/-- The values that the matching documents contribute, each once. -/
def contributed (field : String) (filter : Filter) (docs : List Document) : List Value :=
  ((docs.filter (filter.matchesDoc ·)).flatMap (candidates field)).foldl addNew []

theorem distinct_documents (hd : s.documents c = .ok docs) (field : String) (filter : Filter) :
    ((distinct c field filter).run s).1 =
      if s.unavailable then .error (.unavailable c) else .ok (contributed field filter docs) := by
  obtain ⟨found, hfound, hdocs⟩ := ok_of_map (Stored.matching_documents filter hd 0)
  rw [run_distinct, hfound, contributed, ← hdocs, List.flatMap_map]
  rfl

theorem of_mem_contributed (h : v ∈ contributed field filter docs) :
    ∃ doc ∈ docs, filter.matchesDoc doc = true ∧ v ∈ candidates field doc := by
  rcases mem_foldl_addNew h with h | h
  · cases h
  · obtain ⟨doc, hdoc, hv⟩ := List.mem_flatMap.1 h
    rw [List.mem_filter] at hdoc
    exact ⟨doc, hdoc.1, hdoc.2, hv⟩

theorem covered_contributed (hdoc : doc ∈ docs) (hm : filter.matchesDoc doc = true)
    (hn : (Value.document doc).hasNaN = false) (hv : v ∈ candidates field doc) :
    Covered (contributed field filter docs) v := by
  refine covered_of_mem (Value.beq_self (hasNaN_candidates hn hv)) ?_ []
  exact List.mem_flatMap.2 ⟨doc, List.mem_filter.2 ⟨hdoc, hm⟩, hv⟩

/-! ## Values and filters -/

theorem find_both_iff (hd : s.documents c = .ok docs) (hu : s.unavailable = false)
    (filter other : Filter) :
    (∃ found, ((find c (.both [filter, other]) {}).run s).1 = .ok found ∧ found ≠ []) ↔
      ∃ doc ∈ docs, filter.matchesDoc doc = true ∧ other.matchesDoc doc = true := by
  rw [find_documents hu, hd]
  constructor
  · rintro ⟨found, hfound, hne⟩
    cases hfound
    obtain ⟨doc, hdoc⟩ := List.exists_mem_of_ne_nil _ hne
    rw [List.mem_filter, Filter.matches_both] at hdoc
    simp only [List.all_cons, List.all_nil, Bool.and_true, Bool.and_eq_true] at hdoc
    exact ⟨doc, hdoc.1, hdoc.2⟩
  · intro ⟨doc, hdoc, hm, ho⟩
    refine ⟨_, rfl, List.ne_nil_of_mem (List.mem_filter.2 ⟨hdoc, ?_⟩)⟩
    rw [Filter.matches_both]
    simp [hm, ho]

/-- A document is found by a value that it contributes, other than an array. -/
theorem fieldEquals_of_candidate (hv : v.array? = none) (hn : v.hasNaN = false)
    (h : v ∈ candidates field doc) : Filter.fieldEquals doc field v = true := by
  obtain ⟨w, hw⟩ := getPath?_of_candidate h
  rw [Filter.fieldEquals_eq_any hv hw, List.any_eq_true]
  exact ⟨v, h, Filter.same_self hn⟩

theorem fieldEquals_of_beq (h : doc.getPath? field = some w) (hwv : (w == v) = true) :
    Filter.fieldEquals doc field v = true := by
  by_cases hv : v.array? = none
  · have hplain := candidates_of_plain h ((Value.array?_of_beq hwv).2 hv)
    rw [Filter.fieldEquals_eq_any hv h, hplain]
    simp [Filter.same_of_beq hwv]
  · obtain ⟨items, rfl⟩ := Value.eq_array_of_ne hv
    exact Filter.fieldEquals_array.2 ⟨w, h, hwv⟩

theorem matched_iff (hn : ∀ doc ∈ docs, (Value.document doc).hasNaN = false)
    (h : v ∈ contributed field filter docs) :
    (∃ doc ∈ docs, filter.matchesDoc doc = true ∧ Filter.fieldEquals doc field v = true) ↔
      v.array? = none ∨ ∃ doc ∈ docs, filter.matchesDoc doc = true ∧
        ∃ w, doc.getPath? field = some w ∧ (w == v) = true := by
  constructor
  · intro ⟨doc, hdoc, hm, hequals⟩
    by_cases hv : v.array? = none
    · exact .inl hv
    · obtain ⟨items, rfl⟩ := Value.eq_array_of_ne hv
      exact .inr ⟨doc, hdoc, hm, Filter.fieldEquals_array.1 hequals⟩
  · intro hor
    rcases hor with hv | ⟨doc, hdoc, hm, w, hw, hwv⟩
    · obtain ⟨doc, hdoc, hm, hcandidate⟩ := of_mem_contributed h
      have hnan := hasNaN_candidates (hn doc hdoc) hcandidate
      exact ⟨doc, hdoc, hm, fieldEquals_of_candidate hv hnan hcandidate⟩
    · exact ⟨doc, hdoc, hm, fieldEquals_of_beq hw hwv⟩

theorem matching_iff (hw : doc.getPath? field = some w)
    (hcovered : ∀ v ∈ candidates field doc, Covered values v) :
    (∃ v ∈ values, Filter.fieldEquals doc field v = true) ↔
      (∃ v ∈ candidates field doc, v.array? = none) ∨ ∃ v ∈ values, (w == v) = true := by
  constructor
  · intro ⟨v, hv, hequals⟩
    by_cases hplain : v.array? = none
    · rw [Filter.fieldEquals_eq_any hplain hw, List.any_eq_true] at hequals
      obtain ⟨u, hu, hsame⟩ := hequals
      exact .inl ⟨u, hu, (Filter.array?_of_same hsame).2 hplain⟩
    · obtain ⟨items, rfl⟩ := Value.eq_array_of_ne hplain
      obtain ⟨w', hw', hwv⟩ := Filter.fieldEquals_array.1 hequals
      cases hw.symm.trans hw'
      exact .inr ⟨_, hv, hwv⟩
  · intro hor
    rcases hor with ⟨u, hu, hplain⟩ | ⟨v, hv, hwv⟩
    · obtain ⟨v, hv, hvu⟩ := hcovered u hu
      have hsame : Filter.same u v = true := Filter.same_of_beq (Value.beq_symm hvu)
      refine ⟨v, hv, ?_⟩
      rw [Filter.fieldEquals_eq_any ((Filter.array?_of_same hsame).1 hplain) hw, List.any_eq_true]
      exact ⟨u, hu, hsame⟩
    · exact ⟨v, hv, fieldEquals_of_beq hw hwv⟩

/-- The values of a field are all different. The search for one of them finds a document
unless it is an array, and no matching document has it as the whole of its field. And
a matching document with the field is found by one of the values unless its field
contributes only arrays, and none of the values is the whole of it. -/
theorem distinct_iff (hd : s.documents c = .ok docs) (field : String) (filter : Filter) :
    ((∃ values, ((distinct c field filter).run s).1 = .ok values) ↔ s.unavailable = false) ∧
    ∀ values, ((distinct c field filter).run s).1 = .ok values →
      values.Pairwise Different ∧
      (∀ v ∈ values,
        (∃ found, ((find c (.both [filter, .eq field v]) {}).run s).1 = .ok found ∧ found ≠ []) ↔
          v.array? = none ∨ ∃ doc ∈ docs, filter.matchesDoc doc = true ∧
            ∃ w, doc.getPath? field = some w ∧ (w == v) = true) ∧
      ∀ doc ∈ docs, filter.matchesDoc doc = true → ∀ w, doc.getPath? field = some w →
        ((∃ v ∈ values, (Filter.eq field v).matchesDoc doc = true) ↔
          (∃ v ∈ candidates field doc, v.array? = none) ∨ ∃ v ∈ values, (w == v) = true) := by
  have hn : ∀ doc ∈ docs, (Value.document doc).hasNaN = false :=
    fun doc hdoc => hasNaN_of_documents hd hdoc
  rw [distinct_documents hd]
  cases hu : s.unavailable with
  | true => simp
  | false =>
    refine ⟨iff_of_true ⟨_, rfl⟩ rfl, fun values hvalues => ?_⟩
    cases hvalues
    refine ⟨pairwise_foldl_addNew .nil _, fun v hv => ?_, fun doc hdoc hm w hw => ?_⟩
    · rw [find_both_iff hd hu]
      exact matched_iff hn hv
    · exact matching_iff hw fun v hv => covered_contributed hdoc hm (hn doc hdoc) hv

/-- A document with an array in an array. -/
def grid : Document := ⟨[("rows", .array [.array [.integer 1]])]⟩

/-- A store that holds it. -/
def grids : Store := ((insertOne "grids" grid (.ofParts 1 1)).run empty).2

/-- The inner array is a value of the field, and the document is not found by it. -/
theorem distinct_grids : ∃ docs, grids.documents "grids" = .ok docs ∧
    ((distinct "grids" "rows" .all).run grids).1 = .ok [.array [.integer 1]] ∧
    ¬ ∃ found, ((find "grids" (.both [.all, .eq "rows" (.array [.integer 1])]) {}).run grids).1 =
      .ok found ∧ found ≠ [] := by
  have hread : grids.documents "grids" = .ok [(grid.withId none (.ofParts 1 1)).canonical] := by rfl
  have hvalues : ((distinct "grids" "rows" .all).run grids).1 = .ok [.array [.integer 1]] := by rfl
  obtain ⟨-, hanswer⟩ := distinct_iff hread "rows" .all
  obtain ⟨-, hfound, -⟩ := hanswer _ hvalues
  refine ⟨_, hread, hvalues, ?_⟩
  rw [hfound _ List.mem_cons_self]
  rintro (hplain | ⟨doc, hdoc, -, w, hw, hwv⟩)
  · cases hplain
  · cases List.mem_singleton.1 hdoc
    cases hw
    cases hwv

end Store
end Folio
