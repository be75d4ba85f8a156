import Folio.Proofs.Run
import Folio.Proofs.Value.Equality
import Folio.Proofs.Value.Paths

/-!
# Fields as updates and filters name them

An update takes the name of a field as it is, and a filter takes it for a
dotted path. The two mean one field where the name has no dot: what an update
sets is found there, and what it takes away is missing there. A field with a
dot in its name can be written, but no filter sees it, and an update never
reaches into a nested document.

Results:
* `matchesDoc_congr`: documents that are the same to every path are the same to
  every filter.
* `Change.getPath?_apply_dotted`: no path tells that a field with a dotted name
  was changed.
* `addressed_iff`: when what an update did to a field is seen by a filter on it.
-/
namespace Folio

variable {doc other next : Document} {field : String} {v : Value} {change : Change}

namespace Filter

mutual

/-- Documents that are the same to every path are the same to every filter. -/
theorem matchesDoc_congr (h : ∀ path, doc.getPath? path = other.getPath? path) :
    ∀ filter : Filter, filter.matchesDoc doc = filter.matchesDoc other
  | all => rfl
  | eq field value => by simp only [matchesDoc, fieldEquals, h]
  | ne field value => by simp only [matchesDoc, fieldEquals, h]
  | isIn field values => by simp only [matchesDoc, fieldEquals, h]
  | gt field value => by simp only [matchesDoc, fieldCompares, h]
  | lt field value => by simp only [matchesDoc, fieldCompares, h]
  | .exists field present => by simp only [matchesDoc, h]
  | and parts => by simp only [matchesDoc, matchesAll_congr h parts]
  | or parts => by simp only [matchesDoc, matchesAny_congr h parts]

theorem matchesAll_congr (h : ∀ path, doc.getPath? path = other.getPath? path) :
    ∀ parts : List Filter, matchesAll doc parts = matchesAll other parts
  | [] => rfl
  | f :: rest => by simp only [matchesAll, matchesDoc_congr h f, matchesAll_congr h rest]

theorem matchesAny_congr (h : ∀ path, doc.getPath? path = other.getPath? path) :
    ∀ parts : List Filter, matchesAny doc parts = matchesAny other parts
  | [] => rfl
  | f :: rest => by simp only [matchesAny, matchesDoc_congr h f, matchesAny_congr h rest]

end

theorem same_self (hn : v.hasNaN = false) : same v v = true := by
  rw [same, Value.beq_self hn, Bool.true_or]

/-- A field is found by the value that it holds. -/
theorem fieldEquals_self {path : String} (h : doc.getPath? path = some v) (hn : v.hasNaN = false) :
    fieldEquals doc path v = true := by
  unfold fieldEquals
  rw [h]
  cases v with
  | array items => exact same_self hn
  | _ => exact same_self hn

theorem exists_false_iff {path : String} :
    (Filter.exists path false).matchesDoc doc = true ↔ doc.getPath? path = none := by
  simp [matchesDoc]

end Filter

/-! ## Changes -/

namespace Change

/-- The fields of a document that is changed, but for the one that is. -/
theorem get?_apply_ne (h : change.apply doc = .ok next) {key : String} (hne : key ≠ change.field) :
    next.get? key = doc.get? key := by
  unfold apply at h
  split at h
  · cases h
  · cases change with
    | set field value =>
      cases h
      exact (Document.get?_insert ..).trans (if_neg hne)
    | unset field =>
      cases h
      exact Document.get?_erase hne
    | inc field amount =>
      obtain ⟨sum, -, h⟩ := ok_of_bind h
      cases h
      exact (Document.get?_insert ..).trans (if_neg hne)

/-- No path tells that a field with a dotted name was changed. -/
theorem getPath?_apply_dotted (hdot : '.' ∈ change.field.toList) (h : change.apply doc = .ok next)
    (path : String) : next.getPath? path = doc.getPath? path :=
  Document.getPath?_congr (fun _ hk => get?_apply_ne h (Document.ne_of_dotted hk hdot)) path

/-- A field is set unless it is the id. -/
theorem apply_set_iff :
    (set field v).apply doc = .ok next ↔ field ≠ idField ∧ next = doc.insert field v := by
  unfold apply
  by_cases h : field = idField
  · simp [Change.field, h]
  · simp [Change.field, h, eq_comm]

theorem apply_unset_iff :
    (unset field).apply doc = .ok next ↔ field ≠ idField ∧ next = doc.erase field := by
  unfold apply
  by_cases h : field = idField
  · simp [Change.field, h]
  · simp [Change.field, h, eq_comm]

end Change

namespace Update

theorem apply_singleton (change : Change) (doc : Document) :
    Update.apply [change] doc = change.apply doc := by
  unfold Update.apply
  rw [run]
  cases change.apply doc <;> rfl

/-- No filter tells that a field with a dotted name was changed. -/
theorem matchesDoc_apply_dotted (change : Change) (hdot : '.' ∈ change.field.toList)
    (h : Update.apply [change] doc = .ok next) (filter : Filter) :
    filter.matchesDoc next = filter.matchesDoc doc := by
  rw [apply_singleton] at h
  exact Filter.matchesDoc_congr (Change.getPath?_apply_dotted hdot h) filter

/-- Which fields filters see as an update left them. An update succeeds for every
name but that of the id. What it set is found under the name, and what it took
away is missing there, if the name has no dot; otherwise the filter answers what
it answered before the update, and so does every other filter. -/
theorem addressed_iff (hd : doc.Distinct) (hn : v.hasNaN = false) (field : String) :
    ((∃ next, Update.apply [.set field v] doc = .ok next) ↔ field ≠ idField) ∧
    ((∃ next, Update.apply [.unset field] doc = .ok next) ↔ field ≠ idField) ∧
    (∀ next, Update.apply [.set field v] doc = .ok next →
      ((Filter.eq field v).matchesDoc next = true ↔
        '.' ∉ field.toList ∨ (Filter.eq field v).matchesDoc doc = true)) ∧
    (∀ next, Update.apply [.unset field] doc = .ok next →
      ((Filter.exists field false).matchesDoc next = true ↔
        '.' ∉ field.toList ∨ (Filter.exists field false).matchesDoc doc = true)) ∧
    ∀ change next, change.field = field → '.' ∈ field.toList →
      Update.apply [change] doc = .ok next →
      ∀ filter : Filter, filter.matchesDoc next = filter.matchesDoc doc := by
  refine ⟨?succeeds, ?removes, ?set, ?unset, ?unseen⟩
  case succeeds => simp only [apply_singleton, Change.apply_set_iff, exists_and_left, exists_eq,
    and_true]
  case removes => simp only [apply_singleton, Change.apply_unset_iff, exists_and_left, exists_eq,
    and_true]
  case set =>
    intro next h
    by_cases hdot : '.' ∈ field.toList
    · rw [matchesDoc_apply_dotted (.set field v) hdot h]
      simp [hdot]
    · rw [apply_singleton, Change.apply_set_iff] at h
      have hfound : next.getPath? field = some v := by
        rw [h.2, Document.getPath?_insert_plain hdot]
      exact iff_of_true (Filter.fieldEquals_self hfound hn) (.inl hdot)
  case unset =>
    intro next h
    by_cases hdot : '.' ∈ field.toList
    · rw [matchesDoc_apply_dotted (.unset field) hdot h]
      simp [hdot]
    · rw [apply_singleton, Change.apply_unset_iff] at h
      have hmissing : next.getPath? field = none := by
        rw [h.2, Document.getPath?_erase_plain hd hdot]
      exact iff_of_true (Filter.exists_false_iff.2 hmissing) (.inl hdot)
  case unseen =>
    intro change next hfield hdot h
    exact matchesDoc_apply_dotted change (hfield ▸ hdot) h

/-- A document with a field in a document in it. -/
def crate : Document := ⟨[("_id", .integer 1), ("box", .document ⟨[("size", .integer 2)]⟩)]⟩

/-- Its `box` is set and found, and its `box.size` is set and found as it was. -/
theorem addressed_crate :
    crate.Distinct ∧ (Value.integer 3).hasNaN = false ∧
    (∀ next, Update.apply [.set "box" (.integer 3)] crate = .ok next →
      (Filter.eq "box" (.integer 3)).matchesDoc next = true) ∧
    ∀ next, Update.apply [.set "box.size" (.integer 3)] crate = .ok next →
      (Filter.eq "box.size" (.integer 2)).matchesDoc next = true := by
  have hd : crate.Distinct := by unfold Document.Distinct; decide
  have hn : (Value.integer 3).hasNaN = false := rfl
  refine ⟨hd, hn, fun next h => ?_, fun next h => ?_⟩
  · obtain ⟨-, -, hset, -⟩ := addressed_iff hd hn "box"
    exact (hset next h).2 (.inl (by decide))
  · obtain ⟨-, -, -, -, hunseen⟩ := addressed_iff hd hn "box.size"
    rw [hunseen _ next rfl (by decide) h]
    rfl

/-- A field named `a.b` is set, and a filter on `a.b` does not find the value;
taking `a.b` away leaves what stands at the end of this path. -/
theorem dotted_unmatched :
    (∃ next, Update.apply [.set "a.b" (.integer 1)] ⟨[]⟩ = .ok next ∧
      ¬ (Filter.eq "a.b" (.integer 1)).matchesDoc next = true) ∧
    ∃ next, Update.apply [.unset "a.b"] ⟨[("a", .document ⟨[("b", .integer 1)]⟩)]⟩ = .ok next ∧
      ¬ (Filter.exists "a.b" false).matchesDoc next = true :=
  ⟨⟨⟨[("a.b", .integer 1)]⟩, rfl, by decide⟩,
    ⟨⟨[("a", .document ⟨[("b", .integer 1)]⟩)]⟩, rfl, by decide⟩⟩

end Update
end Folio
