import Folio.Proofs.Value.WellNamed

/-!
# Names and paths

A dotted path is cut at its dots into names, so none of the names that it goes
through has a dot. A name without dots is a path of one step, and a name with a
dot is reached by no path at all.

Results:
* `getPath?_plain`: a path without dots is a name.
* `getPath?_congr`: what stands at the end of a path depends on the fields
  whose names have no dot.
* `getPath?_insert_plain`, `getPath?_erase_plain`: a field that was put in is at the
  end of its path, and one that was taken out is absent.
* `hasNaN_getPath?`: what stands at the end of a path is part of the document.
-/
namespace Folio.Document

variable {doc other : Document} {field path : String} {v : Value}

/-! ## Cutting a path -/

theorem splitDots_plain {cs : List Char} (h : '.' ∉ cs) : splitDots cs = (cs, []) := by
  induction cs with
  | nil => rfl
  | cons a rest ih =>
    obtain ⟨ha, hrest⟩ := not_or.1 (mt List.mem_cons.2 h)
    rw [splitDots, ih hrest]
    exact if_neg (Ne.symm ha)

/-- The first name of a path has no dot. -/
theorem dot_notMem_splitDots (cs : List Char) : '.' ∉ (splitDots cs).1 := by
  induction cs with
  | nil => simp [splitDots]
  | cons a rest ih =>
    rw [splitDots]
    by_cases h : a = '.'
    · simp [h]
    · simp [h, ih, Ne.symm h]

/-- A path without dots is a name. -/
theorem getPath?_plain (doc : Document) (h : '.' ∉ field.toList) :
    doc.getPath? field = doc.get? field := by
  rw [getPath?, splitDots_plain h]
  show doc.get? (String.ofList field.toList) = doc.get? field
  rw [String.ofList_toList]

/-! ## What a path depends on -/

theorem walk_congr {first : String} (h : doc.get? first = other.get? first) (rest : List String) :
    doc.walk first rest = other.walk first rest := by
  cases rest with
  | nil => exact h
  | cons next rest => rw [walk, walk, h]

/-- Documents with the same fields under names without dots are the same to
every path. -/
theorem getPath?_congr (h : ∀ key : String, '.' ∉ key.toList → doc.get? key = other.get? key)
    (path : String) : doc.getPath? path = other.getPath? path := by
  have hfirst : '.' ∉ (String.ofList (splitDots path.toList).1).toList := by
    rw [String.toList_ofList]
    exact dot_notMem_splitDots path.toList
  exact walk_congr (h _ hfirst) _

theorem ne_of_dotted {key : String} (hk : '.' ∉ key.toList) (h : '.' ∈ field.toList) :
    key ≠ field := by
  intro heq
  rw [heq] at hk
  exact hk h

/-! ## Fields put in and taken out -/

theorem getPath?_insert_plain (h : '.' ∉ field.toList) (v : Value) :
    (doc.insert field v).getPath? field = some v := by
  rw [getPath?_plain _ h, get?_insert, if_pos rfl]

theorem lookup_eq_none {key : String} {fields : List (String × Value)}
    (h : key ∉ fields.map (·.1)) : lookup key fields = none := by
  cases hl : lookup key fields with
  | none => rfl
  | some v => exact absurd (List.mem_map_of_mem (mem_of_lookup hl)) h

/-- A field that was taken out is absent, where each name stands once. -/
theorem lookup_drop_self {key : String} {fields : List (String × Value)}
    (h : (fields.map (·.1)).Nodup) : lookup key (drop key fields) = none := by
  induction fields with
  | nil => rfl
  | cons f rest ih =>
    obtain ⟨k, v⟩ := f
    obtain ⟨hk, hrest⟩ := List.nodup_cons.1 h
    rw [drop]
    by_cases heq : k = key
    · rw [if_pos heq]
      exact lookup_eq_none (heq ▸ hk)
    · rw [if_neg heq, lookup, if_neg heq, ih hrest]

theorem getPath?_erase_plain (hd : doc.Distinct) (h : '.' ∉ field.toList) :
    (doc.erase field).getPath? field = none := by
  rw [getPath?_plain _ h]
  exact lookup_drop_self hd

/-! ## Values at the end of a path -/

theorem hasNaN_get? {key : String} (hn : (Value.document doc).hasNaN = false)
    (h : doc.get? key = some v) : v.hasNaN = false := by
  obtain ⟨fields⟩ := doc
  exact Value.hasNaN_document.1 hn _ (mem_of_lookup h)

theorem hasNaN_walk {first : String} {rest : List String}
    (hn : (Value.document doc).hasNaN = false) (h : doc.walk first rest = some v) :
    v.hasNaN = false := by
  induction rest generalizing doc first with
  | nil => exact hasNaN_get? hn h
  | cons next rest ih =>
    rw [walk, Option.bind_eq_bind, Option.bind_eq_some_iff] at h
    obtain ⟨w, hw, h⟩ := h
    rw [Option.bind_eq_bind, Option.bind_eq_some_iff] at h
    obtain ⟨inner, hinner, h⟩ := h
    have hdoc : w = .document inner := by
      cases w <;> cases hinner
      rfl
    exact ih (hdoc ▸ hasNaN_get? hn hw) h

/-- There is no NaN at the end of a path in a document without NaN. -/
theorem hasNaN_getPath? (hn : (Value.document doc).hasNaN = false)
    (h : doc.getPath? path = some v) : v.hasNaN = false :=
  hasNaN_walk hn h

end Folio.Document
