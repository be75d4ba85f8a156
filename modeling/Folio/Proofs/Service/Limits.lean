import Mathlib.Data.List.Chain
import Folio.Service.Pipeline

/-!
# Names and descriptions that are allowed

A name is allowed if it is set, of a length within its bounds, and without stray
whitespace; these are the names that have no faults. A description is allowed if it
has more than whitespace and its length is within its bound.

Results:
* `admits_iff`: the names that have no faults.
* `Limits.Allow`: the names and descriptions that are allowed.
-/
namespace Folio

/-! ## Names -/

/-- The characters are not both whitespace. -/
def Text.Apart (a b : Char) : Prop := isBlank a = true → isBlank b = false

namespace NameBounds

/-- The name is not empty, its length in characters is within the bounds, it neither
begins nor ends with whitespace, and no two whitespace characters of it stand side
by side. -/
structure Admits (b : NameBounds) (name : String) : Prop where
  nonempty : name ≠ ""
  least : ∀ n ∈ b.least, n ≤ name.length
  most : ∀ n ∈ b.most, name.length ≤ n
  starts : ∀ c ∈ name.toList.head?, Text.isBlank c = false
  ends : ∀ c ∈ name.toList.getLast?, Text.isBlank c = false
  apart : name.toList.IsChain Text.Apart

/-- Bounds that are not the wrong way round are taken as they are. -/
theorem eq_of_bounds {least most : Option Nat} {b : NameBounds} (h : of? least most = .ok b) :
    b = ⟨least, most⟩ := by
  unfold of? at h
  split at h
  · split at h <;> cases h
    rfl
  · cases h
    rfl

theorem strayTail_eq_nil_iff {after : Bool} {cs : List Char} :
    strayTail after cs = [] ↔ (after = true → ∀ c ∈ cs.head?, Text.isBlank c = false) ∧
      cs.IsChain Text.Apart ∧ ∀ c ∈ cs.getLast?, Text.isBlank c = false := by
  induction cs generalizing after with
  | nil => simp [strayTail]
  | cons c rest ih =>
    rw [strayTail]
    cases rest with
    | nil => cases hc : Text.isBlank c <;> simp [hc, strayTail]
    | cons d rest =>
      rw [List.isChain_cons_cons, List.getLast?_cons_cons, Text.Apart]
      cases hc : Text.isBlank c with
      | false =>
        rw [if_pos (by rfl), ih]
        simp [hc]
      | true =>
        rw [if_neg (by simp), if_neg (by simp)]
        cases after with
        | true => simp [hc]
        | false =>
          rw [if_neg (by simp), ih]
          simp [and_assoc]

theorem stray_eq_nil_iff {cs : List Char} :
    stray cs = [] ↔ (∀ c ∈ cs.head?, Text.isBlank c = false) ∧
      (∀ c ∈ cs.getLast?, Text.isBlank c = false) ∧ cs.IsChain Text.Apart := by
  cases cs with
  | nil => simp [stray]
  | cons c rest =>
    rw [stray, List.append_eq_nil_iff, strayTail_eq_nil_iff]
    cases rest with
    | nil => cases hc : Text.isBlank c <;> simp [hc]
    | cons d rest =>
      rw [List.isChain_cons_cons, List.getLast?_cons_cons, Text.Apart]
      cases hc : Text.isBlank c <;> simp [hc, and_comm]

theorem lengthFaults_eq_nil_iff {b : NameBounds} {n : Nat} :
    b.lengthFaults n = [] ↔ (∀ least ∈ b.least, least ≤ n) ∧ ∀ most ∈ b.most, n ≤ most := by
  have hleast : b.least.filter (n < ·) = none ↔ ∀ least ∈ b.least, least ≤ n := by
    simp [Option.filter_eq_none_iff]
  have hmost : b.most.filter (· < n) = none ↔ ∀ most ∈ b.most, n ≤ most := by
    simp [Option.filter_eq_none_iff]
  rw [← hleast, ← hmost, lengthFaults]
  cases b.least.filter (n < ·) <;> cases b.most.filter (· < n) <;> simp

/-- The names that are allowed are those that are not blank and have no faults. -/
theorem admits_iff {b : NameBounds} {name : String} :
    b.Admits name ↔ isBlankText (some name) = false ∧ b.faults name.toList = [] := by
  rw [faults, List.append_eq_nil_iff, stray_eq_nil_iff, lengthFaults_eq_nil_iff, String.length_toList]
  constructor
  · intro h
    refine ⟨eq_false_of_ne_true fun hblank => ?_, ⟨h.starts, h.ends, h.apart⟩, h.least, h.most⟩
    cases hname : name.toList with
    | nil => exact h.nonempty (String.toList_eq_nil_iff.1 hname)
    | cons c rest =>
      have hc := List.all_eq_true.1 hblank c (hname ▸ List.mem_cons_self)
      rw [h.starts c (by rw [hname]; rfl)] at hc
      cases hc
  · rintro ⟨hblank, ⟨hstarts, hends, hapart⟩, hleast, hmost⟩
    refine ⟨?_, hleast, hmost, hstarts, hends, hapart⟩
    rintro rfl
    cases hblank

end NameBounds

/-! ## Descriptions -/

/-- The names and descriptions that a service allows. -/
structure Limits where
  name : NameBounds
  description : Option Nat

namespace Limits

/-- The limits that are configured. -/
def ofConfig (config : Config) : Limits :=
  ⟨⟨config.nameLeast, config.nameMost⟩, config.descriptionMost⟩

/-- The description has more than whitespace, and its length in characters is within
the bound. -/
structure Describes (limits : Limits) (description : String) : Prop where
  visible : ∃ c ∈ description.toList, Text.isBlank c = false
  most : ∀ n ∈ limits.description, description.length ≤ n

/-- The descriptions that are allowed are those that are not blank and not too long. -/
theorem describes_iff {limits : Limits} {description : String} :
    limits.Describes description ↔ isBlankText (some description) = false ∧
      limits.description.filter (· < description.length) = none := by
  have hvisible : isBlankText (some description) = false ↔
      ∃ c ∈ description.toList, Text.isBlank c = false := by
    simp [isBlankText]
  have hmost : limits.description.filter (· < description.length) = none ↔
      ∀ n ∈ limits.description, description.length ≤ n := by
    simp [Option.filter_eq_none_iff]
  rw [hvisible, hmost]
  exact ⟨fun h => ⟨h.visible, h.most⟩, fun h => ⟨h.1, h.2⟩⟩

/-- The name is set and allowed, and the description is absent or allowed. -/
structure Allow (limits : Limits) (name description : Option String) : Prop where
  name : ∃ n ∈ name, limits.name.Admits n
  description : ∀ d ∈ description, limits.Describes d

end Limits

end Folio
