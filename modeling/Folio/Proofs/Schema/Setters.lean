import Folio.Proofs.Schema.Descriptors
import Folio.Proofs.Schema.Methods

/-!
# Setters

Methods of a class differ in their names or their numbers of parameters, and no
name is that of a setter and of another accessor. So a setter is found by its
name.

Results:
* `accessor?_of_mem`: a setter is found by its name.
-/
namespace Folio

variable {s : Schema} {c : ClassRef}

namespace Accessor

theorem eq_append_of_go {lead cs rest : List Char} (h : suffix?.go lead cs = some rest) :
    cs = lead ++ rest := by
  induction lead generalizing cs with
  | nil =>
    cases h
    rfl
  | cons a lead ih =>
    cases cs with
    | nil => cases h
    | cons b cs =>
      rw [suffix?.go] at h
      split at h
      · next hab => rw [hab, ih h, List.cons_append]
      · cases h

theorem eq_append_of_suffix? {lead name rest : String} (h : suffix? lead name = some rest) :
    ∃ cs, name.toList = lead.toList ++ cs := by
  unfold suffix? at h
  split at h
  · next c cs hgo => exact ⟨c :: cs, eq_append_of_go hgo⟩
  · cases h

/-- A setter has one parameter, and its name begins as names of setters do. -/
theorem of_write {m : Method} {property : String} {t : ValueType}
    (h : ofMethod? m = some (.write property t)) :
    m.params = [t] ∧ ∃ cs, m.name.toList = 's' :: cs := by
  unfold ofMethod? at h
  split at h
  · split at h
    · cases h
    · split at h
      · obtain ⟨rest, -, hr⟩ := Option.map_eq_some_iff.1 h
        cases hr
      · cases h
  · next param hparams _ =>
    obtain ⟨rest, hrest, hr⟩ := Option.map_eq_some_iff.1 h
    cases hr
    obtain ⟨cs, hcs⟩ := eq_append_of_suffix? hrest
    exact ⟨hparams, 'e' :: 't' :: cs, hcs⟩
  · cases h

/-- The name of an accessor without parameters begins otherwise. -/
theorem of_no_params {m : Method} {a : Accessor} (h : ofMethod? m = some a) (hp : m.params = []) :
    ∀ cs, m.name.toList ≠ 's' :: cs := by
  intro cs hcs
  unfold ofMethod? at h
  rw [hp] at h
  dsimp only at h
  split at h
  · next hclone =>
    rw [hclone] at hcs
    cases hcs
  · split at h
    · obtain ⟨rest, hrest, -⟩ := Option.map_eq_some_iff.1 h
      split at hrest
      · obtain ⟨rest, hr⟩ := eq_append_of_suffix? hrest
        cases hcs.symm.trans hr
      · obtain ⟨rest, hr⟩ := eq_append_of_suffix? hrest
        cases hcs.symm.trans hr
    · cases h

end Accessor

namespace Descriptor

/-- A setter is found by its name. -/
theorem accessor?_of_mem {name property : String} {t : ValueType}
    (h : (name, .write property t) ∈ (ofClass s c).accessors) :
    (ofClass s c).accessor? name = some (.write property t) := by
  obtain ⟨m, hm, hname, hwrite⟩ := mem_accessors h
  obtain ⟨hparams, cs, hcs⟩ := Accessor.of_write hwrite
  unfold accessor?
  cases hl : (ofClass s c).accessors.lookup name with
  | none =>
    have := List.lookup_eq_none_iff.1 hl _ h
    simp at this
  | some a =>
    obtain ⟨other, hmem, hother⟩ := mem_of_lookup hl
    rw [← eq_of_beq hother] at hmem
    obtain ⟨n, hn, hname', ha⟩ := mem_accessors hmem
    have hsame : m = n := by
      refine Schema.eq_of_mem_allMethods hm hn (Prod.ext (hname.trans hname'.symm) ?_)
      show m.params.length = n.params.length
      rw [hparams]
      match hp : n.params with
      | [] =>
        rw [hname.trans hname'.symm] at hcs
        exact absurd hcs (Accessor.of_no_params ha hp cs)
      | [_] => rfl
      | _ :: _ :: _ =>
        unfold Accessor.ofMethod? at ha
        rw [hp] at ha
        cases ha
    rw [← ha, ← hsame, hwrite]

end Descriptor
end Folio
