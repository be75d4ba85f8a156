import Folio.Proofs.Value.Comparing
import Mathlib.Algebra.Group.Nat.Defs

/-!
# The order of numbers

Any two numbers are compared, and alike in both directions. Three numbers can be
out of order in one way only: two different integers with the double between them
that both are rounded to. Each of them is equal to the double, and they are not
equal to each other. Integers up to 2^53 are not rounded, so one of the two lies
beyond.

Results:
* `Conflates.beyond`: integers that one double stands for are large.
* `numbers_transitive_iff`: when the order of three numbers is consistent.
-/
namespace Folio.Value

open Number

variable {x y z : Value}

theorem Conflates.symm (h : y.Conflates x z) : y.Conflates z x := by
  obtain ⟨d, m, n, hy, hx, hz, hm, hn⟩ := h
  exact ⟨d, n, m, hy, hz, hx, hn, hm⟩

/-- Of two different integers that are rounded to one double, one is beyond 2^53. -/
theorem Conflates.beyond (h : y.Conflates x z) (hne : x.compare? z ≠ some .eq) :
    ∃ n : Int64, (x = integer n ∨ z = integer n) ∧ 2 ^ 53 < n.toInt.natAbs := by
  obtain ⟨d, m, n, rfl, rfl, rfl, hm, hn⟩ := h
  by_cases hfar : 2 ^ 53 < m.toInt.natAbs
  · exact ⟨m, .inl rfl, hfar⟩
  · refine ⟨n, .inr rfl, Nat.lt_of_not_ge fun hnear => hne ?_⟩
    obtain ⟨-, -, hrm⟩ := Floating.beq_iff.1 hm
    obtain ⟨-, -, hrn⟩ := Floating.beq_iff.1 hn
    have heq : m.toInt = n.toInt := Floating.rank_ofInt_inj (f := .binary64) (by decide) (by decide)
      (by decide) (Nat.le_of_not_gt hfar) hnear (hrm.trans hrn.symm)
    rw [compare?_integer, heq, Std.ReflOrd.compare_self]

theorem compare?_total (hx : x.family? = some .number) (hy : y.family? = some .number) :
    ∃ o, x.compare? y = some o ∧ y.compare? x = some o.swap := by
  obtain ⟨o, ho⟩ := exists_compare? hx hy
  exact ⟨o, ho, by rw [compare?_swap, ho, Option.map_some]⟩

/-- A number between two others in the other order is the double that both are rounded to. -/
theorem between_numbers_iff (hx : x.family? = some .number) (hy : y.family? = some .number)
    (hxz : x.compare? z = some .gt) :
    (x.compare? y ≠ some .gt ∧ y.compare? z ≠ some .gt) ↔ y.Conflates x z := by
  rw [between_iff hxz, hx, hy]
  simp

/-- A number that equals two different numbers is the double that both are rounded to. -/
theorem equal_to_both_iff (hx : x.family? = some .number) (hy : y.family? = some .number)
    (hz : z.family? = some .number) (hxz : x.compare? z ≠ some .eq) :
    (x.compare? y = some .eq ∧ y.compare? z = some .eq) ↔ y.Conflates x z := by
  refine ⟨fun ⟨hxy, hyz⟩ => ?_, Conflates.compare?⟩
  obtain ⟨o, ho, hback⟩ := compare?_total hx hz
  cases o with
  | eq => exact absurd ho hxz
  | gt => exact (between_numbers_iff hx hy ho).1 ⟨by simp [hxy], by simp [hyz]⟩
  | lt =>
    refine ((between_numbers_iff hz hy hback).1 ⟨?_, ?_⟩).symm
    · rw [compare?_swap, hyz]
      simp
    · rw [compare?_swap, hxy]
      simp

/-- Any two numbers are compared, alike in both directions. Of three, the first is not
greater than the last where it is not greater than the second and that is not greater than
the last, unless the second is the double that the two others are rounded to, integers of
which the first is greater; and the first equals the last where both equal the second,
unless that is the double that they are rounded to, different integers, one of them beyond
2^53. -/
theorem numbers_transitive_iff (hx : x.family? = some .number) (hy : y.family? = some .number)
    (hz : z.family? = some .number) :
    (∃ o, x.compare? y = some o ∧ y.compare? x = some o.swap) ∧
    ((x.compare? y ≠ some .gt → y.compare? z ≠ some .gt → x.compare? z ≠ some .gt) ↔
      ¬ (y.Conflates x z ∧ x.compare? z = some .gt)) ∧
    ((x.compare? y = some .eq → y.compare? z = some .eq → x.compare? z = some .eq) ↔
      ¬ (y.Conflates x z ∧ x.compare? z ≠ some .eq)) ∧
    (y.Conflates x z → x.compare? z ≠ some .eq →
      ∃ n : Int64, (x = integer n ∨ z = integer n) ∧ 2 ^ 53 < n.toInt.natAbs) := by
  refine ⟨compare?_total hx hy, ?_, ?_, Conflates.beyond⟩
  · constructor
    · intro h ⟨hc, hgt⟩
      obtain ⟨hxy, hyz⟩ := (between_numbers_iff hx hy hgt).2 hc
      exact h hxy hyz hgt
    · intro h hxy hyz hgt
      exact h ⟨(between_numbers_iff hx hy hgt).1 ⟨hxy, hyz⟩, hgt⟩
  · constructor
    · intro h ⟨hc, hne⟩
      obtain ⟨hxy, hyz⟩ := (equal_to_both_iff hx hy hz hne).2 hc
      exact hne (h hxy hyz)
    · intro h hxy hyz
      exact Decidable.not_not.1 fun hne => h ⟨(equal_to_both_iff hx hy hz hne).1 ⟨hxy, hyz⟩, hne⟩

/-- The double 2^53 equals the integers 2^53 + 1 and 2^53, of which one is greater. -/
theorem numbers_not_transitive :
    ∃ x y z : Value, x.family? = some .number ∧ y.family? = some .number ∧
      z.family? = some .number ∧ x.compare? z = some .gt ∧
      ¬ (x.compare? y ≠ some .gt → y.compare? z ≠ some .gt → x.compare? z ≠ some .gt) ∧
      ¬ (x.compare? y = some .eq → y.compare? z = some .eq → x.compare? z = some .eq) := by
  let x := integer 9007199254740993
  let y := double (.ofBits 0x4340000000000000)
  let z := integer 9007199254740992
  have hc : y.Conflates x z := ⟨_, _, _, rfl, rfl, rfl, by decide +kernel, by decide +kernel⟩
  have hgt : x.compare? z = some .gt := rfl
  obtain ⟨-, hle, heq, -⟩ := numbers_transitive_iff (x := x) (y := y) (z := z) rfl rfl rfl
  exact ⟨x, y, z, rfl, rfl, rfl, hgt, fun h => hle.1 h ⟨hc, hgt⟩,
    fun h => heq.1 h ⟨hc, by simp [hgt]⟩⟩

end Folio.Value
