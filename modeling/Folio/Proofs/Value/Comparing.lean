import Folio.Proofs.Number.Rounding
import Folio.Value.Basic

/-!
# The order of values

Values are compared within families: numbers with numbers, and values of any
other type with those of their type. In a family values go by keys, and a number
goes by its place among the doubles; but two integers are compared exactly, and
rounding may give one double to both of them. A NaN, an array or a document is
compared with nothing.

So where one value is greater than another, a third is found between them,
neither less than the first nor greater than the second, in two ways: it is of
another family, or it is the double that two integers are rounded to.

Results:
* `family_of_compare?`, `compare?_of_family`: what is compared with what.
* `compare?_eq_cmp`, `isLE_cmp`: in a family the order is that of the keys.
* `compare?_swap`: two values compare alike in both directions.
* `between_iff`: what can stand between two values whose order is the other one.
-/
namespace Folio

open Number

/-- The families that values are compared in. -/
inductive Family where
  | null
  | bool
  | number
  | text
  | bytes
  | objectId
  | dateTime
  deriving DecidableEq, Repr

namespace Value

/-- The family of a value; none for what is compared with nothing. -/
def family? : Value → Option Family
  | null => some .null
  | bool _ => some .bool
  | integer _ => some .number
  | double d => if d.isNaN then none else some .number
  | text _ => some .text
  | bytes _ => some .bytes
  | objectId _ => some .objectId
  | dateTime _ => some .dateTime
  | array _ | document _ => none

/-- The types whose values are all compared with one another, other than null. -/
def orderedTypes : List String := ["bool", "integer", "text", "bytes", "objectId", "dateTime"]

/-- Whether `y` is the double that the integers `x` and `z` are both rounded
to. -/
def Conflates (y x z : Value) : Prop :=
  ∃ d m n, y = double d ∧ x = integer m ∧ z = integer n ∧
    (Floating.ofInt m.toInt == d) = true ∧ (Floating.ofInt n.toInt == d) = true

end Value

/-- The order of the values of a family by their keys. -/
def Family.cmp : Family → Value → Value → Ordering
  | .null => fun _ _ => .eq
  | .bool => compareOn fun v => v.bool?.getD false
  | .number => compareOn fun v => (v.widen?.getD default).rank
  | .text => compareOn fun v => Bytes.ofText (v.text?.getD "")
  | .bytes => compareOn fun v => v.bytes?.getD []
  | .objectId => compareOn fun v => (v.objectId?.getD default).bytes
  | .dateTime => compareOn fun v => (v.dateTime?.getD default).millis.toInt

instance (family : Family) : Std.TransCmp family.cmp := by
  cases family with
  | null => exact { eq_swap := rfl, isLE_trans := fun _ _ => rfl }
  | _ => unfold Family.cmp; infer_instance

namespace Value

variable {v w x y z : Value} {o : Ordering} {family : Family}

/-! ## Families -/

/-- A number is in the family of numbers unless it is a NaN. -/
theorem family_number_iff :
    v.family? = some .number ↔ ∃ d, v.widen? = some d ∧ d.isNaN = false := by
  cases v with
  | integer n =>
    exact iff_of_true rfl ⟨_, rfl, Floating.isNaN_ofInt (by decide) n.toInt⟩
  | double d => cases hd : d.isNaN <;> simp [family?, widen?, hd]
  | _ => simp [family?, widen?]

/-- Numbers compare as doubles unless both are integers. -/
theorem compare?_widen {a b : Double} (hv : v.widen? = some a) (hw : w.widen? = some b)
    (hint : v.integer? = none ∨ w.integer? = none) : v.compare? w = a.compare? b := by
  cases v <;> cases hv <;> cases w <;> cases hw <;> first
    | rfl
    | simp [integer?] at hint

theorem compare?_double {a b : Double} (ha : a.isNaN = false) (hb : b.isNaN = false) :
    a.compare? b = some (compare a.rank b.rank) := by
  simp [Floating.compare?, ha, hb]

theorem isNaN_of_compare? {a b : Double} (h : a.compare? b = some o) :
    a.isNaN = false ∧ b.isNaN = false := by
  unfold Floating.compare? at h
  cases ha : a.isNaN <;> cases hb : b.isNaN <;> simp_all

theorem eq_number (hv : v.family? = some family) (hn : v.isNumber = true) : family = .number := by
  cases v with
  | integer n => exact (Option.some.inj hv).symm
  | double d =>
    rw [family?] at hv
    split at hv
    · cases hv
    · exact (Option.some.inj hv).symm
  | _ => cases hn

/-- Values that are compared are of one family. -/
theorem family_of_compare? (h : v.compare? w = some o) :
    ∃ family, v.family? = some family ∧ w.family? = some family := by
  cases ha : v.widen? with
  | none => cases v <;> cases ha <;> cases w <;> first | exact ⟨_, rfl, rfl⟩ | cases h
  | some a =>
    cases hb : w.widen? with
    | none => cases v <;> cases ha <;> cases w <;> cases hb <;> cases h
    | some b =>
      by_cases hint : v.integer? = none ∨ w.integer? = none
      · rw [compare?_widen ha hb hint] at h
        obtain ⟨hna, hnb⟩ := isNaN_of_compare? h
        exact ⟨.number, family_number_iff.2 ⟨a, ha, hna⟩, family_number_iff.2 ⟨b, hb, hnb⟩⟩
      · cases v <;> cases ha <;> cases w <;> cases hb <;> first
          | exact ⟨_, rfl, rfl⟩
          | simp [integer?] at hint

/-- Values of one type are of one family. -/
theorem family_of_typeName (h : v.typeName = w.typeName) (hv : v.typeName ∈ orderedTypes) :
    ∃ family, v.family? = some family ∧ w.family? = some family := by
  cases v <;> simp [orderedTypes, typeName] at hv <;> cases w <;> first
    | exact ⟨_, rfl, rfl⟩
    | simp [typeName] at h

theorem compare?_of_family (h : v.family? ≠ w.family?) : v.compare? w = none := by
  cases hc : v.compare? w with
  | none => rfl
  | some o =>
    obtain ⟨family, hv, hw⟩ := family_of_compare? hc
    exact absurd (hv.trans hw.symm) h

/-- In a family the order is that of the keys, unless both values are integers. -/
theorem compare?_eq_cmp (hv : v.family? = some family) (hw : w.family? = some family)
    (hint : v.integer? = none ∨ w.integer? = none) : v.compare? w = some (family.cmp v w) := by
  by_cases hf : family = .number
  · subst hf
    obtain ⟨a, ha, hna⟩ := family_number_iff.1 hv
    obtain ⟨b, hb, hnb⟩ := family_number_iff.1 hw
    rw [compare?_widen ha hb hint, compare?_double hna hnb, Family.cmp, compareOn, ha, hb]
    rfl
  · cases v with
    | double d => exact absurd (eq_number hv rfl) hf
    | array items => cases hv
    | document doc => cases hv
    | _ =>
      cases hv
      cases w with
      | double d => exact absurd (eq_number hw rfl) hf
      | _ => cases hw <;> first | rfl | exact absurd rfl hf

theorem integers_of_not (h : ¬ (v.integer? = none ∨ w.integer? = none)) :
    ∃ m n, v = integer m ∧ w = integer n := by
  cases v <;> cases w <;> first
    | exact ⟨_, _, rfl, rfl⟩
    | simp [integer?] at h

theorem compare?_integer (m n : Int64) :
    (integer m).compare? (integer n) = some (compare m.toInt n.toInt) := rfl

theorem cmp_integer (m n : Int64) : Family.number.cmp (integer m) (integer n) =
    compare (Floating.ofInt m.toInt : Double).rank (Floating.ofInt n.toInt : Double).rank := rfl

theorem rank_ofInt_mono {a b : Int} (h : a ≤ b) :
    (Floating.ofInt a : Double).rank ≤ (Floating.ofInt b : Double).rank :=
  Floating.rank_ofInt_mono (by decide) h

theorem exists_compare? (hv : v.family? = some family) (hw : w.family? = some family) :
    ∃ o, v.compare? w = some o := by
  by_cases hint : v.integer? = none ∨ w.integer? = none
  · exact ⟨_, compare?_eq_cmp hv hw hint⟩
  · obtain ⟨m, n, rfl, rfl⟩ := integers_of_not hint
    exact ⟨_, compare?_integer m n⟩

/-- A value that is not greater has no greater key. -/
theorem isLE_cmp (hv : v.family? = some family) (hw : w.family? = some family)
    (h : v.compare? w ≠ some .gt) : (family.cmp v w).isLE = true := by
  by_cases hint : v.integer? = none ∨ w.integer? = none
  · rw [compare?_eq_cmp hv hw hint] at h
    cases hc : family.cmp v w <;> simp_all
  · obtain ⟨m, n, rfl, rfl⟩ := integers_of_not hint
    cases hv
    have hmn : m.toInt ≤ n.toInt := by
      rw [compare?_integer] at h
      exact Std.isLE_compare.1 (by cases hc : compare m.toInt n.toInt <;> simp_all)
    rw [cmp_integer]
    exact Std.isLE_compare.2 (rank_ofInt_mono hmn)

/-! ## Both directions -/

/-- Two values compare alike in both directions. -/
theorem compare?_swap (v w : Value) : w.compare? v = (v.compare? w).map Ordering.swap := by
  by_cases hf : v.family? = w.family?
  · cases hv : v.family? with
    | none =>
      have hnone : ∀ u u' : Value, u.family? = none → u.compare? u' = none := by
        intro u u' hu
        cases hc : u.compare? u' with
        | none => rfl
        | some o =>
          obtain ⟨family, hfamily, -⟩ := family_of_compare? hc
          rw [hu] at hfamily
          cases hfamily
      rw [hnone v w hv, hnone w v (hf ▸ hv)]
      rfl
    | some family =>
      have hw : w.family? = some family := hf ▸ hv
      by_cases hint : v.integer? = none ∨ w.integer? = none
      · have hswap : family.cmp w v = (family.cmp v w).swap := Std.OrientedCmp.eq_swap
        rw [compare?_eq_cmp hv hw hint, compare?_eq_cmp hw hv hint.symm, hswap, Option.map_some]
      · obtain ⟨m, n, rfl, rfl⟩ := integers_of_not hint
        rw [compare?_integer, compare?_integer, Option.map_some, Std.OrientedOrd.eq_swap]
  · rw [compare?_of_family hf, compare?_of_family (Ne.symm hf)]
    rfl

theorem compare?_self (h : v.family? = some family) : v.compare? v = some .eq := by
  obtain ⟨o, ho⟩ := exists_compare? h h
  have hswap := compare?_swap v v
  rw [ho, Option.map_some, Option.some.injEq] at hswap
  rw [ho, Ordering.eq_eq_of_eq_swap hswap]

/-! ## Between two values -/

theorem Conflates.compare? (h : y.Conflates x z) :
    x.compare? y = some .eq ∧ y.compare? z = some .eq := by
  obtain ⟨d, m, n, rfl, rfl, rfl, hm, hn⟩ := h
  obtain ⟨hnm, hnd, hrm⟩ := Floating.beq_iff.1 hm
  obtain ⟨hnn, -, hrn⟩ := Floating.beq_iff.1 hn
  constructor
  · rw [compare?_widen rfl rfl (.inr rfl), compare?_double hnm hnd, hrm, Std.ReflOrd.compare_self]
  · rw [compare?_widen rfl rfl (.inl rfl), compare?_double hnd hnn, hrn, Std.ReflOrd.compare_self]

theorem not_conflates_of_typeName (h : y.typeName = x.typeName) : ¬ y.Conflates x z := by
  intro ⟨d, m, n, hy, hx, _⟩
  rw [hy, hx] at h
  simp [typeName] at h

/-- Between two integers in the other order there is no third one, so what stands
there is a double, and both are rounded to it. -/
theorem conflates_of_between {m n : Int64} (hy : y.family? = some .number) (hmn : n.toInt < m.toInt)
    (hxy : (integer m).compare? y ≠ some .gt) (hyz : y.compare? (integer n) ≠ some .gt) :
    y.Conflates (integer m) (integer n) := by
  have hlow := isLE_cmp (v := integer m) rfl hy hxy
  have hhigh := isLE_cmp (w := integer n) hy rfl hyz
  cases y with
  | integer k =>
    rw [compare?_integer] at hxy hyz
    have hmk : (compare m.toInt k.toInt).isLE = true := by
      cases hc : compare m.toInt k.toInt <;> simp_all
    have hkn : (compare k.toInt n.toInt).isLE = true := by
      cases hc : compare k.toInt n.toInt <;> simp_all
    rw [Std.isLE_compare] at hmk hkn
    omega
  | double d =>
    obtain ⟨_, ⟨⟩, hd⟩ := family_number_iff.1 hy
    have hmd : (Floating.ofInt m.toInt : Double).rank ≤ d.rank := Std.isLE_compare.1 hlow
    have hdn : d.rank ≤ (Floating.ofInt n.toInt : Double).rank := Std.isLE_compare.1 hhigh
    have hnm := rank_ofInt_mono (Int.le_of_lt hmn)
    have hnan : ∀ k : Int, (Floating.ofInt k : Double).isNaN = false :=
      Floating.isNaN_ofInt (by decide)
    refine ⟨d, m, n, rfl, rfl, rfl, ?_, ?_⟩
    · exact Floating.beq_iff.2 ⟨hnan _, hd, by omega⟩
    · exact Floating.beq_iff.2 ⟨hnan _, hd, by omega⟩
  | _ => cases hy

/-- Where `x` is greater than `z`, a value is neither less than `x` nor greater
than `z` if and only if it is of another family, or the double that the two
integers are rounded to. -/
theorem between_iff (hxz : x.compare? z = some .gt) :
    (x.compare? y ≠ some .gt ∧ y.compare? z ≠ some .gt) ↔
      y.family? ≠ x.family? ∨ y.Conflates x z := by
  obtain ⟨family, hx, hz⟩ := family_of_compare? hxz
  constructor
  · intro ⟨hxy, hyz⟩
    by_cases hy : y.family? = x.family?
    · rw [hx] at hy
      by_cases hint : x.integer? = none ∨ z.integer? = none
      · have hle : (family.cmp x z).isLE = true :=
          Std.TransCmp.isLE_trans (isLE_cmp hx hy hxy) (isLE_cmp hy hz hyz)
        rw [compare?_eq_cmp hx hz hint, Option.some.injEq] at hxz
        rw [hxz] at hle
        cases hle
      · obtain ⟨m, n, rfl, rfl⟩ := integers_of_not hint
        cases hx
        refine .inr (conflates_of_between hy ?_ hxy hyz)
        exact Std.compare_eq_gt.1 (Option.some.inj hxz)
    · exact .inl hy
  · intro h
    rcases h with hy | hy
    · have hyz : y.family? ≠ z.family? := by rwa [hz, ← hx]
      rw [compare?_of_family (Ne.symm hy), compare?_of_family hyz]
      simp
    · obtain ⟨hxy, hyz⟩ := hy.compare?
      rw [hxy, hyz]
      simp

end Value
end Folio
