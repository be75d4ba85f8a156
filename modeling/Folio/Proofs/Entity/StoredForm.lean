import Folio.Proofs.Entity.Parts
import Folio.Proofs.Number.Widening
import Folio.Proofs.Run

/-!
# Stored forms

A property keeps the stored form of the value that it is set to. Taking the
stored form a second time changes nothing, and neither what the value fits nor
whether it holds a NaN is changed by taking it once. Every entity in a stored
form is one that was handed in.

Results:
* `storedForm_storedForm`: a stored form is its own stored form.
* `fits_storedForm`, `hasNaN_storedForm`: what the value is checked for holds
  of its stored form.
* `partOf_storedForm`: no entity is made on the way.
-/
namespace Folio.FieldValue

/-! ## Items one by one -/

theorem mem_of_mapM {ε α β : Type} {f : α → Except ε β} {as : List α} {bs : List β}
    (h : as.mapM f = .ok bs) : ∀ b ∈ bs, ∃ a ∈ as, f a = .ok b := by
  induction as generalizing bs with
  | nil => cases h; simp
  | cons a rest ih =>
    obtain ⟨b, others, ha, hr, rfl⟩ := ok_of_mapM_cons h
    intro c hc
    rcases List.mem_cons.1 hc with rfl | hc
    · exact ⟨a, List.mem_cons_self, ha⟩
    · obtain ⟨x, hx, hf⟩ := ih hr c hc
      exact ⟨x, List.mem_cons_of_mem a hx, hf⟩

theorem mapM_self {ε α : Type} {f : α → Except ε α} {as : List α} (h : ∀ a ∈ as, f a = .ok a) :
    as.mapM f = .ok as := by
  induction as with
  | nil => rfl
  | cons a rest ih =>
    rw [List.mapM_cons, h a List.mem_cons_self, ih fun b hb => h b (List.mem_cons_of_mem a hb)]
    rfl

theorem self_of_mapM {ε α : Type} {f : α → Except ε α} {as : List α} (h : as.mapM f = .ok as) :
    ∀ a ∈ as, f a = .ok a := by
  induction as with
  | nil => simp
  | cons a rest ih =>
    obtain ⟨b, others, ha, hr, heq⟩ := ok_of_mapM_cons h
    cases heq
    intro c hc
    rcases List.mem_cons.1 hc with rfl | hc
    · exact ha
    · exact ih hr c hc

theorem untypedItems_eq_mapM (items : List FieldValue) : untypedItems items = items.mapM untyped := by
  induction items with
  | nil => rfl
  | cons v rest ih => rw [untypedItems, List.mapM_cons, ih]

theorem untyped_list {items : List FieldValue} {w : FieldValue} :
    (list items).untyped = .ok w ↔ ∃ ws, items.mapM untyped = .ok ws ∧ w = list ws := by
  rw [untyped, untypedItems_eq_mapM]
  cases items.mapM untyped with
  | error e => simp [Except.map]
  | ok ws => simp [Except.map, eq_comm]

theorem storedForm_list {t : ValueType} {items : List FieldValue} {w : FieldValue} :
    (list items).storedForm (.list t) = .ok w ↔
      ∃ ws, items.mapM (storedForm t) = .ok ws ∧ w = list ws := by
  rw [storedForm]
  cases items.mapM (storedForm t) with
  | error e => simp [Except.map]
  | ok ws => simp [Except.map, eq_comm]

theorem hasNaN_list {items : List FieldValue} :
    (list items).hasNaN = false ↔ ∀ v ∈ items, v.hasNaN = false := by
  rw [hasNaN]
  induction items with
  | nil => simp [hasNaNItems]
  | cons v rest ih => simp [hasNaNItems, ih]

theorem fits_list {s : Schema} {t : ValueType} {items : List FieldValue} :
    (list items).fits s (.list t) = true ↔ ∀ v ∈ items, v.fits s t = true := by
  rw [fits]
  exact List.all_eq_true

/-! ## Values of no declared type -/

/-- What the untyped form of a value is: itself the untyped form of itself, no
NaN if the value is none, and without entities. -/
theorem untyped_ok {v w : FieldValue} (h : v.untyped = .ok w) :
    w.untyped = .ok w ∧ (v.hasNaN = false → w.hasNaN = false) ∧
      ∀ n, ¬ (entity n).PartOf w := by
  induction v using tree generalizing w with
  | leaf v hl =>
    have hleaf : ∀ {x : FieldValue}, x.isLeaf = true → ∀ n, ¬ (entity n).PartOf x := by
      intro x hx n hp
      rw [← eq_of_partOf_leaf hx hp] at hx
      cases hx
    cases v with
    | list items => cases hl
    | entity e => cases hl
    | foreign f => cases h
    | float x => cases h; exact ⟨rfl, Number.isNaN_toDouble, hleaf rfl⟩
    | _ => cases h; exact ⟨rfl, fun hn => hn, hleaf rfl⟩
  | list items ih =>
    obtain ⟨ws, hws, rfl⟩ := untyped_list.1 h
    have hall : ∀ w ∈ ws, ∃ v ∈ items, w.untyped = .ok w ∧ (v.hasNaN = false → w.hasNaN = false) ∧
        ∀ n, ¬ (entity n).PartOf w := by
      intro w hw
      obtain ⟨v, hv, hvw⟩ := mem_of_mapM hws w hw
      exact ⟨v, hv, ih v hv hvw⟩
    refine ⟨untyped_list.2 ⟨ws, mapM_self ?_, rfl⟩, ?_, ?_⟩
    · intro w hw
      obtain ⟨v, -, h, -⟩ := hall w hw
      exact h
    · intro hn
      refine hasNaN_list.2 fun w hw => ?_
      obtain ⟨v, hv, -, h, -⟩ := hall w hw
      exact h (hasNaN_list.1 hn v hv)
    · intro n hp
      cases hp with
      | item hw hp =>
        obtain ⟨v, -, -, -, h⟩ := hall _ hw
        exact h n hp
  | entity e ih => cases h

/-! ## Values of a declared type -/

/-- The stored form is the untyped form, or that of each item, or the value
itself. -/
theorem storedForm_cases {t : ValueType} {v w : FieldValue} (h : v.storedForm t = .ok w) :
    (t = .any ∧ v.untyped = .ok w) ∨
      (∃ u items ws, t = .list u ∧ v = list items ∧ w = list ws ∧
        items.mapM (storedForm u) = .ok ws) ∨ w = v := by
  cases t with
  | any => exact .inl ⟨rfl, h⟩
  | list u =>
    cases v with
    | list items =>
      obtain ⟨ws, hws, rfl⟩ := storedForm_list.1 h
      exact .inr (.inl ⟨u, items, ws, rfl, rfl, rfl, hws⟩)
    | _ => cases h; exact .inr (.inr rfl)
  | _ => cases v <;> cases h <;> exact .inr (.inr rfl)

/-- A stored form is its own stored form. -/
theorem storedForm_storedForm {t : ValueType} {v w : FieldValue} (h : v.storedForm t = .ok w) :
    w.storedForm t = .ok w := by
  induction t generalizing v w with
  | list u ih =>
    rcases storedForm_cases h with ⟨ht, -⟩ | ⟨u', items, ws, ht, rfl, rfl, hws⟩ | rfl
    · cases ht
    · cases ht
      refine storedForm_list.2 ⟨ws, mapM_self ?_, rfl⟩
      intro w hw
      obtain ⟨v, -, hvw⟩ := mem_of_mapM hws w hw
      exact ih hvw
    · exact h
  | any => exact (untyped_ok h).1
  | _ =>
    rcases storedForm_cases h with ⟨ht, -⟩ | ⟨_, _, _, ht, -⟩ | rfl
    · cases ht
    · cases ht
    · exact h

theorem hasNaN_storedForm {t : ValueType} {v w : FieldValue} (h : v.storedForm t = .ok w)
    (hn : v.hasNaN = false) : w.hasNaN = false := by
  induction t generalizing v w with
  | list u ih =>
    rcases storedForm_cases h with ⟨ht, -⟩ | ⟨u', items, ws, ht, rfl, rfl, hws⟩ | rfl
    · cases ht
    · cases ht
      refine hasNaN_list.2 fun w hw => ?_
      obtain ⟨v, hv, hvw⟩ := mem_of_mapM hws w hw
      exact ih hvw (hasNaN_list.1 hn v hv)
    · exact hn
  | any => exact (untyped_ok h).2.1 hn
  | _ =>
    rcases storedForm_cases h with ⟨ht, -⟩ | ⟨_, _, _, ht, -⟩ | rfl
    · cases ht
    · cases ht
    · exact hn

theorem fits_storedForm {s : Schema} {t : ValueType} {v w : FieldValue}
    (h : v.storedForm t = .ok w) (hf : v.fits s t = true) : w.fits s t = true := by
  induction t generalizing v w with
  | list u ih =>
    rcases storedForm_cases h with ⟨ht, -⟩ | ⟨u', items, ws, ht, rfl, rfl, hws⟩ | rfl
    · cases ht
    · cases ht
      refine fits_list.2 fun w hw => ?_
      obtain ⟨v, hv, hvw⟩ := mem_of_mapM hws w hw
      exact ih hvw (fits_list.1 hf v hv)
    · exact hf
  | any => cases w <;> rfl
  | _ =>
    rcases storedForm_cases h with ⟨ht, -⟩ | ⟨_, _, _, ht, -⟩ | rfl
    · cases ht
    · cases ht
    · exact hf

/-- Every entity in a stored form stands in the value that it is of. -/
theorem partOf_storedForm {t : ValueType} {v w : FieldValue} (h : v.storedForm t = .ok w)
    {n : Entity} (hp : (entity n).PartOf w) : (entity n).PartOf v := by
  induction t generalizing v w with
  | list u ih =>
    rcases storedForm_cases h with ⟨ht, -⟩ | ⟨u', items, ws, ht, rfl, rfl, hws⟩ | rfl
    · cases ht
    · cases ht
      cases hp with
      | item hw hp =>
        obtain ⟨v, hv, hvw⟩ := mem_of_mapM hws _ hw
        exact .item hv (ih hvw hp)
    · exact hp
  | any => exact absurd hp ((untyped_ok h).2.2 n)
  | _ =>
    rcases storedForm_cases h with ⟨ht, -⟩ | ⟨_, _, _, ht, -⟩ | rfl
    · cases ht
    · cases ht
    · exact hp

end Folio.FieldValue
