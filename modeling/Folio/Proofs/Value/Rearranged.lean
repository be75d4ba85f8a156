import Folio.Proofs.Number.Rounding
import Folio.Proofs.Value.Equality
import Mathlib.Data.List.Forall2
import Mathlib.Data.List.Nodup

/-!
# Values up to the order of fields

Two values are the same up to the order of fields if the fields of their
documents can be put in one order at every depth. Where documents have each
name once, the canonical form does not depend on the order, and equality of
values, which is symmetric, carries over to the canonical forms.

Results:
* `canonical_of_rearranged`: another order of fields, the same canonical form.
* `canonical_beq`: equal values have equal canonical forms.
-/
namespace Folio.Value

mutual

/-- `w` is `v` with the fields of its documents in some order, at every depth:
scalars are the same, elements keep their places. -/
def Rearranged : (v w : Value) → Prop
  | array items, array others => RearrangedItems items others
  | document ⟨fields⟩, document ⟨others⟩ =>
    ∃ middle : List (String × Value), others.Perm middle ∧ RearrangedFields fields middle
  | v, w => w = v

/-- Each element is the one in its place, with its fields in some order. -/
def RearrangedItems : (items others : List Value) → Prop
  | [], [] => True
  | v :: rest, w :: others => Rearranged v w ∧ RearrangedItems rest others
  | _, _ => False

/-- Each field is the one in its place, with the fields of its value in some
order. -/
def RearrangedFields : (fields others : List (String × Value)) → Prop
  | [], [] => True
  | (k, v) :: rest, (l, w) :: others => l = k ∧ Rearranged v w ∧ RearrangedFields rest others
  | _, _ => False

end

/-- What a rearrangement leaves of each element is left of the elements. -/
theorem map_of_rearrangedItems {α : Type} {g : Value → α} {items others : List Value}
    (h : RearrangedItems items others)
    (hg : ∀ v ∈ items, ∀ w, Rearranged v w → g w = g v) : others.map g = items.map g := by
  induction items generalizing others with
  | nil =>
    cases others with
    | nil => rfl
    | cons w others => exact h.elim
  | cons v rest ih =>
    cases others with
    | nil => exact h.elim
    | cons w others =>
      rw [List.map_cons, List.map_cons, hg v List.mem_cons_self w h.1,
        ih h.2 fun u hu => hg u (List.mem_cons_of_mem _ hu)]

/-- The same for fields, whose names stay. -/
theorem map_of_rearrangedFields {α : Type} {g : Value → α} {fields others : List (String × Value)}
    (h : RearrangedFields fields others)
    (hg : ∀ f ∈ fields, ∀ w, Rearranged f.2 w → g w = g f.2) :
    (others.map fun f => (f.1, g f.2)) = fields.map fun f => (f.1, g f.2) := by
  induction fields generalizing others with
  | nil =>
    cases others with
    | nil => rfl
    | cons w others => exact h.elim
  | cons f rest ih =>
    cases others with
    | nil => exact h.elim
    | cons e others =>
      rw [List.map_cons, List.map_cons, h.1, hg f List.mem_cons_self e.2 h.2.1,
        ih h.2.2 fun u hu => hg u (List.mem_cons_of_mem _ hu)]

/-- Fields that are the same but for their order are arranged alike. -/
theorem arrange_of_perm {fields others : List (String × Value)} (h : others.Perm fields)
    (hn : (fields.map (·.1)).Nodup) : arrange others = arrange fields := by
  have hp : (arrange others).Perm (arrange fields) :=
    (arrange_perm others).trans (h.trans (arrange_perm fields).symm)
  have ho : (others.map (·.1)).Nodup := (h.map _).nodup_iff.2 hn
  refine hp.eq_of_pairwise ?_ (arrange_ascending ho) (arrange_ascending hn)
  intro f g _ _ hfg hgf
  rw [keyOrder_swap, hgf] at hfg
  cases hfg

/-- Documents with the same fields have one canonical form. -/
theorem canonical_ext {a b : Document} (ha : a.keys.Nodup) (hb : b.keys.Nodup)
    (h : ∀ k, a.get? k = b.get? k) : a.canonical = b.canonical := by
  have hperm : a.fields.Perm b.fields := by
    refine (List.perm_ext_iff_of_nodup (.of_map _ ha) (.of_map _ hb)).2 fun f => ?_
    rw [← lookup_iff_mem ha, ← lookup_iff_mem hb]
    exact iff_of_eq (congrArg (· = some f.2) (h f.1))
  rw [Document.canonical, Document.canonical, canonicalFields_eq_map, canonicalFields_eq_map]
  refine congrArg Document.mk (arrange_of_perm (hperm.map _) ?_)
  rwa [List.map_map]

theorem rearranged_array {items : List Value} {w : Value} :
    Rearranged (array items) w ↔ ∃ others, w = array others ∧ RearrangedItems items others := by
  constructor
  · intro h
    cases w with
    | array others => exact ⟨others, rfl, h⟩
    | _ => cases (show _ = _ from h)
  · rintro ⟨others, rfl, h⟩
    exact h

theorem rearranged_document {fields : List (String × Value)} {w : Value} :
    Rearranged (document ⟨fields⟩) w ↔
      ∃ others middle, w = document ⟨others⟩ ∧ others.Perm middle ∧
        RearrangedFields fields middle := by
  constructor
  · intro h
    cases w with
    | document doc =>
      obtain ⟨others⟩ := doc
      obtain ⟨middle, hp, hm⟩ := h
      exact ⟨others, middle, rfl, hp, hm⟩
    | _ => cases (show _ = _ from h)
  · rintro ⟨others, middle, rfl, hp, hm⟩
    exact ⟨middle, hp, hm⟩

theorem eq_of_rearranged_scalar {v w : Value} (hs : v.isScalar = true) (h : Rearranged v w) :
    w = v := by
  cases v with
  | array items => cases hs
  | document doc => cases hs
  | _ => exact h

/-- The order of fields does not show in the canonical form. -/
theorem canonical_of_rearranged {v w : Value} (h : Rearranged v w)
    (hd : v.everywhere distinct = true) : w.canonical = v.canonical := by
  induction v using tree generalizing w with
  | scalar v hs => rw [eq_of_rearranged_scalar hs h]
  | array items ih =>
    obtain ⟨others, rfl, hm⟩ := rearranged_array.1 h
    have hf := (everywhere_array.1 hd).2
    rw [canonical_array, canonical_array, map_of_rearrangedItems hm]
    exact fun v hv w hw => ih v hv hw (hf v hv)
  | document fields ih =>
    obtain ⟨others, middle, rfl, hp, hm⟩ := rearranged_document.1 h
    obtain ⟨hn, hf⟩ := everywhere_document.1 hd
    have hmap := map_of_rearrangedFields (g := canonical) hm
      fun f hfm w hw => ih f hfm hw (hf f hfm)
    have hperm : (others.map fun f => (f.1, f.2.canonical)).Perm
        (fields.map fun f => (f.1, f.2.canonical)) := hmap ▸ hp.map _
    rw [canonical_document, canonical_document, arrange_of_perm hperm]
    simpa [Function.comp_def] using of_decide_eq_true hn

/-! ## Equal values, equal canonical forms -/

theorem equalItems_iff {items others : List Value} :
    equalItems items others = true ↔ List.Forall₂ (fun v w => (v == w) = true) items others := by
  induction items generalizing others with
  | nil => cases others <;> simp [equalItems]
  | cons v rest ih =>
    cases others with
    | nil => simp [equalItems]
    | cons w others =>
      rw [equalItems, Bool.and_eq_true, List.forall₂_cons, ih]
      rfl

/-- The fields have one name, and their values are equal. -/
def SameField (f g : String × Value) : Prop := f.1 = g.1 ∧ (f.2 == g.2) = true

theorem equalFields_iff {fields others : List (String × Value)} :
    equalFields fields others = true ↔ List.Forall₂ SameField fields others := by
  induction fields generalizing others with
  | nil => cases others <;> simp [equalFields]
  | cons f rest ih =>
    cases others with
    | nil => simp [equalFields]
    | cons g others =>
      obtain ⟨k, v⟩ := f
      obtain ⟨l, w⟩ := g
      rw [equalFields, Bool.and_eq_true, Bool.and_eq_true, beq_iff_eq, List.forall₂_cons, ih]
      rfl

theorem forall₂_place {f g : String × Value} (hf : SameField f g)
    {fields others : List (String × Value)} (h : List.Forall₂ SameField fields others) :
    List.Forall₂ SameField (place f fields) (place g others) := by
  induction h with
  | nil => exact .cons hf .nil
  | @cons a b rest others hab hrest ih =>
    rw [place, place, hf.1, hab.1]
    split
    · exact .cons hf (.cons hab hrest)
    · exact .cons hab ih

theorem forall₂_arrange {fields others : List (String × Value)}
    (h : List.Forall₂ SameField fields others) :
    List.Forall₂ SameField (arrange fields) (arrange others) := by
  induction h with
  | nil => exact .nil
  | cons hab _ ih => exact forall₂_place hab ih

theorem isScalar_of_beq {v w : Value} (h : (v == w) = true) (hs : v.isScalar = true) :
    w.isScalar = true := by
  cases v with
  | array items => cases hs
  | document doc => cases hs
  | _ => cases w <;> first | rfl | exact absurd h Bool.false_ne_true

/-- Scalars that are equal are the same, unless they are doubles. -/
theorem eq_of_beq_scalar {v w : Value} (hs : v.isScalar = true) (h : (v == w) = true) :
    v = w ∨ ∃ d e : Number.Double, v = double d ∧ w = double e ∧ (d == e) = true := by
  cases v <;> cases w <;> first
    | (cases hs; done)
    | exact absurd h Bool.false_ne_true
    | exact .inr ⟨_, _, rfl, rfl, h⟩
    | exact .inl rfl
    | exact .inl (congrArg _ (eq_of_beq h))

/-- Parts in the same places are related if they are as parts of their wholes. -/
theorem forall₂_imp_of_mem {α β : Type} {R S : α → β → Prop} {as : List α} {bs : List β}
    (h : List.Forall₂ R as bs) (himp : ∀ a ∈ as, ∀ b, R a b → S a b) : List.Forall₂ S as bs :=
  ((List.forall₂_and_left _ _).2 ⟨himp, h⟩).imp fun _ b hab => hab.1 b hab.2

/-- Equality is symmetric. -/
theorem beq_symm {v w : Value} (h : (v == w) = true) : (w == v) = true := by
  induction v using tree generalizing w with
  | scalar v hs =>
    rcases eq_of_beq_scalar hs h with rfl | ⟨d, e, rfl, rfl, hde⟩
    · exact h
    · obtain ⟨hd, he, hrank⟩ := Number.Floating.beq_iff.1 hde
      exact Number.Floating.beq_iff.2 ⟨he, hd, hrank.symm⟩
  | array items ih =>
    cases w with
    | array others =>
      rw [beq_array, equalItems_iff] at h ⊢
      exact (forall₂_imp_of_mem h fun v hv _ => ih v hv).flip
    | _ => cases h
  | document fields ih =>
    cases w with
    | document doc =>
      obtain ⟨others⟩ := doc
      rw [beq_document, equalFields_iff] at h ⊢
      exact (forall₂_imp_of_mem h fun f hf g hfg =>
        (⟨hfg.1.symm, ih f hf hfg.2⟩ : SameField g f)).flip
    | _ => cases h

/-- Equal values have equal canonical forms. -/
theorem canonical_beq {v w : Value} (h : (v == w) = true) : (v.canonical == w.canonical) = true := by
  induction v using tree generalizing w with
  | scalar v hs => rwa [canonical_scalar hs, canonical_scalar (isScalar_of_beq h hs)]
  | array items ih =>
    cases w with
    | array others =>
      rw [beq_array, equalItems_iff] at h
      rw [canonical_array, canonical_array, beq_array, equalItems_iff, List.forall₂_map_left_iff,
        List.forall₂_map_right_iff]
      exact forall₂_imp_of_mem h fun v hv _ => ih v hv
    | _ => cases h
  | document fields ih =>
    cases w with
    | document doc =>
      obtain ⟨others⟩ := doc
      rw [beq_document, equalFields_iff] at h
      rw [canonical_document, canonical_document, beq_document, equalFields_iff]
      refine forall₂_arrange ?_
      rw [List.forall₂_map_left_iff, List.forall₂_map_right_iff]
      exact forall₂_imp_of_mem h fun f hf _ hfg => ⟨hfg.1, ih f hf hfg.2⟩
    | _ => cases h

end Folio.Value
