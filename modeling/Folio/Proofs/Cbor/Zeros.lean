import Folio.Proofs.Cbor.RoundTrip
import Folio.Proofs.Number.Widening
import Folio.Proofs.Value.Rearranged

/-!
# Equal values and their bytes

The order of fields does not show in the bytes of a value. But equality takes
the two zeros for one number, and they are written with their signs: equal
values have equal bytes exactly when their zeros have the same signs, one after
another as they are written.

Results:
* `Listing.same`: what lists a value part by part has one length for equal
  values, and tells them apart if it does so for scalars.
* `listing_zeros`, `listing_bytes`: so do the signs of the zeros, and the bytes.
* `encode_eq_iff`: equal values have equal bytes iff the signs are equal.
-/
namespace Folio

namespace Number.Floating

variable {f : Format} {x y : Floating f}

theorem natAbs_rank (x : Floating f) : x.rank.natAbs = x.magnitude := by
  rw [rank]
  split
  · rw [Int.natAbs_neg, Int.natAbs_natCast]
  · rw [Int.natAbs_natCast]

theorem magnitude_of_rank (h : x.rank = y.rank) : x.magnitude = y.magnitude := by
  rw [← natAbs_rank x, ← natAbs_rank y, h]

/-- Numbers at one place of the order are the same, unless they are zeros of
different signs. -/
theorem eq_of_rank (h : x.rank = y.rank) (hz : x.magnitude = 0 → x.isNegative = y.isNegative) :
    x = y := by
  have hm := magnitude_of_rank h
  have hn : x.isNegative = y.isNegative := by
    by_cases hzero : x.magnitude = 0
    · exact hz hzero
    · rw [rank, rank, ← hm] at h
      cases hx : x.isNegative <;> cases hy : y.isNegative <;> simp [hx, hy] at h ⊢ <;> omega
  rw [← ofParts_parts x, ← ofParts_parts y, hn, hm]

end Number.Floating

namespace Value

/-! ## Listing a value part by part -/

/-- `f` lists a value in order: of a container first what depends on its size,
then its parts, each after its name if it has one. Doubles that are equal are
listed at one length, and apart if they differ. -/
structure Listing {γ : Type} (f : Value → List γ) : Prop where
  double : ∀ {d e : Number.Double}, (d == e) = true →
    (f (double d)).length = (f (double e)).length ∧ (f (double d) = f (double e) → d = e)
  array : ∃ size : Nat → List γ, ∀ items, (array items).hasNaN = false →
    f (array items) = size items.length ++ items.flatMap f
  document : ∃ (size : Nat → List γ) (name : String → List γ), ∀ fields,
    (document ⟨fields⟩).hasNaN = false →
    f (document ⟨fields⟩) = size fields.length ++ fields.flatMap fun p => name p.1 ++ f p.2

/-- Lists that are put together alike from parts of the same lengths are equal
only if the parts are. -/
theorem flatMap_same {α γ : Type} {R : α → α → Prop} {f : α → List γ} {as bs : List α}
    (h : List.Forall₂ R as bs)
    (hf : ∀ a ∈ as, ∀ b ∈ bs, R a b → (f a).length = (f b).length ∧ (f a = f b → a = b)) :
    (as.flatMap f).length = (bs.flatMap f).length ∧ (as.flatMap f = bs.flatMap f → as = bs) := by
  induction h with
  | nil => exact ⟨rfl, fun _ => rfl⟩
  | @cons a b as bs hab _ ih =>
    obtain ⟨hlen, heq⟩ := hf a List.mem_cons_self b List.mem_cons_self hab
    obtain ⟨hrest, hrests⟩ := ih fun x hx y hy =>
      hf x (List.mem_cons_of_mem _ hx) y (List.mem_cons_of_mem _ hy)
    simp only [List.flatMap_cons, List.length_append]
    refine ⟨by rw [hlen, hrest], fun hall => ?_⟩
    obtain ⟨hfirst, hothers⟩ := List.append_inj hall hlen
    rw [heq hfirst, hrests hothers]

/-- Equal values are listed at the same length, and alike only if they are the
same. -/
theorem Listing.same {γ : Type} {f : Value → List γ} (hf : Listing f) {v w : Value}
    (hv : v.hasNaN = false) (hw : w.hasNaN = false) (h : (v == w) = true) :
    (f v).length = (f w).length ∧ (f v = f w → v = w) := by
  induction v using tree generalizing w with
  | scalar v hs =>
    rcases eq_of_beq_scalar hs h with rfl | ⟨d, e, rfl, rfl, hde⟩
    · exact ⟨rfl, fun _ => rfl⟩
    · obtain ⟨hlen, heq⟩ := hf.double hde
      exact ⟨hlen, fun hall => by rw [heq hall]⟩
  | array items ih =>
    cases w with
    | array others =>
      obtain ⟨size, hsize⟩ := hf.array
      rw [beq_array, equalItems_iff] at h
      rw [hsize items hv, hsize others hw, h.length_eq, List.length_append, List.length_append,
        List.append_cancel_left_eq]
      obtain ⟨hlen, heq⟩ := flatMap_same h fun a ha b hb hab =>
        ih a ha (hasNaN_array.1 hv a ha) (hasNaN_array.1 hw b hb) hab
      exact ⟨by rw [hlen], fun hall => by rw [heq hall]⟩
    | _ => cases h
  | document fields ih =>
    cases w with
    | document doc =>
      obtain ⟨others⟩ := doc
      obtain ⟨size, name, hsize⟩ := hf.document
      rw [beq_document, equalFields_iff] at h
      rw [hsize fields hv, hsize others hw, h.length_eq, List.length_append, List.length_append,
        List.append_cancel_left_eq]
      obtain ⟨hlen, heq⟩ := flatMap_same (f := fun p => name p.1 ++ f p.2) h fun a ha b hb hab => by
        obtain ⟨hlen, heq⟩ := ih a ha (hasNaN_document.1 hv a ha) (hasNaN_document.1 hw b hb) hab.2
        rw [hab.1, List.length_append, List.length_append, hlen, List.append_cancel_left_eq]
        exact ⟨rfl, fun hab' => Prod.ext hab.1 (heq hab')⟩
      exact ⟨by rw [hlen], fun hall => by rw [heq hall]⟩
    | _ => cases h

/-! ## The zeros of a value -/

mutual

/-- For each zero in the value, in order, whether it is negative. -/
def zeros : Value → List Bool
  | double d => if d.magnitude = 0 then [d.isNegative] else []
  | array items => zerosItems items
  | document ⟨fields⟩ => zerosFields fields
  | _ => []

/-- The signs of the zeros of elements. -/
def zerosItems : List Value → List Bool
  | [] => []
  | v :: rest => zeros v ++ zerosItems rest

/-- The signs of the zeros of fields. -/
def zerosFields : List (String × Value) → List Bool
  | [] => []
  | (_, v) :: rest => zeros v ++ zerosFields rest

end

theorem zerosItems_eq (items : List Value) : zerosItems items = items.flatMap zeros := by
  induction items with
  | nil => rfl
  | cons v rest ih => rw [zerosItems, ih, List.flatMap_cons]

theorem zerosFields_eq (fields : List (String × Value)) :
    zerosFields fields = fields.flatMap fun f => zeros f.2 := by
  induction fields with
  | nil => rfl
  | cons f rest ih => rw [zerosFields, ih, List.flatMap_cons]

/-- Equal values have as many zeros, and with the same signs only if they are
the same. -/
theorem listing_zeros : Listing zeros where
  double {d e} h := by
    have hr := (Number.Floating.beq_iff.1 h).2.2
    rw [zeros, zeros, ← Number.Floating.magnitude_of_rank hr]
    by_cases hz : d.magnitude = 0
    · rw [if_pos hz, if_pos hz]
      refine ⟨rfl, fun hsigns => Number.Floating.eq_of_rank hr fun _ => ?_⟩
      exact (List.cons.inj hsigns).1
    · rw [if_neg hz, if_neg hz]
      exact ⟨rfl, fun _ => Number.Floating.eq_of_rank hr fun h => absurd h hz⟩
  array := ⟨fun _ => [], fun items _ => zerosItems_eq items⟩
  document := ⟨fun _ => [], fun _ => [], fun fields _ => zerosFields_eq fields⟩

end Value

namespace Cbor

open Value

/-- The bytes of equal values are as many, and the same only if the values
are. -/
theorem listing_bytes : Listing fun v => (write v).bytes where
  double {d e} h := by
    obtain ⟨⟨hd, he⟩, -⟩ := (Bool.and_eq_true_iff.1 h).imp_left Bool.and_eq_true_iff.1
    rw [Bool.not_eq_true'] at hd he
    rw [write, write, if_neg (by simp [hd]), if_neg (by simp [he])]
    refine ⟨by simp [Output.put], fun hall => ?_⟩
    have hbits : Bytes.ofNat 8 d.toBits = Bytes.ofNat 8 e.toBits := (List.cons.inj hall).2
    have hnat := congrArg Bytes.toNat hbits
    rw [Bytes.toNat_ofNat d.bits.isLt, Bytes.toNat_ofNat e.bits.isLt] at hnat
    rw [← d.ofBits_toBits, ← e.ofBits_toBits, hnat]
  array := ⟨head .array, fun items hn => bytes_writeItems (hasNaN_array.1 hn) ▸ rfl⟩
  document := ⟨head .map, text, fun fields hn => bytes_writeFields (hasNaN_document.1 hn) ▸ rfl⟩

variable {v v' w w' : Value}

/-- Values without NaN that are equal once their fields are put in one order
have the same bytes if and only if their zeros, in the order in which they are
written, have the same signs. -/
theorem encode_eq_iff (hv : v.hasNaN = false) (hw : w.hasNaN = false)
    (dv : v.everywhere distinct = true) (dw : w.everywhere distinct = true)
    (rv : Rearranged v v') (rw' : Rearranged w w') (h : (v' == w') = true) :
    encode v = encode w ↔ v.canonical.zeros = w.canonical.zeros := by
  have hcanonical : (v.canonical == w.canonical) = true := by
    rw [← canonical_of_rearranged rv dv, ← canonical_of_rearranged rw' dw]
    exact canonical_beq h
  have nv := hasNaN_canonical.2 hv
  have nw := hasNaN_canonical.2 hw
  rw [encode_eq_ok hv, encode_eq_ok hw, Except.ok.injEq]
  constructor
  · intro hbytes
    rw [(listing_bytes.same nv nw hcanonical).2 hbytes]
  · intro hzeros
    rw [(listing_zeros.same nv nw hcanonical).2 hzeros]

/-- Two documents, equal once the fields of the first have changed places,
whose bytes differ in the sign of a zero. -/
theorem encode_ne_of_zeros :
    let v := document ⟨[("b", .null), ("a", .array [.double (.ofBits 0)])]⟩
    let v' := document ⟨[("a", .array [.double (.ofBits 0)]), ("b", .null)]⟩
    let w := document ⟨[("a", .array [.double (.ofBits 0x8000000000000000)]), ("b", .null)]⟩
    Rearranged v v' ∧ Rearranged w w ∧ (v' == w) = true ∧ encode v ≠ encode w := by
  intro v v' w
  have hv : Rearranged v v' :=
    ⟨[("b", .null), ("a", .array [.double (.ofBits 0)])], .swap .., rfl, rfl, rfl, ⟨rfl, trivial⟩,
      trivial⟩
  have hw : Rearranged w w := ⟨_, .refl _, rfl, ⟨rfl, trivial⟩, rfl, rfl, trivial⟩
  have heq : (v' == w) = true := rfl
  refine ⟨hv, hw, heq, fun h => ?_⟩
  have hzeros := (encode_eq_iff rfl rfl rfl rfl hv hw heq).1 h
  revert hzeros
  decide +kernel

end Cbor
end Folio
