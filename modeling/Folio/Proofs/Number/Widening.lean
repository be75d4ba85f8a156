import Folio.Number.Floating

/-!
# Widening and narrowing

Every number of 32 bits is a number of 64 bits, so widening rounds nothing,
and narrowing the wide number gives back the number that it came from. Both
are said of the units that patterns stand for: rounding is exact where the
dropped bits are zeros.

Results:
* `nearest_units`: the pattern nearest to the value of a pattern is the
  pattern itself.
* `units_nearest`: the value of the nearest pattern is the value asked for, if
  no bit that counts is dropped.
* `toSingle_toDouble`: narrowing undoes widening.
-/
namespace Folio.Number

namespace Format

/-- A shift to the left multiplies. -/
theorem shiftLeft_mul (n s : Nat) : n <<< s = n * 1 <<< s := by
  rw [Nat.shiftLeft_eq, Nat.shiftLeft_eq, Nat.one_mul]

theorem one_shiftLeft_pos (s : Nat) : 0 < 1 <<< s := by
  rw [Nat.shiftLeft_eq, Nat.one_mul]
  exact Nat.two_pow_pos s

theorem one_shiftLeft_add (s t : Nat) : 1 <<< (s + t) = 1 <<< s * 1 <<< t := by
  simp only [Nat.shiftLeft_eq, Nat.one_mul, Nat.pow_add]

theorem bitLength_le {n k : Nat} : bitLength n ≤ k ↔ n < 1 <<< k := by
  rw [bitLength, Nat.shiftLeft_eq, Nat.one_mul]
  by_cases h : n = 0
  · have := Nat.two_pow_pos k
    rw [if_pos h, h]
    omega
  · rw [if_neg h]
    exact Nat.log2_lt h

theorem bitLength_shiftLeft {n : Nat} (h : n ≠ 0) (s : Nat) :
    bitLength (n <<< s) = bitLength n + s := by
  have hpos : 0 < bitLength n := by
    rw [bitLength, if_neg h]
    omega
  have hhigh : bitLength (n <<< s) ≤ bitLength n + s := by
    rw [bitLength_le, shiftLeft_mul, one_shiftLeft_add]
    exact Nat.mul_lt_mul_of_pos_right (bitLength_le.1 (Nat.le_refl _)) (one_shiftLeft_pos s)
  have hlow : ¬ bitLength (n <<< s) ≤ bitLength n - 1 + s := by
    rw [bitLength_le, shiftLeft_mul, one_shiftLeft_add]
    have : ¬ bitLength n ≤ bitLength n - 1 := by omega
    rw [bitLength_le] at this
    exact Nat.not_lt.2 (Nat.mul_le_mul_right _ (Nat.not_lt.1 this))
  omega

/-- Nothing is rounded where only zeros are dropped. -/
theorem shiftNearest_shiftLeft (q s : Nat) : shiftNearest (q <<< s) s = q := by
  have hpos := one_shiftLeft_pos s
  rw [shiftNearest, shiftLeft_mul q]
  simp only [Nat.mul_div_cancel q hpos, Nat.mul_mod_left]
  rw [if_pos (.inl (by omega))]

/-- The exponent field, less one, and the significand of a pattern. -/
theorem units_eq (f : Format) (p : Nat) :
    ∃ e m, f.units p = m <<< e ∧ p = e <<< f.fraction + m ∧ m < 1 <<< (f.fraction + 1) ∧
      (e = 0 ∨ 1 <<< f.fraction ≤ m) := by
  have hF : 1 <<< (f.fraction + 1) = 1 <<< f.fraction * 2 := one_shiftLeft_add f.fraction 1
  have hpos := one_shiftLeft_pos f.fraction
  have hdiv : p >>> f.fraction = p / 1 <<< f.fraction := by
    rw [Nat.shiftRight_eq_div_pow, Nat.shiftLeft_eq, Nat.one_mul]
  have hsplit := Nat.div_add_mod p (1 <<< f.fraction)
  have hmod := Nat.mod_lt p hpos
  unfold units
  rw [hdiv]
  by_cases h : p / 1 <<< f.fraction = 0
  · refine ⟨0, p % 1 <<< f.fraction, ?_, ?_, by omega, .inl rfl⟩
    · simp only [h]
      rfl
    · rw [h] at hsplit
      simp only [Nat.zero_shiftLeft]
      omega
  · refine ⟨p / 1 <<< f.fraction - 1, 1 <<< f.fraction + p % 1 <<< f.fraction, ?_, ?_,
      by omega, .inr (by omega)⟩
    · simp only [if_neg h]
    · rw [shiftLeft_mul (p / _ - 1)]
      obtain ⟨k, hk⟩ := Nat.exists_eq_succ_of_ne_zero h
      rw [hk] at hsplit ⊢
      rw [Nat.mul_succ, Nat.mul_comm] at hsplit
      rw [Nat.succ_sub_one]
      omega

/-- The units of a significand in an exponent field that suits it. -/
theorem units_pattern (f : Format) {e m : Nat} (hm : m < 1 <<< (f.fraction + 1))
    (he : e = 0 ∨ 1 <<< f.fraction ≤ m) : f.units (e <<< f.fraction + m) = m <<< e := by
  have hF : 1 <<< (f.fraction + 1) = 1 <<< f.fraction * 2 := one_shiftLeft_add f.fraction 1
  have hpos := one_shiftLeft_pos f.fraction
  unfold units
  rw [Nat.shiftRight_eq_div_pow, ← Nat.one_mul (2 ^ f.fraction), ← Nat.shiftLeft_eq,
    shiftLeft_mul e]
  by_cases hlow : m < 1 <<< f.fraction
  · have h0 : e = 0 := he.resolve_right (by omega)
    subst h0
    simp [Nat.div_eq_of_lt hlow, Nat.mod_eq_of_lt hlow]
  · obtain ⟨k, rfl⟩ : ∃ k, m = 1 <<< f.fraction + k := ⟨m - 1 <<< f.fraction, by omega⟩
    have hk : k < 1 <<< f.fraction := by omega
    have hp : e * 1 <<< f.fraction + (1 <<< f.fraction + k) = k + 1 <<< f.fraction * (e + 1) := by
      rw [Nat.mul_succ, Nat.mul_comm]; omega
    rw [hp, Nat.add_mul_div_left _ _ hpos, Nat.add_mul_mod_self_left, Nat.div_eq_of_lt hk,
      Nat.mod_eq_of_lt hk]
    simp

/-- The pattern nearest to a number that has no bits to drop. -/
theorem nearest_shiftLeft (f : Format) {q e s : Nat} (hq : q < 1 <<< (f.fraction + 1))
    (he : e = 0 ∨ 1 <<< f.fraction ≤ q) :
    f.nearest (q <<< (e + s)) s = min (e <<< f.fraction + q) f.infinity := by
  have hdrop : max s (bitLength (q <<< (e + s)) - (f.fraction + 1)) = e + s := by
    by_cases h0 : q = 0
    · subst h0
      have : e = 0 := he.resolve_right (by have := one_shiftLeft_pos f.fraction; omega)
      subst this
      simp [bitLength]
    · rw [bitLength_shiftLeft h0]
      have hhigh := bitLength_le.2 hq
      rcases he with rfl | hle
      · omega
      · have hlow : ¬ bitLength q ≤ f.fraction := by
          rw [bitLength_le]
          exact Nat.not_lt.2 hle
        omega
  unfold nearest
  simp only [hdrop, shiftNearest_shiftLeft, Nat.add_sub_cancel]

/-- A pattern is the nearest to its own value. -/
theorem nearest_units (f : Format) {p : Nat} (hp : p ≤ f.infinity) (s : Nat) :
    f.nearest (f.units p <<< s) s = p := by
  obtain ⟨e, m, hu, hpat, hm, he⟩ := f.units_eq p
  rw [hu, ← Nat.shiftLeft_add, nearest_shiftLeft f hm he, ← hpat, Nat.min_eq_left hp]

/-- Whether every number of the format `f` is one of the format `g`, by a
margin. -/
structure Within (f g : Format) : Prop where
  fraction : f.fraction ≤ g.fraction
  unit : f.unit + g.fraction + 1 ≤ g.unit
  range : 1 <<< f.exponent + g.unit + 2 < 1 <<< g.exponent + f.unit

theorem within_binary : Within binary32 binary64 := ⟨by decide, by decide, by decide⟩

/-- The value of a finite pattern has no bits that the wider format drops, and
lies below its infinity. -/
theorem Within.exact {f g : Format} (h : Within f g) {p : Nat} (hp : p < f.infinity) :
    ∃ e q, f.units p <<< g.unit = q <<< (e + f.unit) ∧ q < 1 <<< (g.fraction + 1) ∧
      (e = 0 ∨ 1 <<< g.fraction ≤ q) ∧ e <<< g.fraction + q < g.infinity := by
  have hinf : ∀ e q, q < 1 <<< (g.fraction + 1) → e + f.unit ≤ 1 <<< f.exponent + g.unit →
      e <<< g.fraction + q < g.infinity := by
    intro e q hq hle
    have hr := h.range
    rw [one_shiftLeft_add] at hq
    rw [infinity, shiftLeft_mul e, shiftLeft_mul (_ - 1)]
    have : (e + 2) * 1 <<< g.fraction ≤ (1 <<< g.exponent - 1) * 1 <<< g.fraction :=
      Nat.mul_le_mul_right _ (by omega)
    rw [Nat.add_mul] at this
    omega
  obtain ⟨e, m, hu, hpat, hm, -⟩ := f.units_eq p
  have he : e < 1 <<< f.exponent := by
    refine Decidable.byContradiction fun hge => ?_
    rw [infinity, shiftLeft_mul (_ - 1)] at hp
    rw [shiftLeft_mul e] at hpat
    have := Nat.mul_le_mul_right (1 <<< f.fraction) (show 1 <<< f.exponent - 1 ≤ e by omega)
    omega
  have hfr := h.fraction
  have hun := h.unit
  rw [hu, ← Nat.shiftLeft_add]
  by_cases h0 : m = 0
  · subst h0
    refine ⟨0, 0, by simp, one_shiftLeft_pos _, .inl rfl, hinf 0 0 (one_shiftLeft_pos _) (by omega)⟩
  · have hL : bitLength m ≤ f.fraction + 1 := bitLength_le.2 hm
    -- as many zeros as fill the wide significand are taken from the scale
    obtain ⟨k, hk⟩ : ∃ k, bitLength m + k = g.fraction + 1 :=
      ⟨g.fraction + 1 - bitLength m, by omega⟩
    have hlen : bitLength (m <<< k) = g.fraction + 1 := by rw [bitLength_shiftLeft h0, hk]
    have hq : m <<< k < 1 <<< (g.fraction + 1) := bitLength_le.1 (Nat.le_of_eq hlen)
    have hlow : 1 <<< g.fraction ≤ m <<< k := by
      refine Nat.not_lt.1 fun hlt => ?_
      have := bitLength_le.2 hlt
      omega
    refine ⟨e + g.unit - k - f.unit, m <<< k, ?_, hq, .inr hlow, hinf _ _ hq (by omega)⟩
    rw [← Nat.shiftLeft_add]
    congr 1
    omega

/-- A finite pattern, widened: the wide pattern is finite, and narrowing it
gives the pattern back. -/
theorem Within.round_trip {f g : Format} (h : Within f g) {p : Nat} (hp : p < f.infinity) :
    g.nearest (f.units p <<< g.unit) f.unit < g.infinity ∧
      f.nearest (g.units (g.nearest (f.units p <<< g.unit) f.unit) <<< f.unit) g.unit = p := by
  obtain ⟨e, q, hn, hq, he, hlt⟩ := h.exact hp
  have hw : g.nearest (f.units p <<< g.unit) f.unit = e <<< g.fraction + q := by
    rw [hn, nearest_shiftLeft g hq he, Nat.min_eq_left (Nat.le_of_lt hlt)]
  have hu : g.units (e <<< g.fraction + q) <<< f.unit = f.units p <<< g.unit := by
    rw [units_pattern g hq he, ← Nat.shiftLeft_add, hn]
  rw [hw, hu, nearest_units f (Nat.le_of_lt hp)]
  exact ⟨hlt, rfl⟩

end Format

namespace Floating

variable {f g : Format}

theorem toBits_lt (x : Floating f) : x.toBits < f.signBit * 2 := by
  have : f.signBit * 2 = 2 ^ f.width := by
    rw [Format.signBit, Format.width, Nat.add_sub_cancel, Nat.shiftLeft_eq, Nat.one_mul]
    rfl
  rw [this]
  exact x.bits.isLt

theorem toBits_ofBits {n : Nat} (h : n < f.signBit * 2) : (ofBits n : Floating f).toBits = n := by
  have : f.signBit * 2 = 2 ^ f.width := by
    rw [Format.signBit, Format.width, Nat.add_sub_cancel, Nat.shiftLeft_eq, Nat.one_mul]
    rfl
  rw [this] at h
  exact Nat.mod_eq_of_lt h

theorem ofBits_toBits (x : Floating f) : ofBits x.toBits = x := by
  rw [ofBits, toBits, BitVec.ofNat_toNat, BitVec.setWidth_eq]

/-- The two parts of a number that is made of them. -/
theorem parts_ofParts {m : Nat} (h : m < f.signBit) (negative : Bool) :
    (ofParts negative m : Floating f).magnitude = m ∧
      (ofParts negative m : Floating f).isNegative = negative := by
  rw [magnitude, isNegative]
  cases negative with
  | false =>
    rw [ofParts, if_neg (by simp), toBits_ofBits (by omega), Nat.mod_eq_of_lt h]
    exact ⟨rfl, decide_eq_false (by omega)⟩
  | true =>
    rw [ofParts, if_pos rfl, toBits_ofBits (by omega), Nat.add_mod_left, Nat.mod_eq_of_lt h]
    exact ⟨rfl, decide_eq_true (by omega)⟩

/-- A number is made of its two parts. -/
theorem ofParts_parts (x : Floating f) : ofParts x.isNegative x.magnitude = x := by
  have hlt := x.toBits_lt
  rw [ofParts, isNegative, magnitude]
  by_cases h : f.signBit ≤ x.toBits
  · have : f.signBit + x.toBits % f.signBit = x.toBits := by
      obtain ⟨k, hk⟩ := Nat.exists_eq_add_of_le h
      rw [hk, Nat.add_mod_left, Nat.mod_eq_of_lt (by omega)]
    rw [if_pos (decide_eq_true h), this, ofBits_toBits]
  · rw [if_neg (by simpa using h), Nat.mod_eq_of_lt (by omega), ofBits_toBits]

theorem isNaN_ofParts (hf : f.infinity < f.signBit) {m : Nat} (hm : m ≤ f.infinity)
    (negative : Bool) : (ofParts negative m : Floating f).isNaN = false := by
  rw [isNaN, (parts_ofParts (Nat.lt_of_le_of_lt hm hf) negative).1]
  exact decide_eq_false (Nat.not_lt.2 hm)

/-- A number is no NaN in another format, whatever is lost of it. -/
theorem isNaN_convert (hg : g.infinity < g.signBit) {x : Floating f} (hx : x.isNaN = false) :
    (x.convert g).isNaN = false := by
  rw [convert, if_neg (by simp [hx])]
  split
  · exact isNaN_ofParts hg (Nat.le_refl _) _
  · exact isNaN_ofParts hg (Format.nearest_le_infinity g _ _) _

theorem isNaN_ofInt (hf : f.infinity < f.signBit) (n : Int) : (ofInt n : Floating f).isNaN = false :=
  isNaN_ofParts hf (Format.nearest_le_infinity f _ _) _

/-- Narrowing gives back the number that was widened. -/
theorem convert_convert (h : Format.Within f g) (hg : g.infinity < g.signBit) {x : Floating f}
    (hx : x.isNaN = false) : (x.convert g).convert f = x := by
  have hnan := isNaN_convert hg hx
  have hle : x.magnitude ≤ f.infinity := by simpa [isNaN] using hx
  by_cases hinf : x.magnitude = f.infinity
  · have hc : x.convert g = ofParts x.isNegative g.infinity := by
      rw [convert, if_neg (by simp [hx]), if_pos (by simpa [isInfinite] using hinf)]
    obtain ⟨hm, hn⟩ := parts_ofParts hg x.isNegative
    rw [convert, if_neg (by simp [hnan]), hc, if_pos (by simpa [isInfinite] using hm), hn, ← hinf,
      ofParts_parts]
  · obtain ⟨hlt, hback⟩ := h.round_trip (Nat.lt_of_le_of_ne hle hinf)
    have hc : x.convert g =
        ofParts x.isNegative (g.nearest (f.units x.magnitude <<< g.unit) f.unit) := by
      rw [convert, if_neg (by simp [hx]), if_neg (by simpa [isInfinite] using hinf)]
    obtain ⟨hm, hn⟩ := parts_ofParts (Nat.lt_trans hlt hg) x.isNegative
    have hfinite : (x.convert g).isInfinite = false := by
      rw [hc]
      simpa [isInfinite, hm] using Nat.ne_of_lt hlt
    rw [convert, if_neg (by simp [hnan]), if_neg (by simp [hfinite]), hc, hm, hn, hback,
      ofParts_parts]

end Floating

/-- A wide number is no NaN if the number is none. -/
theorem isNaN_toDouble {x : Single} (h : x.isNaN = false) : x.toDouble.isNaN = false :=
  Floating.isNaN_convert (by decide) h

/-- Narrowing undoes widening. -/
theorem toSingle_toDouble {x : Single} (h : x.isNaN = false) : x.toDouble.toSingle = x :=
  Floating.convert_convert Format.within_binary (by decide) h

end Folio.Number
