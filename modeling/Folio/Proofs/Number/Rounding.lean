import Folio.Proofs.Number.Widening

/-!
# Rounding and order

Rounding to a format keeps the order of numbers, though it may take different
ones to the same: of two whole numbers the smaller never comes out above the
larger. A quotient that is rounded lies between its floor and the next number;
where two floors differ this is enough, and where they are the same the
remainders decide. Whole numbers that fit the significand are not rounded, and
neither is the first one that does not.

Results:
* `shiftNearest_mono`, `nearest_mono`: rounding keeps the order.
* `rank_ofInt_mono`: so does the place of a whole number among the numbers of a
  format.
* `rank_ofInt_inj`: whole numbers up to the first that does not fit the
  significand have different places.
-/
namespace Folio.Number

namespace Format

variable {f : Format} {n m s : Nat}

/-! ## Division -/

theorem le_shiftNearest (n s : Nat) : n / 1 <<< s ≤ shiftNearest n s := by
  simp only [shiftNearest]
  split <;> omega

theorem shiftNearest_le (n s : Nat) : shiftNearest n s ≤ n / 1 <<< s + 1 := by
  simp only [shiftNearest]
  split <;> omega

theorem shiftNearest_mono (h : n ≤ m) (s : Nat) : shiftNearest n s ≤ shiftNearest m s := by
  have hdiv : n / 1 <<< s ≤ m / 1 <<< s := Nat.div_le_div_right h
  by_cases hlt : n / 1 <<< s < m / 1 <<< s
  · have := shiftNearest_le n s
    have := le_shiftNearest m s
    omega
  · have heq : n / 1 <<< s = m / 1 <<< s := by omega
    have hmod : n % 1 <<< s ≤ m % 1 <<< s := by
      have hn := Nat.div_add_mod n (1 <<< s)
      have hm := Nat.div_add_mod m (1 <<< s)
      rw [heq] at hn
      omega
    simp only [shiftNearest, heq]
    split <;> split <;> omega

/-! ## Patterns -/

theorem bitLength_mono (h : n ≤ m) : bitLength n ≤ bitLength m :=
  bitLength_le.2 (Nat.lt_of_le_of_lt h (bitLength_le.1 (Nat.le_refl _)))

/-- The significand that is left when at least so many bits are dropped. -/
theorem shiftNearest_le_of_bitLength (h : bitLength n ≤ s + (f.fraction + 1)) :
    shiftNearest n s ≤ 1 <<< f.fraction * 2 := by
  have hdiv : n / 1 <<< s < 1 <<< (f.fraction + 1) := by
    rw [Nat.div_lt_iff_lt_mul (one_shiftLeft_pos s), ← one_shiftLeft_add, Nat.add_comm _ s]
    exact bitLength_le.1 h
  have hF : 1 <<< (f.fraction + 1) = 1 <<< f.fraction * 2 := one_shiftLeft_add f.fraction 1
  have := shiftNearest_le n s
  omega

/-- The significand has its leading bit where no more bits are dropped. -/
theorem le_shiftNearest_of_bitLength (h : s + f.fraction < bitLength n) :
    1 <<< f.fraction ≤ shiftNearest n s := by
  have hle : ¬ bitLength n ≤ s + f.fraction := by omega
  rw [bitLength_le, one_shiftLeft_add] at hle
  have hdiv : 1 <<< f.fraction ≤ n / 1 <<< s := by
    rw [Nat.le_div_iff_mul_le (one_shiftLeft_pos s), Nat.mul_comm]
    omega
  exact Nat.le_trans hdiv (le_shiftNearest n s)

/-- The nearest patterns of two numbers stand as the numbers do. -/
theorem nearest_mono (f : Format) (h : n ≤ m) (s : Nat) : f.nearest n s ≤ f.nearest m s := by
  have hlength := bitLength_mono h
  unfold nearest
  generalize hd : max s (bitLength n - (f.fraction + 1)) = d
  generalize he : max s (bitLength m - (f.fraction + 1)) = e
  refine Nat.le_min.2 ⟨Nat.le_trans (Nat.min_le_left _ _) ?_, Nat.min_le_right _ _⟩
  by_cases hde : d = e
  · rw [hde]
    exact Nat.add_le_add_left (shiftNearest_mono h e) _
  · -- the larger number has a greater exponent, and the carry of the smaller one cannot pass it
    have hlow : shiftNearest n d ≤ 1 <<< f.fraction * 2 := shiftNearest_le_of_bitLength (by omega)
    have hhigh : 1 <<< f.fraction ≤ shiftNearest m e := le_shiftNearest_of_bitLength (by omega)
    have hstep : (d - s + 1) * 1 <<< f.fraction ≤ (e - s) * 1 <<< f.fraction :=
      Nat.mul_le_mul_right _ (by omega)
    rw [shiftLeft_mul (d - s), shiftLeft_mul (e - s)]
    rw [Nat.add_mul, Nat.one_mul] at hstep
    omega

/-! ## Whole numbers that are not rounded -/

/-- A whole number that fits the significand, or is the first that does not, as a
significand and a scale. -/
theorem exists_significand {k : Nat} (hk : k ≤ 1 <<< (f.fraction + 1)) (hunit : f.fraction ≤ f.unit) :
    ∃ q e, k <<< f.unit = q <<< e ∧ q < 1 <<< (f.fraction + 1) ∧
      (e = 0 ∨ 1 <<< f.fraction ≤ q) ∧ e ≤ f.unit + 1 := by
  have hF : 1 <<< (f.fraction + 1) = 1 <<< f.fraction * 2 := one_shiftLeft_add f.fraction 1
  have hpos := one_shiftLeft_pos f.fraction
  by_cases h0 : k = 0
  · exact ⟨0, 0, by simp [h0], one_shiftLeft_pos _, .inl rfl, by omega⟩
  by_cases hlast : k = 1 <<< (f.fraction + 1)
  · refine ⟨1 <<< f.fraction, f.unit + 1, ?_, by omega, .inr (Nat.le_refl _), Nat.le_refl _⟩
    rw [hlast, ← Nat.shiftLeft_add, ← Nat.shiftLeft_add]
    congr 1
    omega
  · have hlength : bitLength k ≤ f.fraction + 1 := bitLength_le.2 (by omega)
    -- as many zeros as fill the significand are taken from the scale
    obtain ⟨z, hz⟩ : ∃ z, bitLength k + z = f.fraction + 1 := ⟨f.fraction + 1 - bitLength k, by omega⟩
    have hfull : bitLength (k <<< z) = f.fraction + 1 := by rw [bitLength_shiftLeft h0, hz]
    have hone : 1 ≤ bitLength k := by
      rw [bitLength, if_neg h0]
      omega
    refine ⟨k <<< z, f.unit - z, ?_, bitLength_le.1 (Nat.le_of_eq hfull), .inr ?_, by omega⟩
    · rw [← Nat.shiftLeft_add]
      congr 1
      omega
    · refine Nat.not_lt.1 fun hlt => ?_
      have := bitLength_le.2 hlt
      omega

/-- The nearest pattern of such a number has its value. -/
theorem units_nearest_whole {k : Nat} (hk : k ≤ 1 <<< (f.fraction + 1)) (hunit : f.fraction ≤ f.unit)
    (hrange : (f.unit + 3) * 1 <<< f.fraction ≤ f.infinity) :
    f.units (f.nearest (k <<< f.unit) 0) = k <<< f.unit := by
  obtain ⟨q, e, hvalue, hq, he, hscale⟩ := exists_significand hk hunit
  have hpattern : e <<< f.fraction + q ≤ f.infinity := by
    have hF : 1 <<< (f.fraction + 1) = 1 <<< f.fraction * 2 := one_shiftLeft_add f.fraction 1
    have hle : (e + 2) * 1 <<< f.fraction ≤ (f.unit + 3) * 1 <<< f.fraction :=
      Nat.mul_le_mul_right _ (by omega)
    rw [Nat.add_mul] at hle
    rw [shiftLeft_mul e]
    omega
  have hnearest := nearest_shiftLeft f hq he (s := 0)
  rw [Nat.add_zero, Nat.min_eq_left hpattern] at hnearest
  rw [hvalue, hnearest, units_pattern f hq he]

end Format

namespace Floating

variable {f : Format}

theorem beq_iff {x y : Floating f} :
    (x == y) = true ↔ x.isNaN = false ∧ y.isNaN = false ∧ x.rank = y.rank := by
  simp [BEq.beq, and_assoc]

theorem rank_ofParts {m : Nat} (h : m < f.signBit) (negative : Bool) :
    (ofParts negative m : Floating f).rank = if negative then -(m : Int) else m := by
  obtain ⟨hm, hn⟩ := parts_ofParts h negative
  rw [rank, hm, hn]

theorem rank_ofInt (hf : f.infinity < f.signBit) (n : Int) : (ofInt n : Floating f).rank =
    if n < 0 then -(f.nearest (n.natAbs <<< f.unit) 0 : Int)
    else f.nearest (n.natAbs <<< f.unit) 0 := by
  rw [ofInt, rank_ofParts (Nat.lt_of_le_of_lt (Format.nearest_le_infinity ..) hf)]
  simp only [decide_eq_true_eq]

/-- Whole numbers keep their order when they are rounded. -/
theorem rank_ofInt_mono (hf : f.infinity < f.signBit) {a b : Int} (h : a ≤ b) :
    (ofInt a : Floating f).rank ≤ (ofInt b : Floating f).rank := by
  have hmono : ∀ {k l : Nat}, k ≤ l → f.nearest (k <<< f.unit) 0 ≤ f.nearest (l <<< f.unit) 0 := by
    intro k l hkl
    refine Format.nearest_mono f ?_ 0
    rw [Format.shiftLeft_mul k, Format.shiftLeft_mul l]
    exact Nat.mul_le_mul_right _ hkl
  rw [rank_ofInt hf, rank_ofInt hf]
  by_cases ha : a < 0
  · by_cases hb : b < 0
    · rw [if_pos ha, if_pos hb]
      have := hmono (show b.natAbs ≤ a.natAbs by omega)
      omega
    · rw [if_pos ha, if_neg hb]
      omega
  · have hb : ¬ b < 0 := by omega
    rw [if_neg ha, if_neg hb]
    have := hmono (show a.natAbs ≤ b.natAbs by omega)
    omega

/-- Whole numbers that are not rounded have different places. -/
theorem rank_ofInt_inj (hf : f.infinity < f.signBit) (hunit : f.fraction ≤ f.unit)
    (hrange : (f.unit + 3) * 1 <<< f.fraction ≤ f.infinity) {a b : Int}
    (ha : a.natAbs ≤ 1 <<< (f.fraction + 1)) (hb : b.natAbs ≤ 1 <<< (f.fraction + 1))
    (h : (ofInt a : Floating f).rank = (ofInt b : Floating f).rank) : a = b := by
  have hinj : ∀ {k l : Nat}, k ≤ 1 <<< (f.fraction + 1) → l ≤ 1 <<< (f.fraction + 1) →
      f.nearest (k <<< f.unit) 0 = f.nearest (l <<< f.unit) 0 → k = l := by
    intro k l hk hl hkl
    have hunits := congrArg f.units hkl
    rw [Format.units_nearest_whole hk hunit hrange, Format.units_nearest_whole hl hunit hrange,
      Format.shiftLeft_mul k, Format.shiftLeft_mul l] at hunits
    exact Nat.eq_of_mul_eq_mul_right (Format.one_shiftLeft_pos f.unit) hunits
  have hzero : f.nearest (0 <<< f.unit) 0 = 0 := by
    simp [Format.nearest, Format.shiftNearest, Format.bitLength]
  have hnone : ∀ {k : Nat}, k ≤ 1 <<< (f.fraction + 1) → f.nearest (k <<< f.unit) 0 = 0 → k = 0 :=
    fun hk hk0 => hinj hk (Nat.zero_le _) (hk0.trans hzero.symm)
  rw [rank_ofInt hf, rank_ofInt hf] at h
  by_cases hna : a < 0 <;> by_cases hnb : b < 0
  · rw [if_pos hna, if_pos hnb] at h
    have := hinj ha hb (by omega)
    omega
  · rw [if_pos hna, if_neg hnb] at h
    have := hnone ha (by omega)
    omega
  · rw [if_neg hna, if_pos hnb] at h
    have := hnone hb (by omega)
    omega
  · rw [if_neg hna, if_neg hnb] at h
    have := hinj ha hb (by omega)
    omega

end Floating
end Folio.Number
