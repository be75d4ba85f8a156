import Folio.Proofs.Cbor.Taking
import Mathlib.Order.Defs.Unbundled

/-!
# Names in the order of their bytes

Names are ordered by how many bytes they have, and only then by these bytes.
This is the order of the items that stand for them, byte by byte: the first
byte of a head is the larger one when the argument takes more room behind it,
and arguments that take the same room are spelt in their own order.

Results:
* `compare_toNat`: byte strings of one length are ordered like the numbers
  that they spell.
* `compare_head`: heads are ordered like their arguments, and only behind equal
  heads does it matter what follows.
* `keyOrder_spelt`: names are ordered like their items, and strictly.
-/
namespace Folio

namespace Bytes

/-! ## Byte strings of one length -/

theorem compare_byte (x y : UInt8) : compare x y = compare x.toNat y.toNat := by
  simp [compare, compareOfLessAndEq, UInt8.lt_iff_toNat_lt, UInt8.toNat_inj]

/-- Behind front parts of one length the back parts matter only if the front
parts are equal. -/
theorem compare_append {a b : Bytes} (h : a.length = b.length) (c d : Bytes) :
    compare (a ++ c) (b ++ d) = (compare a b).then (compare c d) := by
  induction a generalizing b with
  | nil =>
    cases b with
    | nil => rfl
    | cons y b => cases h
  | cons x a ih =>
    cases b with
    | nil => cases h
    | cons y b =>
      rw [List.cons_append, List.cons_append, List.compare_cons_cons, List.compare_cons_cons,
        ih (Nat.succ.inj h), Ordering.then_assoc]

/-- The last digit matters only if the digits before it are equal. -/
theorem compare_mul_add {k r s : Nat} (hr : r < k) (hs : s < k) (m n : Nat) :
    compare (m * k + r) (n * k + s) = (compare m n).then (compare r s) := by
  have step : ∀ {m n : Nat}, m < n → m * k + k ≤ n * k := fun h => by
    rw [← Nat.succ_mul]
    exact Nat.mul_le_mul_right k h
  rcases Nat.lt_trichotomy m n with h | rfl | h
  · have := step h
    rw [Nat.compare_eq_lt.2 h, Nat.compare_eq_lt.2 (by omega)]
    rfl
  · rw [Nat.compare_eq_eq.2 rfl]
    simp only [Nat.compare_eq_ite_lt, Nat.add_lt_add_iff_left]
    rfl
  · have := step h
    rw [Nat.compare_eq_gt.2 h, Nat.compare_eq_gt.2 (by omega)]
    rfl

/-- The first byte is the first digit of the number. -/
theorem compare_toNat {a b : Bytes} (h : a.length = b.length) :
    compare a b = compare (toNat a) (toNat b) := by
  induction a generalizing b with
  | nil =>
    cases b with
    | nil => rfl
    | cons y b => cases h
  | cons x a ih =>
    cases b with
    | nil => cases h
    | cons y b =>
      have hlen : a.length = b.length := Nat.succ.inj h
      rw [List.compare_cons_cons, compare_byte, ih hlen, toNat_cons, toNat_cons, ← hlen]
      exact (compare_mul_add (toNat_lt a) (hlen ▸ toNat_lt b) x.toNat y.toNat).symm

theorem compare_ofNat {w m n : Nat} (hm : m < Nat.pow 256 w) (hn : n < Nat.pow 256 w) :
    compare (ofNat w m) (ofNat w n) = compare m n := by
  rw [compare_toNat (by rw [length_ofNat, length_ofNat]), toNat_ofNat hm, toNat_ofNat hn]

end Bytes

namespace Cbor

/-! ## Heads -/

/-- The low bits of the first byte of a head: the argument if it is small, and
else how many bytes it takes. -/
def lowBits (n : Nat) : Nat :=
  if n < 24 then n
  else if n < 0x100 then 24
  else if n < 0x10000 then 25
  else if n < 0x100000000 then 26
  else 27

/-- How many bytes stand behind a first byte with these low bits. -/
def room (info : Nat) : Nat := if info < 24 then 0 else 2 ^ (info - 24)

theorem head_eq {n : Nat} (h : n ≤ maxArgument) (kind : Kind) :
    head kind n = initial kind (lowBits n) :: Bytes.ofNat (room (lowBits n)) n := by
  unfold head lowBits
  split
  · next hn => rw [room, if_pos hn]; rfl
  split
  · rfl
  split
  · rfl
  split
  · rfl
  · rw [Nat.min_eq_left h]; rfl

theorem lowBits_lt (n : Nat) : lowBits n < 32 := by
  unfold lowBits
  repeat' split
  all_goals omega

/-- A larger argument has no smaller low bits. -/
theorem lowBits_mono {m n : Nat} (h : m ≤ n) : lowBits m ≤ lowBits n := by
  unfold lowBits
  repeat' split
  all_goals omega

theorem lt_of_lowBits {m n : Nat} (h : lowBits m < lowBits n) : m < n :=
  Nat.lt_of_not_le fun hle => Nat.not_lt.2 (lowBits_mono hle) h

/-- An argument that does not stand in the first byte fits the room behind it. -/
theorem fits_room {n : Nat} (h : n ≤ maxArgument) (hn : ¬ n < 24) :
    n < Nat.pow 256 (room (lowBits n)) := by
  unfold lowBits
  rw [if_neg hn]
  split
  · next h1 => exact h1
  split
  · next h2 => exact h2
  split
  · next h3 => exact h3
  · exact Nat.lt_of_le_of_lt h (by decide)

theorem lowBits_eq_iff {n : Nat} : lowBits n < 24 ↔ n < 24 := by
  unfold lowBits
  repeat' split
  all_goals omega

/-- Arguments with the same low bits are ordered by the bytes behind these. -/
theorem compare_room {m n : Nat} (hm : m ≤ maxArgument) (hn : n ≤ maxArgument)
    (h : lowBits m = lowBits n) :
    compare (Bytes.ofNat (room (lowBits m)) m) (Bytes.ofNat (room (lowBits n)) n) = compare m n := by
  by_cases small : m < 24
  · have hsmall : n < 24 := lowBits_eq_iff.1 (h ▸ lowBits_eq_iff.2 small)
    rw [lowBits, lowBits, if_pos small, if_pos hsmall] at h
    rw [h, Std.compare_self, Std.compare_self]
  · have hlarge : ¬ n < 24 := fun hn => small (lowBits_eq_iff.1 (h ▸ lowBits_eq_iff.2 hn))
    rw [← h, Bytes.compare_ofNat (fits_room hm small) (h ▸ fits_room hn hlarge)]

theorem compare_initial (kind : Kind) {i j : Nat} (hi : i < 32) (hj : j < 32) :
    compare (initial kind i) (initial kind j) = compare i j := by
  rw [Bytes.compare_byte, toNat_initial hi, toNat_initial hj, Bytes.compare_mul_add hi hj,
    Std.compare_self]
  rfl

/-- Heads of one kind are ordered like their arguments, and only behind equal
heads does it matter what follows. -/
theorem compare_head (kind : Kind) {m n : Nat} (hm : m ≤ maxArgument) (hn : n ≤ maxArgument)
    (b c : Bytes) :
    compare (head kind m ++ b) (head kind n ++ c) = (compare m n).then (compare b c) := by
  rw [head_eq hm, head_eq hn, List.cons_append, List.cons_append, List.compare_cons_cons,
    compare_initial kind (lowBits_lt m) (lowBits_lt n)]
  rcases Nat.lt_trichotomy (lowBits m) (lowBits n) with h | h | h
  · rw [Nat.compare_eq_lt.2 h, Nat.compare_eq_lt.2 (lt_of_lowBits h)]
    rfl
  · rw [Nat.compare_eq_eq.2 h, Bytes.compare_append (by rw [Bytes.length_ofNat, Bytes.length_ofNat, h]),
      compare_room hm hn h]
    rfl
  · rw [Nat.compare_eq_gt.2 h, Nat.compare_eq_gt.2 (lt_of_lowBits h)]
    rfl

/-! ## Names -/

variable {a b : String}

theorem keyOrder_eq_compare (ha : (Bytes.ofText a).length ≤ maxArgument)
    (hb : (Bytes.ofText b).length ≤ maxArgument) : keyOrder a b = compare (text a) (text b) := by
  rw [text, text, string, string, compare_head .text ha hb]
  rfl

theorem keyOrder_strict : IsStrictTotalOrder String fun a b => keyOrder a b = .lt where
  irrefl a h := by
    rw [keyOrder_self] at h
    cases h
  trans _ _ _ := keyOrder_trans
  trichotomous a b hab hba := by
    rw [keyOrder_swap] at hba
    cases h : keyOrder a b with
    | lt => exact absurd h hab
    | eq => exact Std.LawfulEqCmp.eq_of_compare h
    | gt => exact absurd (congrArg Ordering.swap h) hba

/-- Fields stand in the order of their names exactly when the items of the
names ascend byte by byte. -/
theorem ascending_iff_spelt {fields : List (String × Value)}
    (h : ∀ f ∈ fields, (Bytes.ofText f.1).length ≤ maxArgument) :
    Ascending fields ↔ (fields.map fun f => text f.1).Pairwise fun x y => compare x y = .lt := by
  rw [List.pairwise_map]
  have same : ∀ {f g}, f ∈ fields → g ∈ fields →
      (keyOrder f.1 g.1 = .lt ↔ compare (text f.1) (text g.1) = .lt) := fun hf hg => by
    rw [keyOrder_eq_compare (h _ hf) (h _ hg)]
  exact ⟨fun ha => ha.imp_of_mem fun hf hg => (same hf hg).1,
    fun hs => hs.imp_of_mem fun hf hg => (same hf hg).2⟩

/-- Names are ordered like the items that are written for them, byte by byte,
head and all. A length is told by its head, so it is at most the largest
argument. The order is strict and total. -/
theorem keyOrder_spelt :
    (∀ a b : String, (Bytes.ofText a).length ≤ maxArgument → (Bytes.ofText b).length ≤ maxArgument →
      keyOrder a b = compare (text a) (text b)) ∧
    IsStrictTotalOrder String fun a b => keyOrder a b = .lt :=
  ⟨fun _ _ => keyOrder_eq_compare, keyOrder_strict⟩

/-- The longest name whose length is told by one byte, and a longer one whose
bytes are smaller. -/
theorem keyOrder_spelt_wide :
    let a := String.ofList (List.replicate 255 'z')
    let b := String.ofList (List.replicate 256 'a')
    (Bytes.ofText a).length ≤ maxArgument ∧ (Bytes.ofText b).length ≤ maxArgument ∧
      keyOrder a b = .lt ∧ compare (text a) (text b) = .lt := by
  intro a b
  have ha : (Bytes.ofText a).length ≤ maxArgument := by decide +kernel
  have hb : (Bytes.ofText b).length ≤ maxArgument := by decide +kernel
  have hlt : keyOrder a b = .lt := by decide +kernel
  exact ⟨ha, hb, hlt, (keyOrder_spelt.1 a b ha hb).symm.trans hlt⟩

end Cbor
end Folio
