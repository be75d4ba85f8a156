import Mathlib.Data.List.Basic
import Folio.ObjectId

/-!
# The texts of an object id

An object id is read from the bytes of a text, two at a time. Told by the characters of
the text, each pair of them is two hexadecimal digits, of which the first may be a plus
sign for 0. The text is also taken apart after each pair of bytes, and a character of
several bytes may lie across that place: then there is no answer at all.

Results:
* `utf8_cases`: the bytes that a character is spelt by.
* `readPairs_eq_ok_iff`, `readPairs_eq_none_iff`: what is read from a text, and when
  there is no answer.
* `parse_spelt_iff`: the texts of an id, and exactly where they are not the texts of its
  24 digits.
-/
namespace Folio
namespace ObjectId

open String (utf8EncodeChar)
open Bytes (hexDigit hexValue?)

/-! ## The bytes of a text -/

theorem isContinuation_ofNat (n : Nat) : isContinuation (UInt8.ofNat (n % 64 + 128)) = true := by
  have hlt : n % 64 < 64 := Nat.mod_lt n (by decide)
  have hn : (UInt8.ofNat (n % 64 + 128)).toNat = n % 64 + 128 := by
    rw [UInt8.toNat_ofNat', Nat.mod_eq_of_lt (by omega)]
  refine decide_eq_true ⟨?_, ?_⟩
  · rw [UInt8.le_iff_toNat_le, hn]
    exact Nat.le_add_left _ _
  · rw [UInt8.lt_iff_toNat_lt, hn]
    exact Nat.add_lt_add_right hlt 128

/-- A character is spelt by one byte below 128, or by a byte from 192 on and bytes that
continue it. -/
theorem utf8_cases (c : Char) :
    utf8EncodeChar c = [UInt8.ofNat c.toNat] ∧ c.toNat < 128 ∨
    ∃ first second more, utf8EncodeChar c = first :: second :: more ∧ 128 ≤ c.toNat ∧
      192 ≤ first ∧ ∀ b ∈ second :: more, isContinuation b = true := by
  have hle : ∀ n, 192 ≤ n → n < 256 → 192 ≤ UInt8.ofNat n := by
    intro n h h'
    rw [UInt8.le_iff_toNat_le, UInt8.toNat_ofNat', Nat.mod_eq_of_lt h']
    exact h
  unfold utf8EncodeChar
  dsimp only
  split
  · next h => exact .inl ⟨rfl, Nat.lt_succ_of_le h⟩
  next h =>
  have hlarge : 128 ≤ c.toNat := Nat.lt_of_not_le h
  split
  · refine .inr ⟨_, _, _, rfl, hlarge, hle _ (by omega) (by omega), ?_⟩
    simp only [List.forall_mem_cons, isContinuation_ofNat, List.not_mem_nil, false_implies,
      implies_true, and_self]
  split
  all_goals
    refine .inr ⟨_, _, _, rfl, hlarge, hle _ (by omega) (by omega), ?_⟩
    simp only [List.forall_mem_cons, isContinuation_ofNat, List.not_mem_nil, false_implies,
      implies_true, and_self]

/-- The bytes of the characters, one character after another. -/
def utf8 (text : List Char) : Bytes := text.flatMap utf8EncodeChar

theorem utf8_cons (c : Char) (text : List Char) : utf8 (c :: text) = utf8EncodeChar c ++ utf8 text :=
  rfl

theorem ofText_eq_utf8 (s : String) : Bytes.ofText s = utf8 s.toList := by
  have hbytes : s.toUTF8 = s.toList.utf8Encode := by
    conv => lhs; rw [← String.ofList_toList (s := s)]
    rw [String.toUTF8_eq_toByteArray, String.toByteArray_ofList]
  rw [Bytes.ofText, hbytes, List.utf8Encode, List.data_toByteArray]
  rfl

/-- Between two characters no character goes on. -/
theorem head_utf8 (text : List Char) : (utf8 text).head?.any isContinuation = false := by
  cases text with
  | nil => rfl
  | cons c rest =>
    rw [utf8_cons]
    rcases utf8_cases c with ⟨h, hc⟩ | ⟨first, second, more, h, -, hfirst, -⟩ <;> rw [h]
    · refine decide_eq_false fun hb => ?_
      have hle := UInt8.le_iff_toNat_le.1 hb.1
      rw [UInt8.toNat_ofNat', Nat.mod_eq_of_lt (by omega)] at hle
      exact absurd hc (Nat.not_lt.2 hle)
    · exact decide_eq_false fun hb => absurd hb.2 (UInt8.not_lt.2 hfirst)

/-! ## Digits -/

/-- The hexadecimal digits of either letter case. -/
def hexDigits : List Char := "0123456789abcdefABCDEF".toList

theorem toNat_hexDigit : ∀ n < 16, (hexDigit n).toNat < 128 := by decide

/-- A digit that is written is read back. -/
theorem hexValue?_hexDigit : ∀ n < 16, hexValue? (UInt8.ofNat (hexDigit n).toNat) = some n := by
  decide

/-- The letter case makes no difference to the value. -/
theorem hexValue?_toLower : ∀ k < 128,
    hexValue? (UInt8.ofNat (Char.ofNat k).toLower.toNat) = hexValue? (UInt8.ofNat k) := by
  decide

/-- What is read as a digit is one, in some letter case. -/
theorem toLower_ofNat : ∀ k < 128, ∀ n ∈ hexValue? (UInt8.ofNat k),
    (Char.ofNat k).toLower = hexDigit n := by
  decide

theorem mem_hexDigits_ofNat : ∀ k < 128,
    (hexValue? (UInt8.ofNat k)).isSome = true → Char.ofNat k ∈ hexDigits := by
  decide

theorem lt_of_hexValue? {b : UInt8} {n : Nat} (h : hexValue? b = some n) : n < 16 := by
  simp only [hexValue?, UInt8.le_iff_toNat_le, UInt8.reduceToNat] at h
  split at h
  · cases h
    omega
  split at h
  · cases h
    omega
  split at h
  · cases h
    omega
  · cases h

/-- Only a character of one byte is a digit. -/
theorem lt_of_toLower {c : Char} {n : Nat} (hn : n < 16) (h : c.toLower = hexDigit n) :
    c.toNat < 128 := by
  refine Nat.lt_of_not_le fun hc => ?_
  have hsame : c.toLower = c := dif_neg fun hupper =>
    absurd (Nat.le_trans hc (UInt32.le_iff_toNat_le.1 hupper.2)) (by decide)
  rw [hsame] at h
  exact absurd (toNat_hexDigit n hn) (Nat.not_lt.2 (h ▸ hc))

theorem hexValue?_eq_some_iff {c : Char} {n : Nat} (hc : c.toNat < 128) :
    hexValue? (UInt8.ofNat c.toNat) = some n ↔ n < 16 ∧ c.toLower = hexDigit n := by
  constructor
  · intro h
    have hdigit := toLower_ofNat c.toNat hc n h
    rw [Char.ofNat_toNat] at hdigit
    exact ⟨lt_of_hexValue? h, hdigit⟩
  · rintro ⟨hn, hdigit⟩
    have hcase := hexValue?_toLower c.toNat hc
    rw [Char.ofNat_toNat, hdigit, hexValue?_hexDigit n hn] at hcase
    exact hcase.symm

theorem mem_hexDigits_iff {c : Char} : c ∈ hexDigits ↔ ∃ n < 16, c.toLower = hexDigit n := by
  constructor
  · intro hc
    have hall : hexDigits.all (fun c => (List.range 16).any fun n => c.toLower = hexDigit n) := by
      decide
    obtain ⟨n, hn, h⟩ := List.any_eq_true.1 (List.all_eq_true.1 hall c hc)
    exact ⟨n, List.mem_range.1 hn, of_decide_eq_true h⟩
  · rintro ⟨n, hn, h⟩
    have hc := lt_of_toLower hn h
    have hmem := mem_hexDigits_ofNat c.toNat hc
    rw [(hexValue?_eq_some_iff hc).2 ⟨hn, h⟩, Char.ofNat_toNat] at hmem
    exact hmem rfl

/-! ## Pairs of digits -/

/-- The digit that a first character of a pair stands for: a plus sign stands for 0. -/
def plain (c : Char) : Char := if c = '+' then '0' else c

/-- The text with 0 in place of each plus sign that is the first of a pair. -/
def unsigned : List Char → List Char
  | a :: b :: rest => plain a :: b :: unsigned rest
  | [a] => [a]
  | [] => []

/-- The two digits of a byte. -/
def pairOf (b : UInt8) : List Char := [hexDigit (b.toNat / 16), hexDigit (b.toNat % 16)]

theorem lt_of_plain {c : Char} (h : (plain c).toNat < 128) : c.toNat < 128 := by
  unfold plain at h
  split at h
  · next hplus => exact hplus ▸ (by decide)
  · exact h

/-- A pair of characters of one byte each is read as what its digits spell. -/
theorem pairValue?_eq_some_iff {a b : Char} {n : Nat} (ha : a.toNat < 128) (hb : b.toNat < 128) :
    pairValue? (UInt8.ofNat a.toNat) (UInt8.ofNat b.toNat) = some n ↔
      n < 256 ∧ (plain a).toLower = hexDigit (n / 16) ∧ b.toLower = hexDigit (n % 16) := by
  have hplus : UInt8.ofNat a.toNat = 43 ↔ a = '+' := by
    refine ⟨fun h => ?_, fun h => by rw [h]; rfl⟩
    have hn : a.toNat = 43 := by
      have := congrArg UInt8.toNat h
      rwa [UInt8.toNat_ofNat', Nat.mod_eq_of_lt (by omega)] at this
    rw [← Char.ofNat_toNat a, hn]
  unfold pairValue?
  rw [plain]
  by_cases h : a = '+'
  · rw [if_pos (hplus.2 h), if_pos h, hexValue?_eq_some_iff hb]
    constructor
    · rintro ⟨hn, hdigit⟩
      rw [Nat.div_eq_of_lt hn, Nat.mod_eq_of_lt hn]
      exact ⟨by omega, rfl, hdigit⟩
    · rintro ⟨hn, hzero, hdigit⟩
      have hdiv := hexValue?_hexDigit (n / 16) (by omega)
      rw [← hzero, show hexValue? (UInt8.ofNat '0'.toLower.toNat) = some 0 from rfl,
        Option.some.injEq] at hdiv
      have hlt : n < 16 := by omega
      rw [Nat.mod_eq_of_lt hlt] at hdigit
      exact ⟨hlt, hdigit⟩
  · rw [if_neg (mt hplus.1 h), if_neg h]
    constructor
    · intro hread
      obtain ⟨x, hx, hread⟩ := Option.bind_eq_some_iff.1 hread
      obtain ⟨y, hy, hread⟩ := Option.bind_eq_some_iff.1 hread
      obtain ⟨hx, hfirst⟩ := (hexValue?_eq_some_iff ha).1 hx
      obtain ⟨hy, hsecond⟩ := (hexValue?_eq_some_iff hb).1 hy
      cases hread
      have hdiv : (16 * x + y) / 16 = x := by omega
      have hmod : (16 * x + y) % 16 = y := by omega
      rw [hdiv, hmod]
      exact ⟨by omega, hfirst, hsecond⟩
    · rintro ⟨hn, hfirst, hsecond⟩
      have hx := (hexValue?_eq_some_iff ha).2 ⟨by omega, hfirst⟩
      have hy := (hexValue?_eq_some_iff hb).2 ⟨by omega, hsecond⟩
      rw [hx, hy]
      exact congrArg some (Nat.div_add_mod n 16)

/-! ## What is read from a text -/

/-- Whether the place behind the first two bytes is inside a character. -/
def Split : List Char → Prop
  | [] => False
  | a :: rest => 3 ≤ a.utf8Size ∨ a.utf8Size = 1 ∧ ∃ b ∈ rest.head?, 2 ≤ b.utf8Size

/-- Whether behind some pairs of digits the text is taken apart inside a character. -/
def Cut (text : List Char) : Prop :=
  ∃ front rest, text = front ++ rest ∧ front.length % 2 = 0 ∧
    (∀ c ∈ unsigned front, c ∈ hexDigits) ∧ Split rest

theorem utf8Size_eq_one_iff {c : Char} : c.utf8Size = 1 ↔ c.toNat < 128 := by
  rw [Char.utf8Size_eq_one_iff, UInt32.le_iff_toNat_le]
  exact Nat.lt_succ_iff.symm

/-- A character of several bytes. -/
theorem utf8_wide {c : Char} (h : 2 ≤ c.utf8Size) :
    ∃ first second more, utf8EncodeChar c = first :: second :: more ∧
      c.utf8Size = more.length + 2 ∧ 192 ≤ first ∧
      ∀ b ∈ second :: more, isContinuation b = true := by
  rcases utf8_cases c with ⟨-, hc⟩ | ⟨first, second, more, hbytes, -, hfirst, hmore⟩
  · rw [utf8Size_eq_one_iff.2 hc] at h
    exact absurd h (by decide)
  · have hsize := congrArg List.length hbytes
    rw [String.length_utf8EncodeChar] at hsize
    exact ⟨first, second, more, hbytes, hsize, hfirst, hmore⟩

theorem utf8_narrow {c : Char} (h : c.utf8Size = 1) :
    utf8EncodeChar c = [UInt8.ofNat c.toNat] := by
  rcases utf8_cases c with ⟨hbytes, -⟩ | ⟨-, -, -, -, hlarge, -⟩
  · exact hbytes
  · exact absurd (utf8Size_eq_one_iff.1 h) (Nat.not_lt.2 hlarge)

theorem pairValue?_eq_none {a b : UInt8} (h : 192 ≤ a) : pairValue? a b = none := by
  have hle := UInt8.le_iff_toNat_le.1 h
  have hplus : a ≠ 43 := by
    rintro rfl
    exact absurd h (by decide)
  have hnone : hexValue? a = none := by
    simp only [hexValue?, UInt8.le_iff_toNat_le, UInt8.reduceToNat] at hle ⊢
    rw [if_neg (by omega), if_neg (by omega), if_neg (by omega)]
  rw [pairValue?, if_neg hplus, hnone]
  rfl

theorem readPairs_cons (a b : UInt8) (text : List Char) :
    readPairs (a :: b :: utf8 text) =
      match pairValue? a b with
      | none => .error (some (.badObjectId (.notHex ((Bytes.toText? [a, b]).getD ""))))
      | some n => do return UInt8.ofNat n :: (← readPairs (utf8 text)) :=
  if_neg (by rw [head_utf8]; exact Bool.false_ne_true)

/-- Where the text is taken apart inside a character there is no answer. -/
theorem readPairs_split {text : List Char} (h : Split text) :
    readPairs (utf8 text) = .error none := by
  have habort : ∀ (a b c : UInt8) (rest : Bytes), isContinuation c = true →
      readPairs (a :: b :: c :: rest) = .error none := fun a b c rest hc => if_pos hc
  cases text with
  | nil => exact h.elim
  | cons a rest =>
    rcases h with h | ⟨ha, b, hb, h⟩
    · obtain ⟨first, second, more, hbytes, hsize, -, hmore⟩ := utf8_wide (Nat.le_of_succ_le h)
      cases more with
      | nil => exact absurd h (by rw [hsize]; decide)
      | cons third more =>
        rw [utf8_cons, hbytes]
        exact habort _ _ _ _ (hmore third (by simp))
    · cases rest with
      | nil => cases hb
      | cons b' rest =>
        cases hb
        obtain ⟨first, second, more, hbytes, -, -, hmore⟩ := utf8_wide h
        rw [utf8_cons, utf8_cons, utf8_narrow ha, hbytes]
        exact habort _ _ _ _ (hmore second List.mem_cons_self)

/-- A character of two bytes in place of a pair is no pair of digits. -/
theorem readPairs_two {a : Char} (h : a.utf8Size = 2) (rest : List Char) :
    ∃ fault, readPairs (utf8 (a :: rest)) = .error (some fault) := by
  obtain ⟨first, second, more, hbytes, hsize, hfirst, -⟩ := utf8_wide (Nat.le_of_eq h.symm)
  have hnil : more = [] := List.length_eq_zero_iff.1 (by omega)
  have hread := readPairs_cons first second rest
  rw [pairValue?_eq_none hfirst] at hread
  rw [utf8_cons, hbytes, hnil]
  exact ⟨_, hread⟩

theorem readPairs_narrow {a b : Char} (ha : a.utf8Size = 1) (hb : b.utf8Size = 1)
    (rest : List Char) :
    readPairs (utf8 (a :: b :: rest)) =
      match pairValue? (UInt8.ofNat a.toNat) (UInt8.ofNat b.toNat) with
      | none => .error (some (.badObjectId (.notHex ((Bytes.toText? [UInt8.ofNat a.toNat,
          UInt8.ofNat b.toNat]).getD ""))))
      | some n => do return UInt8.ofNat n :: (← readPairs (utf8 rest)) := by
  rw [utf8_cons, utf8_cons, utf8_narrow ha, utf8_narrow hb]
  exact readPairs_cons _ _ rest

theorem readPairs_wide {a : Char} (h : a.utf8Size ≠ 1) (rest : List Char) :
    ∃ fault, readPairs (utf8 (a :: rest)) = .error fault := by
  by_cases htwo : a.utf8Size = 2
  · obtain ⟨fault, hfault⟩ := readPairs_two htwo rest
    exact ⟨_, hfault⟩
  · have hthree : 3 ≤ a.utf8Size := by
      have := Char.utf8Size_pos a
      omega
    exact ⟨_, readPairs_split (.inl hthree)⟩

theorem split_of_second {a b : Char} (ha : a.utf8Size = 1) (hb : b.utf8Size ≠ 1)
    (rest : List Char) : Split (a :: b :: rest) := by
  have := Char.utf8Size_pos b
  exact .inr ⟨ha, b, rfl, by omega⟩

theorem two_of_not_split {a : Char} {rest : List Char} (h : ¬ Split (a :: rest))
    (ha : a.utf8Size ≠ 1) : a.utf8Size = 2 := by
  have hlt : ¬ 3 ≤ a.utf8Size := fun hthree => h (.inl hthree)
  have := Char.utf8Size_pos a
  omega

theorem length_utf8_narrow {a b : Char} (ha : a.utf8Size = 1) (hb : b.utf8Size = 1)
    (rest : List Char) : (utf8 (a :: b :: rest)).length = (utf8 rest).length + 2 := by
  rw [utf8_cons, utf8_cons, utf8_narrow ha, utf8_narrow hb]
  rfl

/-- The two characters are the digits of the byte, the first perhaps as a plus sign. -/
structure Spell (a b : Char) (y : UInt8) : Prop where
  first : (plain a).toLower = hexDigit (y.toNat / 16)
  second : b.toLower = hexDigit (y.toNat % 16)

namespace Spell

variable {a b : Char} {y : UInt8}

theorem narrow (h : Spell a b y) : a.utf8Size = 1 ∧ b.utf8Size = 1 := by
  have hy : y.toNat < 256 := y.toNat_lt
  exact ⟨utf8Size_eq_one_iff.2 (lt_of_plain (lt_of_toLower (by omega) h.first)),
    utf8Size_eq_one_iff.2 (lt_of_toLower (by omega) h.second)⟩

theorem iff_pairValue? (ha : a.utf8Size = 1) (hb : b.utf8Size = 1) :
    Spell a b y ↔ pairValue? (UInt8.ofNat a.toNat) (UInt8.ofNat b.toNat) = some y.toNat := by
  rw [pairValue?_eq_some_iff (utf8Size_eq_one_iff.1 ha) (utf8Size_eq_one_iff.1 hb)]
  exact ⟨fun h => ⟨y.toNat_lt, h.first, h.second⟩, fun h => ⟨h.2.1, h.2.2⟩⟩

theorem of_pairValue? {n : Nat} (ha : a.utf8Size = 1) (hb : b.utf8Size = 1)
    (h : pairValue? (UInt8.ofNat a.toNat) (UInt8.ofNat b.toNat) = some n) :
    Spell a b (UInt8.ofNat n) := by
  have hn := ((pairValue?_eq_some_iff (utf8Size_eq_one_iff.1 ha) (utf8Size_eq_one_iff.1 hb)).1 h).1
  rw [iff_pairValue? ha hb, UInt8.toNat_ofNat', Nat.mod_eq_of_lt hn, h]

end Spell

/-- One pair further: the bytes of a text are read if the pair is two digits and the rest
is read. -/
theorem readPairs_cons_eq_ok_iff {a b : Char} {rest : List Char} {bytes : Bytes} :
    readPairs (utf8 (a :: b :: rest)) = .ok bytes ↔
      ∃ y ys, bytes = y :: ys ∧ Spell a b y ∧ readPairs (utf8 rest) = .ok ys := by
  constructor
  · intro h
    by_cases ha : a.utf8Size = 1
    swap
    · obtain ⟨fault, hfault⟩ := readPairs_wide ha (b :: rest)
      rw [hfault] at h
      cases h
    by_cases hb : b.utf8Size = 1
    swap
    · rw [readPairs_split (split_of_second ha hb rest)] at h
      cases h
    rw [readPairs_narrow ha hb] at h
    cases hv : pairValue? (UInt8.ofNat a.toNat) (UInt8.ofNat b.toNat) with
    | none =>
      rw [hv] at h
      cases h
    | some n =>
      rw [hv] at h
      dsimp only at h
      cases hrest : readPairs (utf8 rest) with
      | error fault =>
        rw [hrest] at h
        cases h
      | ok ys =>
        rw [hrest] at h
        cases h
        exact ⟨_, ys, rfl, .of_pairValue? ha hb hv, rfl⟩
  · rintro ⟨y, ys, rfl, hspell, hrest⟩
    obtain ⟨ha, hb⟩ := hspell.narrow
    rw [readPairs_narrow ha hb, (Spell.iff_pairValue? ha hb).1 hspell, hrest]
    dsimp only
    rw [UInt8.ofNat_toNat]
    rfl

theorem map_unsigned_cons {a b : Char} {rest : List Char} {bytes : Bytes} :
    (unsigned (a :: b :: rest)).map Char.toLower = bytes.flatMap pairOf ↔
      ∃ y ys, bytes = y :: ys ∧ Spell a b y ∧
        (unsigned rest).map Char.toLower = ys.flatMap pairOf := by
  rw [unsigned, List.map_cons, List.map_cons]
  cases bytes with
  | nil => simp
  | cons y ys =>
    simp only [List.flatMap_cons, pairOf, List.cons_append, List.nil_append, List.cons.injEq]
    constructor
    · rintro ⟨hfirst, hsecond, hrest⟩
      exact ⟨y, ys, ⟨rfl, rfl⟩, ⟨hfirst, hsecond⟩, hrest⟩
    · rintro ⟨_, _, ⟨rfl, rfl⟩, hspell, hrest⟩
      exact ⟨hspell.first, hspell.second, hrest⟩

/-- What is read from a text of pairs is what its digits spell, with 0 for each plus sign
that is the first of a pair. -/
theorem readPairs_eq_ok_iff {text : List Char} {bytes : Bytes}
    (heven : (utf8 text).length % 2 = 0) :
    readPairs (utf8 text) = .ok bytes ↔
      (unsigned text).map Char.toLower = bytes.flatMap pairOf := by
  induction text using unsigned.induct generalizing bytes with
  | case1 a b rest ih =>
    rw [readPairs_cons_eq_ok_iff, map_unsigned_cons]
    refine exists_congr fun y => exists_congr fun ys => and_congr_right fun _ =>
      and_congr_right fun hspell => ih ?_
    obtain ⟨ha, hb⟩ := hspell.narrow
    rw [length_utf8_narrow ha hb] at heven
    omega
  | case2 a =>
    -- A single character of an even number of bytes is not of one byte.
    have ha : a.utf8Size ≠ 1 := by
      intro ha
      rw [utf8_cons, utf8_narrow ha] at heven
      cases heven
    obtain ⟨fault, hfault⟩ := readPairs_wide ha []
    rw [hfault]
    cases bytes <;> simp [unsigned, pairOf]
  | case3 => cases bytes <;> simp [unsigned, utf8, readPairs, pairOf]

/-! ## Where there is no answer -/

theorem Cut.split {text : List Char} (h : Split text) : Cut text :=
  ⟨[], text, rfl, rfl, fun _ hc => absurd hc List.not_mem_nil, h⟩

/-- The text is cut behind its first pair, or further on if that is a pair of digits. -/
theorem cut_cons {a b : Char} {rest : List Char} :
    Cut (a :: b :: rest) ↔
      Split (a :: b :: rest) ∨ (plain a ∈ hexDigits ∧ b ∈ hexDigits) ∧ Cut rest := by
  constructor
  · rintro ⟨front, tail, htext, heven, hdigits, hsplit⟩
    match front, htext, heven, hdigits with
    | [], htext, _, _ => exact .inl (htext ▸ hsplit)
    | [c], _, heven, _ => cases heven
    | c :: d :: front, htext, heven, hdigits =>
      cases htext
      rw [unsigned, List.forall_mem_cons, List.forall_mem_cons] at hdigits
      rw [List.length_cons, List.length_cons] at heven
      exact .inr ⟨⟨hdigits.1, hdigits.2.1⟩, front, tail, rfl, by omega, hdigits.2.2, hsplit⟩
  · rintro (hsplit | ⟨⟨ha, hb⟩, front, tail, rfl, heven, hdigits, hsplit⟩)
    · exact .split hsplit
    · refine ⟨a :: b :: front, tail, rfl, ?_, ?_, hsplit⟩
      · rw [List.length_cons, List.length_cons]
        omega
      · rw [unsigned, List.forall_mem_cons, List.forall_mem_cons]
        exact ⟨ha, hb, hdigits⟩

theorem not_cut_nil : ¬ Cut [] := by
  rintro ⟨front, tail, htext, -, -, hsplit⟩
  rw [(List.append_eq_nil_iff.1 htext.symm).2] at hsplit
  exact hsplit

theorem cut_singleton {a : Char} : Cut [a] ↔ Split [a] := by
  refine ⟨?_, .split⟩
  rintro ⟨front, tail, htext, heven, -, hsplit⟩
  match front, htext, heven with
  | [], htext, _ => exact htext ▸ hsplit
  | [c], _, heven => cases heven

/-- Two characters are digits, the first perhaps as a plus sign, if they spell a byte. -/
theorem digits_iff_spell {a b : Char} :
    plain a ∈ hexDigits ∧ b ∈ hexDigits ↔ ∃ y, Spell a b y := by
  rw [mem_hexDigits_iff, mem_hexDigits_iff]
  constructor
  · rintro ⟨⟨n, hn, hfirst⟩, m, hm, hsecond⟩
    have hy : (UInt8.ofNat (16 * n + m)).toNat = 16 * n + m := by
      rw [UInt8.toNat_ofNat', Nat.mod_eq_of_lt (by omega)]
    refine ⟨UInt8.ofNat (16 * n + m), ?_, ?_⟩
    · rw [hy, hfirst]
      congr 1
      omega
    · rw [hy, hsecond]
      congr 1
      omega
  · rintro ⟨y, hspell⟩
    have hy : y.toNat < 256 := y.toNat_lt
    exact ⟨⟨_, by omega, hspell.first⟩, _, by omega, hspell.second⟩

/-- There is no answer if and only if the text is cut inside a character. -/
theorem readPairs_eq_none_iff {text : List Char} :
    readPairs (utf8 text) = .error none ↔ Cut text := by
  induction text using unsigned.induct with
  | case1 a b rest ih =>
    by_cases hsplit : Split (a :: b :: rest)
    · exact iff_of_true (readPairs_split hsplit) (.split hsplit)
    rw [cut_cons, or_iff_right hsplit, digits_iff_spell]
    by_cases ha : a.utf8Size = 1
    swap
    · obtain ⟨fault, hfault⟩ := readPairs_two (two_of_not_split hsplit ha) (b :: rest)
      rw [hfault]
      refine iff_of_false (fun h => by cases h) ?_
      rintro ⟨⟨y, hspell⟩, -⟩
      exact ha hspell.narrow.1
    have hb : b.utf8Size = 1 := by
      by_contra hb
      exact hsplit (split_of_second ha hb rest)
    rw [readPairs_narrow ha hb, ← ih]
    cases hv : pairValue? (UInt8.ofNat a.toNat) (UInt8.ofNat b.toNat) with
    | none =>
      refine iff_of_false (fun h => by cases h) ?_
      rintro ⟨⟨y, hspell⟩, -⟩
      rw [(Spell.iff_pairValue? ha hb).1 hspell] at hv
      cases hv
    | some n =>
      rw [and_iff_right ⟨_, Spell.of_pairValue? ha hb hv⟩]
      dsimp only
      cases readPairs (utf8 rest) with
      | error fault => exact ⟨fun h => h, fun h => h⟩
      | ok ys => exact iff_of_false (fun h => by cases h) (fun h => by cases h)
  | case2 a =>
    rw [cut_singleton]
    by_cases hsplit : Split [a]
    · exact iff_of_true (readPairs_split hsplit) hsplit
    refine iff_of_false (fun h => ?_) hsplit
    by_cases ha : a.utf8Size = 1
    · rw [utf8_cons, utf8_narrow ha] at h
      cases h
    · obtain ⟨fault, hfault⟩ := readPairs_two (two_of_not_split hsplit ha) []
      rw [hfault] at h
      cases h
  | case3 => exact iff_of_false (fun h => by cases h) not_cut_nil

theorem fault_of_readPairs {bytes : Bytes} {fault : DataFault}
    (h : readPairs bytes = .error (some fault)) : ∃ why, fault = .badObjectId why := by
  fun_induction readPairs bytes with
  | case1 => cases h
  | case2 =>
    cases h
    exact ⟨_, rfl⟩
  | case3 a b rest hcut n hv ih =>
    cases hrest : readPairs rest with
    | error other =>
      rw [hrest] at h
      cases h
      exact ih hrest
    | ok ys =>
      rw [hrest] at h
      cases h
  | case4 => cases h

/-! ## Texts and ids -/

/-- The text is that of the id, 24 digits of either letter case. -/
structure Spells (text : List Char) (id : ObjectId) : Prop where
  length : text.length = 24
  digits : ∀ c ∈ text, c ∈ hexDigits
  letters : text.map Char.toLower = id.toHex.toList

/-- A text of 24 digits but for plus signs, each the first of a pair. -/
structure Signed (text : List Char) : Prop where
  sign : '+' ∈ text
  length : text.length = 24
  digits : ∀ c ∈ unsigned text, c ∈ hexDigits

theorem toList_toHex (id : ObjectId) : id.toHex.toList = id.bytes.flatMap pairOf := by
  rw [toHex, Bytes.toHex, String.toList_ofList]
  rfl

theorem length_flatMap_pairOf (bytes : Bytes) : (bytes.flatMap pairOf).length = 2 * bytes.length := by
  induction bytes with
  | nil => rfl
  | cons y ys ih =>
    rw [List.flatMap_cons, List.length_append, ih, List.length_cons, pairOf]
    exact (Nat.mul_succ 2 _ ▸ Nat.add_comm _ _)

theorem spells_iff {text : List Char} {id : ObjectId} :
    Spells text id ↔ text.map Char.toLower = id.bytes.flatMap pairOf := by
  rw [← toList_toHex]
  refine ⟨Spells.letters, fun h => ⟨?_, fun c hc => ?_, h⟩⟩
  · have hlength := congrArg List.length h
    rw [List.length_map, toList_toHex, length_flatMap_pairOf, id.length_bytes] at hlength
    exact hlength
  · have hmem : c.toLower ∈ id.bytes.flatMap pairOf := by
      rw [← toList_toHex, ← h]
      exact List.mem_map_of_mem hc
    obtain ⟨y, -, hy⟩ := List.mem_flatMap.1 hmem
    have hlt : y.toNat < 256 := y.toNat_lt
    rcases List.mem_cons.1 hy with hy | hy
    · exact mem_hexDigits_iff.2 ⟨_, by omega, hy⟩
    · exact mem_hexDigits_iff.2 ⟨_, by omega, List.mem_singleton.1 hy⟩

theorem length_unsigned (text : List Char) : (unsigned text).length = text.length := by
  induction text using unsigned.induct with
  | case1 a b rest ih => rw [unsigned, List.length_cons, List.length_cons, ih]; rfl
  | case2 a => rfl
  | case3 => rfl

theorem unsigned_eq_self {text : List Char} (h : '+' ∉ text) : unsigned text = text := by
  induction text using unsigned.induct with
  | case1 a b rest ih =>
    rw [List.mem_cons, List.mem_cons, not_or, not_or] at h
    rw [unsigned, ih h.2.2, plain, if_neg (Ne.symm h.1)]
  | case2 a => rfl
  | case3 => rfl

/-- Digits spell bytes. -/
theorem exists_bytes {text : List Char} (heven : text.length % 2 = 0)
    (h : ∀ c ∈ unsigned text, c ∈ hexDigits) :
    ∃ bytes : Bytes, (unsigned text).map Char.toLower = bytes.flatMap pairOf := by
  induction text using unsigned.induct with
  | case1 a b rest ih =>
    rw [unsigned, List.forall_mem_cons, List.forall_mem_cons] at h
    rw [List.length_cons, List.length_cons] at heven
    obtain ⟨y, hspell⟩ := digits_iff_spell.1 ⟨h.1, h.2.1⟩
    obtain ⟨ys, hrest⟩ := ih (by omega) h.2.2
    exact ⟨y :: ys, map_unsigned_cons.2 ⟨y, ys, rfl, hspell, hrest⟩⟩
  | case2 a => cases heven
  | case3 => exact ⟨[], rfl⟩

/-- Of 24 digits there is an id. -/
theorem exists_spells {text : List Char} (hlength : text.length = 24)
    (h : ∀ c ∈ unsigned text, c ∈ hexDigits) : ∃ id, Spells (unsigned text) id := by
  obtain ⟨bytes, hbytes⟩ := exists_bytes (by rw [hlength]) h
  have hcount := congrArg List.length hbytes
  rw [List.length_map, length_unsigned, length_flatMap_pairOf, hlength] at hcount
  exact ⟨⟨bytes, by omega⟩, spells_iff.2 hbytes⟩

/-- A text of digits has one byte for each. -/
theorem length_utf8 {text : List Char} {bytes : Bytes}
    (h : (unsigned text).map Char.toLower = bytes.flatMap pairOf) :
    (utf8 text).length = 2 * bytes.length := by
  induction text using unsigned.induct generalizing bytes with
  | case1 a b rest ih =>
    obtain ⟨y, ys, rfl, hspell, hrest⟩ := map_unsigned_cons.1 h
    obtain ⟨ha, hb⟩ := hspell.narrow
    rw [length_utf8_narrow ha hb, ih hrest, List.length_cons, Nat.mul_succ]
  | case2 a => cases bytes <;> simp [unsigned, pairOf] at h
  | case3 => cases bytes <;> simp [unsigned, pairOf, utf8] at h ⊢

theorem length_ofText (s : String) : (Bytes.ofText s).length = s.utf8ByteSize := by
  rw [Bytes.ofText, ← String.size_toByteArray]
  rfl

theorem ofBytes?_eq_ok_iff {bytes : Bytes} {id : ObjectId} :
    ofBytes? bytes = .ok id ↔ bytes = id.bytes := by
  refine ⟨fun h => ?_, fun h => h ▸ ofBytes?_bytes id⟩
  unfold ofBytes? at h
  split at h <;> cases h
  rfl

/-- An id is read from its 24 digits, and from the same with a plus sign for any 0 that is
the first of a pair. -/
theorem parse_eq_id_iff {s : String} {id : ObjectId} :
    parse s = .id id ↔ Spells (unsigned s.toList) id := by
  rw [spells_iff, parse, ofText_eq_utf8]
  split
  · next hlength =>
    refine iff_of_false (fun h => by cases h) fun h => hlength ?_
    rw [length_utf8 h, id.length_bytes]
  · next hlength =>
    rw [← readPairs_eq_ok_iff (by rw [not_not.1 hlength])]
    cases readPairs (utf8 s.toList) with
    | error fault => cases fault <;> exact iff_of_false (fun h => by cases h) (fun h => by cases h)
    | ok read =>
      rw [Except.ok.injEq, ← ofBytes?_eq_ok_iff]
      dsimp only
      cases ofBytes? read with
      | error fault => exact iff_of_false (fun h => by cases h) (fun h => by cases h)
      | ok id' => rw [Reading.id.injEq, Except.ok.injEq]

/-- There is no answer where 24 bytes are taken apart inside a character. -/
theorem parse_eq_aborted_iff {s : String} :
    parse s = .aborted ↔ s.utf8ByteSize = 24 ∧ Cut s.toList := by
  rw [parse, ← readPairs_eq_none_iff, ← length_ofText, ofText_eq_utf8]
  split
  · next hlength => exact iff_of_false (fun h => by cases h) fun h => hlength h.1
  · next hlength =>
    rw [and_iff_right (not_not.1 hlength)]
    cases readPairs (utf8 s.toList) with
    | error fault => cases fault <;> simp
    | ok read =>
      refine iff_of_false (fun h => ?_) (fun h => by cases h)
      dsimp only at h
      split at h <;> cases h

/-- What is refused is so for what it is. -/
theorem fault_of_parse {s : String} {fault : DataFault} (h : parse s = .refused fault) :
    ∃ why, fault = .badObjectId why := by
  unfold parse at h
  dsimp only at h
  split at h
  · cases h
    exact ⟨_, rfl⟩
  split at h
  · cases h
  · next hread =>
    cases h
    exact fault_of_readPairs hread
  · next read _ =>
    unfold ofBytes? at h
    split at h
    · next hid =>
      split at hid <;> cases hid
      cases h
    · next hid =>
      split at hid <;> cases hid
      cases h
      exact ⟨_, rfl⟩

/-- Whether the text is read as that of 24 digits, and refused if it is none. -/
structure Told (s : String) : Prop where
  read : ∀ id, parse s = .id id ↔ Spells s.toList id
  refused : (∀ id, ¬ Spells s.toList id) → ∃ why, parse s = .refused (.badObjectId why)

/-- An id is read from the texts of its 24 digits with a plus sign for any 0 that is the
first of a pair; there is no answer to a text of 24 bytes that is taken apart inside a
character behind such pairs. These two are all that keeps a text from being read as that
of 24 digits or refused. -/
theorem parse_spelt_iff (s : String) :
    (∀ id, parse s = .id id ↔ Spells (unsigned s.toList) id) ∧
    (parse s = .aborted ↔ s.utf8ByteSize = 24 ∧ Cut s.toList) ∧
    (Told s ↔ ¬ Signed s.toList ∧ ¬ (s.utf8ByteSize = 24 ∧ Cut s.toList)) := by
  refine ⟨fun _ => parse_eq_id_iff, parse_eq_aborted_iff, ?_, ?_⟩
  · intro h
    refine ⟨fun hsigned => ?_, fun hcut => ?_⟩
    · obtain ⟨id, hid⟩ := exists_spells hsigned.length hsigned.digits
      have hspells := (h.read id).1 (parse_eq_id_iff.2 hid)
      exact absurd (hspells.digits '+' hsigned.sign) (by decide)
    · have habort := parse_eq_aborted_iff.2 hcut
      obtain ⟨why, hwhy⟩ := h.refused fun id hid => by
        rw [(h.read id).2 hid] at habort
        cases habort
      rw [hwhy] at habort
      cases habort
  · rintro ⟨hsigned, hcut⟩
    have hread : ∀ id, parse s = .id id ↔ Spells s.toList id := by
      intro id
      rw [parse_eq_id_iff]
      by_cases hsign : '+' ∈ s.toList
      · refine iff_of_false (fun h => hsigned ⟨hsign, ?_, h.digits⟩) fun h => ?_
        · rw [← length_unsigned]
          exact h.length
        · exact absurd (h.digits '+' hsign) (by decide)
      · rw [unsigned_eq_self hsign]
    refine ⟨hread, fun hnone => ?_⟩
    cases hparse : parse s with
    | id id => exact absurd ((hread id).1 hparse) (hnone id)
    | refused fault =>
      obtain ⟨why, rfl⟩ := fault_of_parse hparse
      exact ⟨why, rfl⟩
    | aborted => exact absurd (parse_eq_aborted_iff.1 hparse) hcut

/-- A plus sign is read as the digit 0. -/
example : parse "+f0000000000000000000000" = parse "0f0000000000000000000000" := by decide

/-- The place behind the first two bytes is inside the euro sign, of three bytes. -/
example : parse "€€€€€€€€" = .aborted := by decide

end ObjectId
end Folio
