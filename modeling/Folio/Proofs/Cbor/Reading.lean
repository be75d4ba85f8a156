import Folio.Cbor.Decode
import Folio.Cbor.Encode
import Folio.Proofs.Run
import Folio.Proofs.Value.Arrangement

/-!
# Readers and what they read

A reader that is given the bytes of something, and any further bytes behind
them, makes the thing of its bytes and leaves the further ones, or it stops at
a fault. `Spells` says which of the two, and is put together the way readers
are: one after another.

Results:
* `Spells.bind`, `Spells.map`, `Spells.stop`: readers in sequence.
* `head_spells`: the argument of a head is read back.
* `count_spells`: a count is read back if it is allowed, and refused if not.
-/
namespace Folio.Cbor

variable {α β : Type}

/-- The reader makes `a` of the bytes `b`, whatever stands behind them, if
`good`, and else stops at a fault. -/
def Spells (p : Parser α) (b : Bytes) (good : Bool) (a : α) : Prop :=
  ∀ rest, if good = true then p.run (b ++ rest) = (.ok a, rest)
    else ∃ fault left, p.run (b ++ rest) = (.error fault, left)

theorem Spells.ok {p : Parser α} {b : Bytes} {a : α} (h : Spells p b true a) (rest : Bytes) :
    p.run (b ++ rest) = (.ok a, rest) := by
  simpa using h rest

theorem Spells.error {p : Parser α} {b : Bytes} {a : α} (h : Spells p b false a) (rest : Bytes) :
    ∃ fault left, p.run (b ++ rest) = (.error fault, left) := by
  simpa using h rest

theorem spells_pure (a : α) : Spells (pure a) [] true a := fun rest => by simp

theorem spells_throw (fault : DataFault) (b : Bytes) (a : α) : Spells (throw fault) b false a :=
  fun rest => by simpa using ⟨fault, b ++ rest, rfl⟩

theorem Spells.bind {p : Parser α} {f : α → Parser β} {b c : Bytes} {g h : Bool} {x : α} {y : β}
    (hp : Spells p b g x) (hf : Spells (f x) c h y) : Spells (p >>= f) (b ++ c) (g && h) y := by
  intro rest
  rw [List.append_assoc]
  cases g with
  | true =>
    rw [run_bind_ok (hp.ok (c ++ rest)), Bool.true_and]
    exact hf rest
  | false =>
    obtain ⟨fault, left, he⟩ := hp.error (c ++ rest)
    simpa using ⟨fault, left, run_bind_error he⟩

/-- What follows a fault does not matter. -/
theorem Spells.stop {p : Parser α} {f : α → Parser β} {b : Bytes} {x : α}
    (hp : Spells p b false x) (c : Bytes) (y : β) : Spells (p >>= f) (b ++ c) false y := by
  intro rest
  obtain ⟨fault, left, he⟩ := hp.error (c ++ rest)
  rw [List.append_assoc]
  simpa using ⟨fault, left, run_bind_error he⟩

/-- A check of what was read takes no bytes. -/
theorem Spells.check {p : Parser α} {f : α → Parser β} {b : Bytes} {g : Bool} {x : α} {y : β}
    (hp : Spells p b true x) (hf : Spells (f x) [] g y) : Spells (p >>= f) b g y := by
  have := hp.bind hf
  rwa [List.append_nil, Bool.true_and] at this

theorem Spells.map {p : Parser α} {b : Bytes} {g : Bool} {x : α} (hp : Spells p b g x) (f : α → β) :
    Spells (p >>= fun a => pure (f a)) b g (f x) := by
  have := Spells.bind (f := fun a => pure (f a)) hp (spells_pure (f x))
  rwa [List.append_nil, Bool.and_true] at this

/-! ## Heads -/

theorem byte_spells (b : UInt8) : Spells byte [b] true b := fun _ => rfl

theorem take_spells (b : Bytes) : Spells (take b.length) b true b := by
  intro rest
  rw [if_pos rfl, take_ok (by simp)]
  simp

theorem toNat_initial {kind : Kind} {info : Nat} (h : info < 32) :
    (initial kind info).toNat = kind.code * 32 + info := by
  have : kind.code ≤ 7 := by cases kind <;> decide
  rw [initial, UInt8.toNat_ofNat', Nat.mod_eq_of_lt (by omega)]

theorem ofByte_initial {kind : Kind} {info : Nat} (h : info < 32) :
    Kind.ofByte (initial kind info) = kind := by
  have : (kind.code * 32 + info) / 32 = kind.code := by omega
  rw [Kind.ofByte, toNat_initial h, this]
  cases kind <;> rfl

theorem info_initial {kind : Kind} {info : Nat} (h : info < 32) :
    (initial kind info).toNat % 32 = info := by
  rw [toNat_initial h]; omega

theorem wide_spells {w least n : Nat} (hn : n < Nat.pow 256 w) (hl : least ≤ n) :
    Spells (wide w least) (Bytes.ofNat w n) true n := by
  have ht : Spells (take w) (Bytes.ofNat w n) true (Bytes.ofNat w n) := by
    simpa using take_spells (Bytes.ofNat w n)
  unfold wide
  refine ht.check ?_
  simp only [Bytes.toNat_ofNat hn]
  rw [if_neg (by omega)]
  exact spells_pure n

/-- A head is a first byte that tells the kind, and the argument: the number,
or the largest one that can be told. -/
theorem head_spells (kind : Kind) (n : Nat) :
    ∃ first more, head kind n = first :: more ∧ Kind.ofByte first = kind ∧
      Spells (argument (first.toNat % 32)) more true (min n maxArgument) := by
  have small : ∀ k, k < 2 ^ 64 → min k maxArgument = k := by
    intro k hk; rw [maxArgument]; omega
  unfold head
  by_cases h0 : n < 24
  · refine ⟨initial kind n, [], if_pos h0, ofByte_initial (by omega), ?_⟩
    rw [info_initial (by omega), argument, if_pos h0, small n (by omega)]
    exact spells_pure n
  rw [if_neg h0]
  by_cases h1 : n < 0x100
  · refine ⟨_, _, if_pos h1, ofByte_initial (by omega), ?_⟩
    rw [info_initial (by omega), small n (by omega)]
    exact wide_spells (by simpa using h1) (by omega)
  rw [if_neg h1]
  by_cases h2 : n < 0x10000
  · refine ⟨_, _, if_pos h2, ofByte_initial (by omega), ?_⟩
    rw [info_initial (by omega), small n (by omega)]
    exact wide_spells (by simpa using h2) (by omega)
  rw [if_neg h2]
  by_cases h3 : n < 0x100000000
  · refine ⟨_, _, if_pos h3, ofByte_initial (by omega), ?_⟩
    rw [info_initial (by omega), small n (by omega)]
    exact wide_spells (by simpa using h3) (by omega)
  refine ⟨_, _, if_neg h3, ofByte_initial (by omega), ?_⟩
  rw [info_initial (by omega)]
  have hm : maxArgument < Nat.pow 256 8 := by decide
  have hl : 0x100000000 ≤ maxArgument := by decide
  exact wide_spells (by omega) (by omega)

theorem argument_count {info most n : Nat} {b : Bytes} (hm : most < maxArgument)
    (h : Spells (argument info) b true (min n maxArgument)) :
    Spells (count info most) b (decide (n ≤ most)) n := by
  unfold count
  refine h.check ?_
  by_cases hn : n ≤ most
  · rw [if_neg (by omega), Nat.min_eq_left (by omega), decide_eq_true hn]
    exact spells_pure n
  · rw [if_pos (by omega), decide_eq_false hn]
    exact (spells_throw _ [] ()).stop [] n

theorem count_spells (kind : Kind) (n most : Nat) (hm : most < maxArgument) :
    ∃ first more, head kind n = first :: more ∧ Kind.ofByte first = kind ∧
      Spells (count (first.toNat % 32) most) more (decide (n ≤ most)) n := by
  obtain ⟨first, more, he, hk, hs⟩ := head_spells kind n
  exact ⟨first, more, he, hk, argument_count hm hs⟩

/-! ## Strings -/

theorem toText?_ofText (s : String) : Bytes.toText? (Bytes.ofText s) = some s := by
  have same : (⟨(Bytes.ofText s).toArray⟩ : ByteArray) = s.toUTF8 := by
    rw [Bytes.ofText, Array.toArray_toList]
  rw [Bytes.toText?, same, String.fromUTF8?, dif_pos (show s.toUTF8.IsValidUTF8 from s.isValidUTF8)]
  rfl

theorem string_spells (kind : Kind) (b : Bytes) :
    ∃ first more, string kind b = first :: more ∧ Kind.ofByte first = kind ∧
      Spells (payload (first.toNat % 32)) more (decide (b.length ≤ maxBytes)) b := by
  obtain ⟨first, more, he, hk, hs⟩ := count_spells kind b.length maxBytes (by decide)
  refine ⟨first, more ++ b, by rw [string, he]; rfl, hk, ?_⟩
  have := hs.bind (take_spells b)
  rwa [Bool.and_true] at this

theorem text_spells (s : String) :
    ∃ first more, text s = first :: more ∧ Kind.ofByte first = .text ∧
      Spells (textOf (first.toNat % 32)) more (decide ((Bytes.ofText s).length ≤ maxBytes)) s := by
  obtain ⟨first, more, he, hk, hs⟩ := string_spells .text (Bytes.ofText s)
  refine ⟨first, more, he, hk, ?_⟩
  unfold textOf
  rw [← Bool.and_true (decide _), ← List.append_nil more]
  refine hs.bind ?_
  rw [toText?_ofText]
  exact spells_pure s

/-! ## Integers -/

theorem magnitude_spells (kind : Kind) {n : Nat} (hn : n < 0x8000000000000000) :
    ∃ first more, head kind n = first :: more ∧ Kind.ofByte first = kind ∧
      Spells (magnitude (first.toNat % 32)) more true n := by
  obtain ⟨first, more, he, hk, hs⟩ := head_spells kind n
  refine ⟨first, more, he, hk, ?_⟩
  rw [Nat.min_eq_left (by rw [maxArgument]; omega)] at hs
  unfold magnitude
  refine hs.check ?_
  rw [if_neg (by omega)]
  exact spells_pure n

end Folio.Cbor
