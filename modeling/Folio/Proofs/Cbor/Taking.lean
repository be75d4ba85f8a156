import Folio.Proofs.Cbor.Reading
import Mathlib.Tactic.IntervalCases

/-!
# What readers take

Whatever a reader makes something of, the bytes that it took from the front are
bytes of that thing. `Takes` says which bytes these are, for a reader as a
whole, and is put together the way readers are: what is read first says what
must still follow.

Results:
* `Takes.bind`: readers in sequence.
* `argument_takes`: an argument is taken in its shortest form only.
* `payload_takes`, `textOf_takes`: what is read of a string is its own bytes.
-/
namespace Folio

/-! ## Numbers in bytes -/

namespace Bytes

/-- The spelling of a number in few bytes depends on its low end only. -/
theorem ofNat_mul_add {w j : Nat} (h : w ≤ j) (k n : Nat) :
    ofNat w (k * Nat.pow 256 j + n) = ofNat w n := by
  induction w with
  | zero => rfl
  | succ w ih =>
    obtain ⟨i, rfl⟩ : ∃ i, j = i + 1 + w := ⟨j - (w + 1), by omega⟩
    have hsplit : k * Nat.pow 256 (i + 1 + w) = k * Nat.pow 256 i * 256 * Nat.pow 256 w := by
      rw [show Nat.pow 256 (i + 1 + w) = Nat.pow 256 (i + 1) * Nat.pow 256 w from
        Nat.pow_add 256 (i + 1) w, show Nat.pow 256 (i + 1) = Nat.pow 256 i * 256 from rfl,
        Nat.mul_assoc, Nat.mul_assoc, Nat.mul_assoc]
    have hdiv : (k * Nat.pow 256 (i + 1 + w) + n) / Nat.pow 256 w =
        k * Nat.pow 256 i * 256 + n / Nat.pow 256 w := by
      have hpos : 0 < Nat.pow 256 w := Nat.pow_pos (by decide)
      rw [hsplit, Nat.add_comm, Nat.add_mul_div_right _ _ hpos, Nat.add_comm]
    rw [ofNat, ofNat, ih (by omega), hdiv]
    congr 1
    apply UInt8.toNat_inj.1
    rw [UInt8.toNat_ofNat', UInt8.toNat_ofNat']
    omega

theorem toNat_lt (b : Bytes) : toNat b < Nat.pow 256 b.length := by
  induction b with
  | nil => decide
  | cons x r ih =>
    have hx := x.toNat_lt
    have next : Nat.pow 256 (r.length + 1) = Nat.pow 256 r.length * 256 := rfl
    rw [toNat_cons, List.length_cons, next]
    calc x.toNat * Nat.pow 256 r.length + toNat r
        < x.toNat * Nat.pow 256 r.length + Nat.pow 256 r.length := Nat.add_lt_add_left ih _
      _ = (x.toNat + 1) * Nat.pow 256 r.length := (Nat.succ_mul _ _).symm
      _ ≤ 256 * Nat.pow 256 r.length := Nat.mul_le_mul_right _ hx
      _ = Nat.pow 256 r.length * 256 := Nat.mul_comm _ _

/-- Bytes are the spelling of the number that they spell. -/
theorem ofNat_toNat (b : Bytes) : ofNat b.length (toNat b) = b := by
  induction b with
  | nil => rfl
  | cons x r ih =>
    have hr := toNat_lt r
    have hpos : 0 < Nat.pow 256 r.length := Nat.pow_pos (by decide)
    rw [List.length_cons, ofNat, toNat_cons, ofNat_mul_add (Nat.le_refl _), ih, Nat.add_comm,
      Nat.add_mul_div_right _ _ hpos, Nat.div_eq_of_lt hr, Nat.zero_add, UInt8.ofNat_toNat]

end Bytes

namespace Cbor

variable {α β : Type}

/-! ## Readers -/

/-- Whenever the reader makes something of bytes, it took bytes off the front
that `G` allows for the thing. -/
def Takes (p : Parser α) (G : Bytes → α → Prop) : Prop :=
  ∀ input a rest, p.run input = (.ok a, rest) → ∃ b, input = b ++ rest ∧ G b a

theorem takes_pure {G : Bytes → α → Prop} {a : α} (h : G [] a) : Takes (pure a) G := by
  intro input x rest hrun
  cases hrun
  exact ⟨[], rfl, h⟩

theorem takes_throw {G : Bytes → α → Prop} (fault : DataFault) : Takes (throw fault) G := by
  intro input x rest hrun
  cases hrun

theorem Takes.bind {p : Parser α} {f : α → Parser β} {G : Bytes → α → Prop}
    {H : Bytes → β → Prop} (hp : Takes p G)
    (hf : ∀ b a, G b a → Takes (f a) fun c y => H (b ++ c) y) : Takes (p >>= f) H := by
  intro input y rest hrun
  rw [run_bind] at hrun
  rcases hfirst : p.run input with ⟨fault | a, middle⟩
  · rw [hfirst] at hrun
    cases hrun
  · rw [hfirst] at hrun
    obtain ⟨b, rfl, hb⟩ := hp input a middle hfirst
    obtain ⟨c, rfl, hc⟩ := hf b a hb middle y rest hrun
    exact ⟨b ++ c, (List.append_assoc b c rest).symm, hc⟩

/-- A step after which nothing is read. -/
theorem Takes.map {p : Parser α} {f : α → β} {G : Bytes → α → Prop} {H : Bytes → β → Prop}
    (hp : Takes p G) (hf : ∀ b a, G b a → H b (f a)) : Takes (p >>= fun a => pure (f a)) H := by
  refine hp.bind fun b a hb => takes_pure ?_
  rw [List.append_nil]
  exact hf b a hb

theorem byte_takes : Takes byte fun b x => b = [x] := by
  intro input x rest hrun
  cases input with
  | nil => cases hrun
  | cons y input =>
    cases hrun
    exact ⟨[x], rfl, rfl⟩

theorem take_takes (n : Nat) : Takes (take n) fun b x => b = x ∧ x.length = n := by
  intro input x rest hrun
  by_cases h : n ≤ input.length
  · rw [take_ok h] at hrun
    cases hrun
    exact ⟨input.take n, (List.take_append_drop n input).symm, rfl, List.length_take_of_le h⟩
  · have hshort : (take n).run input = (.error .unexpectedEnd, input) := by
      simp [take, ExceptT.run, ExceptT.mk, Nat.lt_of_not_le h]
    rw [hshort] at hrun
    cases hrun

/-! ## Heads -/

theorem code_ofByte (b : UInt8) : (Kind.ofByte b).code = b.toNat / 32 := by
  have hb : b.toNat / 32 < 8 := by
    have := b.toNat_lt
    omega
  unfold Kind.ofByte
  generalize b.toNat / 32 = k at hb ⊢
  interval_cases k <;> rfl

/-- A first byte is made of the kind and the low bits that are told from it. -/
theorem initial_ofByte {b : UInt8} {kind : Kind} (h : Kind.ofByte b = kind) :
    initial kind (b.toNat % 32) = b := by
  rw [initial, ← h, code_ofByte, Nat.div_add_mod', UInt8.ofNat_toNat]

theorem wide_takes (w least : Nat) :
    Takes (wide w least) fun b n => b = Bytes.ofNat w n ∧ least ≤ n ∧ n < Nat.pow 256 w := by
  refine (take_takes w).bind ?_
  rintro _ x ⟨rfl, rfl⟩
  dsimp only
  split
  · exact (takes_throw (G := fun _ _ => False) _).bind fun _ _ h => h.elim
  · next hl =>
    refine takes_pure ?_
    rw [List.append_nil, Bytes.ofNat_toNat]
    exact ⟨rfl, Nat.le_of_not_lt hl, Bytes.toNat_lt _⟩

/-- The bytes of an argument, behind a first byte with the low bits `info`, are
the shortest ones that tell it. -/
theorem argument_takes {info : Nat} :
    Takes (argument info) fun b n =>
      (∀ kind, initial kind info :: b = head kind n) ∧ n ≤ maxArgument := by
  have hwide : ∀ w least info, (∀ n, least ≤ n → n < Nat.pow 256 w →
      (∀ kind, initial kind info :: Bytes.ofNat w n = head kind n) ∧ n ≤ maxArgument) →
      Takes (wide w least) fun b n =>
        (∀ kind, initial kind info :: b = head kind n) ∧ n ≤ maxArgument := by
    intro w least info h input n rest hrun
    obtain ⟨b, hin, rfl, hl, hn⟩ := wide_takes w least input n rest hrun
    exact ⟨_, hin, h n hl hn⟩
  unfold argument
  split
  · next h =>
    refine takes_pure ⟨fun kind => ?_, by rw [maxArgument]; omega⟩
    rw [head, if_pos h]
  split
  · next h =>
    subst h
    refine hwide 1 24 24 fun n hl hn => ⟨fun kind => ?_, ?_⟩
    · rw [head, if_neg (by omega), if_pos (by simpa using hn)]
    · have : n < 256 := hn
      rw [maxArgument]; omega
  split
  · next h =>
    subst h
    refine hwide 2 0x100 25 fun n hl hn => ⟨fun kind => ?_, ?_⟩
    · rw [head, if_neg (by omega), if_neg (by omega), if_pos (by simpa using hn)]
    · have : n < 65536 := hn
      rw [maxArgument]; omega
  split
  · next h =>
    subst h
    refine hwide 4 0x10000 26 fun n hl hn => ⟨fun kind => ?_, ?_⟩
    · rw [head, if_neg (by omega), if_neg (by omega), if_neg (by omega), if_pos (by simpa using hn)]
    · have : n < 4294967296 := hn
      rw [maxArgument]; omega
  split
  · next h =>
    subst h
    refine hwide 8 0x100000000 27 fun n hl hn => ?_
    have hmost : n ≤ maxArgument := by
      have : n < 18446744073709551616 := hn
      rw [maxArgument]; omega
    refine ⟨fun kind => ?_, hmost⟩
    rw [head, if_neg (by omega), if_neg (by omega), if_neg (by omega), if_neg (by omega),
      Nat.min_eq_left hmost]
  split
  · exact takes_throw _
  · exact takes_throw _

theorem count_takes (info most : Nat) :
    Takes (count info most) fun b n => (∀ kind, initial kind info :: b = head kind n) ∧ n ≤ most := by
  refine argument_takes.bind fun b n hn => ?_
  dsimp only
  split
  · exact (takes_throw (G := fun _ _ => False) _).bind fun _ _ h => h.elim
  · next hm =>
    refine takes_pure ?_
    rw [List.append_nil]
    exact ⟨hn.1, Nat.le_of_not_lt hm⟩

theorem magnitude_takes (info : Nat) :
    Takes (magnitude info) fun b n =>
      (∀ kind, initial kind info :: b = head kind n) ∧ n < 0x8000000000000000 := by
  refine argument_takes.bind fun b n hn => ?_
  dsimp only
  split
  · exact (takes_throw (G := fun _ _ => False) _).bind fun _ _ h => h.elim
  · next hm =>
    refine takes_pure ?_
    rw [List.append_nil]
    exact ⟨hn.1, Nat.lt_of_not_le hm⟩

/-! ## Strings -/

theorem payload_takes (info : Nat) :
    Takes (payload info) fun b x =>
      (∀ kind, initial kind info :: b = string kind x) ∧ x.length ≤ maxBytes := by
  refine (count_takes info maxBytes).bind fun b n hn input x rest hrun => ?_
  obtain ⟨_, hin, rfl, rfl⟩ := take_takes n input x rest hrun
  refine ⟨_, hin, fun kind => ?_, hn.2⟩
  rw [string, ← hn.1 kind]
  rfl

theorem ofText_of_toText? {b : Bytes} {s : String} (h : Bytes.toText? b = some s) :
    Bytes.ofText s = b := by
  rw [Bytes.toText?, String.fromUTF8?] at h
  split at h
  · cases h
    exact List.toList_toArray
  · cases h

theorem textOf_takes (info : Nat) :
    Takes (textOf info) fun b s =>
      initial .text info :: b = text s ∧ (Bytes.ofText s).length ≤ maxBytes := by
  refine (payload_takes info).bind fun b x hx => ?_
  split
  · next s hs =>
    refine takes_pure ?_
    rw [List.append_nil, text, ofText_of_toText? hs]
    exact ⟨hx.1 .text, hx.2⟩
  · exact takes_throw _

end Cbor
end Folio
