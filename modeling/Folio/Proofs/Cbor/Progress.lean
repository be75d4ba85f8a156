import Folio.Proofs.Cbor.Alike
import Folio.Proofs.Cbor.Variants
import Folio.Proofs.Value.Totals

/-!
# How far readers go

Readers go forward through the input and not beyond its end. The reader of
values is used within itself for the values inside, each time behind at least
one byte, so it is never nested deeper than there are bytes. What it makes of
bytes is no larger than they are: every value has a byte of its own, and so has
every byte of a text, a byte string or a name.

Results:
* `value_forward`: what is left is a back part of the input, also after a fault.
* `nested_eq_next`: what is nested deeper than there are bytes is not asked.
* `eq_layer_iff`: one reader, and no other, is used within itself.
* `amount_le_write`, `Variant.length_le`: the fewest bytes of a value.
* `next_bounded`: all of this from a place in the input.
-/
namespace Folio.Cbor

open Value

variable {α β : Type}

/-! ## Forward -/

/-- What the reader leaves is a back part of what it was given, also after a
fault. -/
abbrev Forward (p : Parser α) : Prop := Within (fun before after : Bytes => after <:+ before) p

theorem suffix_frame : Frame fun before after : Bytes => after <:+ before :=
  ⟨fun _ => List.suffix_rfl, fun first second => second.trans first⟩

theorem byte_forward : Forward byte
  | [] => List.suffix_rfl
  | b :: rest => List.suffix_cons b rest

theorem take_forward (n : Nat) : Forward (take n) := by
  intro input
  by_cases h : n ≤ input.length
  · rw [take_ok h]
    exact List.drop_suffix n input
  · have hshort : (take n).run input = (.error .unexpectedEnd, input) := if_pos (Nat.lt_of_not_le h)
    have hleft : ((take n).run input).2 = input := congrArg Prod.snd hshort
    exact ⟨[], hleft⟩

theorem congruent_forward : Congruent fun p _ => Forward p where
  pure := suffix_frame.within_pure
  stop := suffix_frame.within_throw
  byte := byte_forward
  take := take_forward
  bind := suffix_frame.within_bind

theorem value_forward (fuel : Nat) : Forward (value fuel) := by
  induction fuel with
  | zero => exact suffix_frame.within_throw _
  | succ fuel ih => exact congruent_forward.layer (q := value fuel) ih

/-! ## Readers within readers -/

/-- Readers of values within one another, `n` of them, and `deepest` within
them all. -/
def nested (deepest : Parser Value) : Nat → Parser Value
  | 0 => deepest
  | n + 1 => layer (nested deepest n)

/-- On no more than `n` bytes the first reader, which goes forward, does what
the second one does. -/
def Covers (n : Nat) (p q : Parser α) : Prop :=
  Forward p ∧ ∀ input : Bytes, input.length ≤ n → p.run input = q.run input

theorem Covers.refl {n : Nat} {p : Parser α} (h : Forward p) : Covers n p p := ⟨h, fun _ _ => rfl⟩

theorem Covers.bind {n : Nat} {p q : Parser α} {f g : α → Parser β} (hp : Covers n p q)
    (hf : ∀ a, Covers n (f a) (g a)) : Covers n (p >>= f) (q >>= g) := by
  refine ⟨suffix_frame.within_bind hp.1 fun a => (hf a).1, fun input hlen => ?_⟩
  have hleft := hp.1 input
  rw [run_bind, run_bind, ← hp.2 input hlen]
  generalize p.run input = first at hleft ⊢
  rcases first with ⟨fault | a, rest⟩
  · rfl
  · exact (hf a).2 rest (hleft.length_le.trans hlen)

theorem congruent_covers (n : Nat) : Congruent (Covers n) where
  pure a := .refl (suffix_frame.within_pure a)
  stop fault := .refl (suffix_frame.within_throw fault)
  byte := .refl byte_forward
  take k := .refl (take_forward k)
  bind := Covers.bind

/-- The first byte of a value is not left for the values inside. -/
theorem Covers.layer {n : Nat} {p q : Parser Value} (h : Covers n p q) :
    Covers (n + 1) (layer p) (layer q) := by
  refine ⟨congruent_forward.layer (q := q) h.1, fun input hlen => ?_⟩
  cases input with
  | nil => rfl
  | cons first rest =>
    have hbyte : byte.run (first :: rest) = (.ok first, rest) := rfl
    rw [Cbor.layer, Cbor.layer, run_bind_ok hbyte, run_bind_ok hbyte]
    exact ((congruent_covers n).inside h first).2 rest (Nat.le_of_succ_le_succ hlen)

theorem covers_nested (deepest : Parser Value) (n : Nat) :
    Covers n (value n) (nested deepest (n + 1)) := by
  induction n with
  | zero =>
    refine ⟨value_forward 0, fun input hlen => ?_⟩
    rw [List.eq_nil_of_length_eq_zero (Nat.le_zero.1 hlen)]
    rfl
  | succ n ih => exact ih.layer

theorem nested_add (deepest : Parser Value) (m n : Nat) :
    nested deepest (m + n) = nested (nested deepest n) m := by
  induction m with
  | zero => rw [Nat.zero_add]; rfl
  | succ m ih => rw [Nat.succ_add]; exact congrArg layer ih

/-- Readers within one another do what the reader of values does if there are
more of them than bytes, whatever stands within them all. -/
theorem nested_eq_next (deepest : Parser Value) {n : Nat} {input : Bytes} (h : input.length < n) :
    (nested deepest n).run input = next input := by
  obtain ⟨k, rfl⟩ : ∃ k, n = (input.length + 1) + k := ⟨n - (input.length + 1), by omega⟩
  rw [nested_add]
  exact ((covers_nested _ input.length).2 input (Nat.le_refl _)).symm

theorem covers_next (n : Nat) : Covers n (value n) (.mk next) :=
  ⟨value_forward n, fun input hlen =>
    ((covers_nested (value 0) n).2 input hlen).trans (nested_eq_next _ (Nat.lt_succ_of_le hlen))⟩

/-- One reader, and no other, reads the values inside in the way in which it
reads the value around them. -/
theorem eq_layer_iff {p : Parser Value} : p = layer p ↔ p = .mk next := by
  constructor
  · intro h
    have hnested : ∀ n, nested p n = p := fun n => by
      induction n with
      | zero => rfl
      | succ n ih => rw [nested, ih, ← h]
    funext input
    exact (congrFun (hnested (input.length + 1)) input).symm.trans
      (nested_eq_next p (Nat.lt_succ_self _))
  · rintro rfl
    funext input
    have hnext := (covers_next (input.length + 1)).2 input (Nat.le_succ _)
    have hlayer := (covers_next input.length).layer.2 input (Nat.le_succ _)
    exact hnext.symm.trans hlayer

/-! ## The fewest bytes of a value -/

theorem length_string (kind : Kind) (b : Bytes) : 1 + b.length ≤ (string kind b).length := by
  have := head_length_pos kind b.length
  rw [string, List.length_append]
  omega

theorem length_text (s : String) : (Bytes.ofText s).length ≤ (text s).length :=
  (Nat.le_add_left _ 1).trans (length_string .text _)

theorem ownBytes_lt_write {v : Value} (hs : v.isScalar = true) (hn : v.hasNaN = false) :
    1 + v.ownBytes ≤ (write v).bytes.length := by
  cases v with
  | text s => exact length_string .text (Bytes.ofText s)
  | bytes b => exact length_string .bytes b
  | array items => cases hs
  | document doc => cases hs
  | _ =>
    obtain ⟨b, hb, hpos, -⟩ := written_scalar hs hn
    rw [hb]
    exact hpos

/-- What is written of a value has a byte for every value in it, and its texts,
byte strings and names byte for byte. -/
theorem amount_le_write {v : Value} (hn : v.hasNaN = false) :
    v.nodes + v.content ≤ (write v).bytes.length := by
  rw [nodes, content, total_add]
  induction v using tree with
  | scalar v hs =>
    rw [total_scalar hs]
    exact ownBytes_lt_write hs hn
  | array items ih =>
    have first := head_length_pos .array items.length
    have parts := List.sum_le_sum fun v hv => ih v hv (hasNaN_array.1 hn v hv)
    rw [total_array, write, bytes_andThen rfl, bytes_writeItems (hasNaN_array.1 hn),
      List.length_append, List.length_flatMap]
    exact Nat.add_le_add first parts
  | document fields ih =>
    have first := head_length_pos .map fields.length
    have parts := List.sum_le_sum fun f hf =>
      Nat.add_le_add (length_text f.1) (ih f hf (hasNaN_document.1 hn f hf))
    rw [List.sum_map_add] at parts
    rw [total_document, write, bytes_andThen rfl, bytes_writeFields (hasNaN_document.1 hn),
      List.length_append, List.length_flatMap, Nat.add_assoc]
    simp only [List.length_append]
    exact Nat.add_le_add first parts

mutual

/-- Tags before a value only add to its bytes. -/
theorem Variant.length_le {v : Value} {plain b : Bytes} :
    Variant v plain b → plain.length ≤ b.length
  | .same _ => Nat.le_refl _
  | .null => Nat.le_refl _
  | .tag _ _ _ h => by
    rw [List.length_append]
    exact Nat.le_add_left_of_le h.length_le
  | .objectId h => by
    rw [List.length_append, List.length_append]
    exact Nat.add_le_add_left h.length_le _
  | .dateTime h => by
    rw [List.length_append, List.length_append]
    exact Nat.add_le_add_left h.length_le _
  | .array h => by
    rw [List.length_append, List.length_append]
    exact Nat.add_le_add_left h.length_le _
  | .document h => by
    rw [List.length_append, List.length_append]
    exact Nat.add_le_add_left h.length_le _

theorem VariantItems.length_le {vs : List Value} {plain b : Bytes} :
    VariantItems vs plain b → plain.length ≤ b.length
  | .nil => Nat.le_refl _
  | .cons h rest => by
    rw [List.length_append, List.length_append]
    exact Nat.add_le_add h.length_le rest.length_le

theorem VariantFields.length_le {fs : List (String × Value)} {plain b : Bytes} :
    VariantFields fs plain b → plain.length ≤ b.length
  | .nil => Nat.le_refl _
  | .cons h rest => by
    simp only [List.length_append]
    exact Nat.add_le_add (Nat.add_le_add_left h.length_le _) rest.length_le

end

/-- What is read of bytes is no larger than they are. -/
theorem Grammar.amount_le {b : Bytes} {v : Value} (h : Grammar b v) :
    v.nodes + v.content ≤ b.length := by
  obtain ⟨-, plain, hv⟩ := h
  have hwritten := amount_le_write hv.hasNaN
  rw [hv.write_eq] at hwritten
  exact hwritten.trans hv.length_le

/-! ## From a place in the input -/

/-- A back part of what begins at a place begins at a later one. -/
theorem exists_place {input rest : Bytes} {start : Nat} (hs : start ≤ input.length)
    (h : rest <:+ input.drop start) :
    ∃ stop, start ≤ stop ∧ stop ≤ input.length ∧ rest = input.drop stop := by
  have hlen := h.length_le
  rw [List.length_drop] at hlen
  exact ⟨input.length - rest.length, by omega, Nat.sub_le _ _,
    List.suffix_iff_eq_drop.1 (h.trans (List.drop_suffix start input))⟩

/-- The reader of values is the one that is used within itself. From wherever it
reads, the readers within one another come to an end, whatever should stand
deeper than there are bytes. The place that they come to, with a value or with a
fault, is within the input and not before the one that they began at; and a
value has taken a byte at least, and as many as there are values in it and bytes
in its texts, byte strings and names. -/
theorem next_bounded {input : Bytes} {start : Nat} (h : start ≤ input.length) :
    (∀ p, p = layer p ↔ p = .mk next) ∧
    (∀ deepest n, input.length - start < n →
      (nested deepest n).run (input.drop start) = next (input.drop start)) ∧
    ∃ stop, start ≤ stop ∧ stop ≤ input.length ∧
      (next (input.drop start)).2 = input.drop stop ∧
      ∀ v, (next (input.drop start)).1 = .ok v →
        start < stop ∧ v.nodes + v.content ≤ stop - start := by
  refine ⟨fun p => eq_layer_iff, fun deepest n hn => nested_eq_next deepest ?_, ?_⟩
  · rwa [List.length_drop]
  obtain ⟨stop, hfrom, hto, hleft⟩ := exists_place h (value_forward _ (input.drop start))
  refine ⟨stop, hfrom, hto, hleft, fun v hv => ?_⟩
  obtain ⟨b, hb, hg⟩ := value_takes _ _ v _ (Prod.ext hv hleft)
  have hlen := congrArg List.length hb
  rw [List.length_append, List.length_drop, List.length_drop] at hlen
  have hsome := nodes_pos v
  have hfew := hg.amount_le
  omega

/-- An array of a text and a document, under a tag and between other bytes. -/
theorem next_bounded_tagged :
    let input : Bytes := [0xf6, 0xc1, 0x82, 0x61, 0x61, 0xa1, 0x61, 0x6b, 0xf7, 0x18]
    let v := array [.text "a", .document ⟨[("k", .null)]⟩]
    1 ≤ input.length ∧ next (input.drop 1) = (.ok v, input.drop 9) ∧
      (∀ deepest, (nested deepest 10).run (input.drop 1) = (.ok v, input.drop 9)) ∧
      ∃ stop, 1 < stop ∧ stop ≤ input.length ∧ input.drop 9 = input.drop stop ∧
        v.nodes + v.content ≤ stop - 1 := by
  intro input v
  have hread : next (input.drop 1) = (.ok v, input.drop 9) := by rfl
  have h : 1 ≤ input.length := by decide
  obtain ⟨-, hnested, stop, -, hto, hleft, hsize⟩ := next_bounded h
  rw [hread] at hnested hleft hsize
  obtain ⟨hfrom, hfew⟩ := hsize v rfl
  exact ⟨h, hread, fun deepest => hnested deepest 10 (by decide), stop, hfrom, hto, hleft, hfew⟩

/-- An array of 255 elements, none of which is there. -/
example : next [0x98, 0xff] = (.error .unexpectedEnd, []) := by rfl

end Folio.Cbor
