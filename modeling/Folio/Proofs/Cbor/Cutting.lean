import Folio.Proofs.Cbor.Alike

/-!
# Bytes cut short

Of bytes that a reader makes something of, a front part is read in the same way
as far as it goes: the reader makes the same thing of it, or comes to its end.

Results:
* `congruent_cut`: readers built alike.
* `value_cut`: the reader of values, whatever depth it is allowed.
* `decode_cut`: of the bytes of a value no shorter part is a value, and the
  fault is that the input ends.
-/
namespace Folio.Cbor

variable {α β : Type}

/-- Whenever the first reader makes something of bytes, the second one, given a
front part of them, makes the same of it and leaves what the first one leaves
but for the rest, or stops at the end of the input. -/
def Cut (p q : Parser α) : Prop :=
  ∀ front back a rest, p.run (front ++ back) = (.ok a, rest) →
    (∃ left, q.run front = (.ok a, left) ∧ rest = left ++ back) ∨
      ∃ left, q.run front = (.error .unexpectedEnd, left)

theorem cut_pure (a : α) : Cut (pure a) (pure a) := by
  intro front back x rest h
  cases h
  exact .inl ⟨front, rfl, rfl⟩

theorem cut_throw (fault : DataFault) : Cut (throw fault : Parser α) (throw fault) := by
  intro front back x rest h
  cases h

theorem cut_ended {p : Parser α} : Cut p (throw .unexpectedEnd) :=
  fun front _ _ _ _ => .inr ⟨front, rfl⟩

theorem Cut.bind {p q : Parser α} {f g : α → Parser β} (hp : Cut p q) (hf : ∀ a, Cut (f a) (g a)) :
    Cut (p >>= f) (q >>= g) := by
  intro front back y rest h
  obtain ⟨a, middle, ha, h⟩ := ok_of_run_bind h
  rcases hp front back a middle ha with ⟨left, hq, rfl⟩ | ⟨left, hq⟩
  · rw [run_bind_ok hq]
    exact hf a left back y rest h
  · exact .inr ⟨left, run_bind_error hq⟩

theorem byte_cut : Cut byte byte := by
  intro front back b rest h
  cases front with
  | nil => exact .inr ⟨[], rfl⟩
  | cons x front =>
    cases h
    exact .inl ⟨front, rfl, rfl⟩

theorem take_cut (n : Nat) : Cut (take n) (take n) := by
  intro front back b rest h
  by_cases hn : n ≤ front.length
  · rw [take_ok (by rw [List.length_append]; omega)] at h
    cases h
    refine .inl ⟨front.drop n, ?_, List.drop_append_of_le_length hn⟩
    rw [take_ok hn, List.take_append_of_le_length hn]
  · exact .inr ⟨front, if_pos (Nat.lt_of_not_le hn)⟩

theorem congruent_cut : Congruent Cut where
  pure := cut_pure
  stop := cut_throw
  byte := byte_cut
  take := take_cut
  bind := Cut.bind

/-! ## Values -/

/-- A front part takes no more levels than it has bytes, so the depth that is
allowed for it may be less. -/
theorem value_cut (fuel depth : Nat) : Cut (value fuel) (value depth) := by
  induction fuel generalizing depth with
  | zero =>
    intro front back v rest h
    cases h
  | succ fuel ih =>
    cases depth with
    | zero => exact cut_ended
    | succ depth => exact congruent_cut.layer (ih depth)

/-- Of the bytes of a value no shorter part is a value: it is refused because
the input ends. -/
theorem decode_cut {front back : Bytes} {v : Value} (h : decode (front ++ back) = .ok v)
    (hb : back ≠ []) : decode front = .error .unexpectedEnd := by
  rcases value_cut _ front.length front back v [] (decode_ok.1 h) with ⟨left, -, hl⟩ | ⟨left, hq⟩
  · exact absurd (List.append_eq_nil_iff.1 hl.symm).2 hb
  · rw [decode, show next front = _ from hq]

theorem decodeDocument_cut {front back : Bytes} {doc : Document}
    (h : decodeDocument (front ++ back) = .ok doc) (hb : back ≠ []) :
    decodeDocument front = .error .unexpectedEnd := by
  obtain ⟨v, hv, -⟩ := ok_of_bind h
  rw [decodeDocument, decode_cut hv hb]
  rfl

end Folio.Cbor
