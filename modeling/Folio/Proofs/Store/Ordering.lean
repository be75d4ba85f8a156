import Mathlib.Data.Set.Defs
import Folio.Proofs.Value.Comparing
import Folio.Store.Query

/-!
# The order that documents are sorted by

Documents are sorted by what stands at the end of a path. A document without it
comes first, and values that are compared with nothing count as equal to all
others. This makes the order of two documents the reverse of their order in the
other direction, but equality does not carry over: of three documents the first
may be equal to the second and the second to the third, and the first greater
than the third.

Results:
* `order_swap`: two documents compare alike in both directions.
* `transitive_of_coherent`: the order is one of a sort where the values are all
  compared with one another.
* `order_transitive_iff`: exactly where they are, or none is greater than
  another.
-/
namespace Folio.Query

variable {field : String} {direction : Direction} {a b : Document} {x y : Value}
  {S : Set Document} {V : Set Value}

/-! ## Two documents -/

theorem order_some (ha : a.getPath? field = some x) (hb : b.getPath? field = some y) :
    order field .ascending a b = (x.compare? y).getD .eq := by
  simp [order, ha, hb]

theorem getD_ne_gt {o : Option Ordering} : o.getD .eq ≠ .gt ↔ o ≠ some .gt := by
  cases o <;> simp

/-- Two documents compare alike in both directions. -/
theorem order_swap (field : String) (direction : Direction) (a b : Document) :
    order field direction b a = (order field direction a b).swap := by
  have hascending : order field .ascending b a = (order field .ascending a b).swap := by
    unfold order
    cases a.getPath? field with
    | none => cases b.getPath? field <;> rfl
    | some x =>
      cases b.getPath? field with
      | none => rfl
      | some y =>
        show (y.compare? x).getD .eq = ((x.compare? y).getD .eq).swap
        rw [Value.compare?_swap x y]
        cases x.compare? y <;> rfl
  cases direction with
  | ascending => exact hascending
  | descending => exact congrArg Ordering.swap hascending

theorem order_descending (field : String) (a b : Document) :
    order field .descending a b = order field .ascending b a :=
  (order_swap field .ascending a b).symm

/-! ## Three documents -/

/-- What a sort asks of an order, beside that it is the same in both
directions. -/
def TransitiveOn (S : Set Document) (cmp : Document → Document → Ordering) : Prop :=
  ∀ a ∈ S, ∀ b ∈ S, ∀ c ∈ S, cmp a b ≠ .gt → cmp b c ≠ .gt → cmp a c ≠ .gt

/-- The values at the end of a path. -/
def present (field : String) (S : Set Document) : Set Value :=
  fun v => ∃ doc ∈ S, doc.getPath? field = some v

/-- If any of the values is greater than another, then all are of one family, and
no double stands for both of two different integers. -/
def Coherent (V : Set Value) : Prop :=
  ∀ x ∈ V, ∀ z ∈ V, x.compare? z = some .gt →
    ∀ y ∈ V, y.family? = x.family? ∧ ¬ y.Conflates x z

/-- It makes no difference in which direction documents are sorted. -/
theorem transitiveOn_iff (field : String) (direction : Direction) (S : Set Document) :
    TransitiveOn S (order field direction) ↔ TransitiveOn S (order field .ascending) := by
  cases direction with
  | ascending => rfl
  | descending =>
    unfold TransitiveOn
    simp only [order_descending]
    exact ⟨fun h a ha b hb c hc hab hbc => h c hc b hb a ha hbc hab,
      fun h a ha b hb c hc hab hbc => h c hc b hb a ha hbc hab⟩

theorem transitive_of_coherent (h : Coherent (present field S)) (direction : Direction) :
    TransitiveOn S (order field direction) := by
  rw [transitiveOn_iff]
  intro a ha b hb c hc hab hbc
  cases hx : a.getPath? field with
  | none => cases hz : c.getPath? field <;> simp [order, hx, hz]
  | some x =>
    cases hy : b.getPath? field with
    | none => simp [order, hx, hy] at hab
    | some y =>
      cases hz : c.getPath? field with
      | none => simp [order, hy, hz] at hbc
      | some z =>
        rw [order_some hx hy, getD_ne_gt] at hab
        rw [order_some hy hz, getD_ne_gt] at hbc
        rw [order_some hx hz, getD_ne_gt]
        intro hxz
        obtain ⟨hfamily, hapart⟩ := h x ⟨a, ha, hx⟩ z ⟨c, hc, hz⟩ hxz y ⟨b, hb, hy⟩
        exact ((Value.between_iff hxz).1 ⟨hab, hbc⟩).elim (fun hne => hne hfamily) hapart

theorem coherent_of_transitive (h : TransitiveOn S (order field direction)) :
    Coherent (present field S) := by
  rw [transitiveOn_iff] at h
  intro x ⟨a, ha, hx⟩ z ⟨c, hc, hz⟩ hxz y ⟨b, hb, hy⟩
  have hbetween : ¬ (y.family? ≠ x.family? ∨ y.Conflates x z) := by
    rw [← Value.between_iff hxz]
    intro ⟨hxy, hyz⟩
    have hac := h a ha b hb c hc (by rwa [order_some hx hy, getD_ne_gt])
      (by rwa [order_some hy hz, getD_ne_gt])
    rw [order_some hx hz, getD_ne_gt] at hac
    exact hac hxz
  obtain ⟨hfamily, hapart⟩ := not_or.1 hbetween
  exact ⟨Decidable.not_not.1 hfamily, hapart⟩

/-- Any two documents compare alike in both directions. The order of documents is
transitive, as a sort needs it, if and only if none of the values at the end of
the path is greater than another, or all are of one family and no double among
them is what two different integers among them are rounded to. -/
theorem order_transitive_iff (field : String) (direction : Direction) :
    (∀ a b, order field direction b a = (order field direction a b).swap) ∧
    ∀ S : Set Document, TransitiveOn S (order field direction) ↔ Coherent (present field S) :=
  ⟨order_swap field direction,
    fun _ => ⟨coherent_of_transitive, fun h => transitive_of_coherent h direction⟩⟩

/-- Documents with one field, one for each value. -/
def marked (values : List Value) : Set Document := fun doc => ∃ v ∈ values, doc = ⟨[("n", v)]⟩

theorem present_marked {values : List Value} {v : Value} (h : v ∈ values) :
    present "n" (marked values) v :=
  ⟨⟨[("n", v)]⟩, ⟨v, h, rfl⟩, rfl⟩

/-- A text may stand between two integers in the other order, and so may the double
that both are rounded to. -/
theorem order_not_transitive :
    ¬ TransitiveOn (marked [.integer 1, .text "a", .integer 0]) (order "n" .ascending) ∧
    ¬ TransitiveOn (marked [.integer 9007199254740993, .double (.ofBits 0x4340000000000000),
        .integer 9007199254740992]) (order "n" .ascending) := by
  rw [(order_transitive_iff "n" .ascending).2, (order_transitive_iff "n" .ascending).2]
  constructor
  · intro h
    have hfamily := (h (.integer 1) (present_marked (by simp)) (.integer 0)
      (present_marked (by simp)) rfl (.text "a") (present_marked (by simp))).1
    cases hfamily
  · intro h
    refine (h (.integer 9007199254740993) (present_marked (by simp)) (.integer 9007199254740992)
      (present_marked (by simp)) rfl (.double (.ofBits 0x4340000000000000))
      (present_marked (by simp))).2 ?_
    exact ⟨_, _, _, rfl, rfl, rfl, by decide +kernel, by decide +kernel⟩

end Folio.Query
