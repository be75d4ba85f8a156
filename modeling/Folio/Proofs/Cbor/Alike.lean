import Folio.Cbor.Decode
import Folio.Proofs.Run

/-!
# Readers built alike

All readers are put together of two that touch the input: one takes a byte, the
other several. A relation that each of these has to itself, and that is kept
where one reader follows another (`Congruent`), holds between readers that are
built alike of readers between which it holds.

Results:
* `value_succ`: the reader of values is `layer`, with itself for the values
  inside.
* `Congruent.inside`, `Congruent.layer`: a relation between readers of the values
  inside is one between the readers of values around them.
-/
namespace Folio.Cbor

/-- After the first byte of a value; `inner` reads the values inside. -/
def inside (inner : Parser Value) (first : UInt8) : Parser Value := do
  let info := first.toNat % 32
  match Kind.ofByte first with
  | .unsigned => return .integer (Int64.ofNat (← magnitude info))
  | .negative => return .integer (Int64.ofInt (-1 - (← magnitude info)))
  | .bytes => return .bytes (← payload info)
  | .text => return .text (← textOf info)
  | .array => return .array (← items inner (← count info maxEntries))
  | .map => return .document ⟨← fields inner (← count info maxEntries) none⟩
  | .tag => do
    let tag ← argument info
    tagged tag (← inner)
  | .simple => simple info

/-- The next value; `inner` reads the values inside. -/
def layer (inner : Parser Value) : Parser Value := byte >>= inside inner

theorem value_succ (fuel : Nat) : value (fuel + 1) = layer (value fuel) := rfl

/-- A relation between readers that holds between what is built alike. -/
structure Congruent (R : ∀ {α : Type}, Parser α → Parser α → Prop) : Prop where
  pure : ∀ {α : Type} (a : α), R (pure a) (pure a)
  stop : ∀ {α : Type} (fault : DataFault), R (throw fault : Parser α) (throw fault)
  byte : R byte byte
  take : ∀ n, R (take n) (take n)
  bind : ∀ {α β : Type} {p q : Parser α} {f g : α → Parser β}, R p q → (∀ a, R (f a) (g a)) →
    R (p >>= f) (q >>= g)

namespace Congruent

variable {R : ∀ {α : Type}, Parser α → Parser α → Prop} {α : Type}

/-- A step that reads nothing. -/
theorem lift (hR : Congruent R) (x : Except DataFault α) : R (liftM x : Parser α) (liftM x) := by
  cases x with
  | ok a => exact hR.pure a
  | error fault => exact hR.stop fault

/-- A check of what was read before. -/
theorem check (hR : Congruent R) {c : Prop} [Decidable c] (fault : DataFault) {p q : Parser α}
    (h : R p q) :
    R (do
        if c then throw fault
        p)
      (do
        if c then throw fault
        q) := by
  dsimp only
  split
  · exact hR.bind (hR.stop fault) fun _ => h
  · exact h

/-! ## Heads and strings -/

theorem wide (hR : Congruent R) (width least : Nat) : R (wide width least) (wide width least) :=
  hR.bind (hR.take width) fun _ => hR.check _ (hR.pure _)

theorem argument (hR : Congruent R) (info : Nat) : R (argument info) (argument info) := by
  unfold Cbor.argument
  repeat' split
  · exact hR.pure _
  · exact hR.wide _ _
  · exact hR.wide _ _
  · exact hR.wide _ _
  · exact hR.wide _ _
  · exact hR.stop _
  · exact hR.stop _

theorem count (hR : Congruent R) (info most : Nat) : R (count info most) (count info most) :=
  hR.bind (hR.argument info) fun _ => hR.check _ (hR.pure _)

theorem magnitude (hR : Congruent R) (info : Nat) : R (magnitude info) (magnitude info) :=
  hR.bind (hR.argument info) fun _ => hR.check _ (hR.pure _)

theorem payload (hR : Congruent R) (info : Nat) : R (payload info) (payload info) :=
  hR.bind (hR.count info maxBytes) hR.take

theorem textOf (hR : Congruent R) (info : Nat) : R (textOf info) (textOf info) := by
  refine hR.bind (hR.payload info) fun b => ?_
  split
  · exact hR.pure _
  · exact hR.stop _

/-! ## Values -/

theorem simple (hR : Congruent R) (info : Nat) : R (simple info) (simple info) := by
  unfold Cbor.simple
  repeat' split
  · exact hR.pure _
  · exact hR.pure _
  · exact hR.pure _
  · exact hR.stop _
  · exact hR.bind (hR.take 8) fun _ => hR.check _ (hR.pure _)
  · exact hR.stop _
  · exact hR.stop _

theorem tagged (hR : Congruent R) (tag : Nat) (v : Value) : R (tagged tag v) (tagged tag v) := by
  unfold Cbor.tagged
  split
  · split
    · exact hR.lift _
    · exact hR.stop _
  · split
    · split
      · exact hR.pure _
      · exact hR.stop _
    · exact hR.pure _

variable {p q : Parser Value}

theorem items (hR : Congruent R) (h : R p q) (n : Nat) : R (items p n) (items q n) := by
  induction n with
  | zero => exact hR.pure _
  | succ n ih => exact hR.bind h fun _ => hR.bind ih fun _ => hR.pure _

theorem fields (hR : Congruent R) (h : R p q) (n : Nat) (previous : Option String) :
    R (fields p n previous) (fields q n previous) := by
  induction n generalizing previous with
  | zero => exact hR.pure _
  | succ n ih =>
    refine hR.bind hR.byte fun first => hR.check _ ?_
    refine hR.bind (hR.textOf _) fun key => hR.check _ ?_
    exact hR.bind h fun v => hR.bind (ih (some key)) fun rest => hR.pure _

/-- What is behind the first byte of a value. -/
theorem inside (hR : Congruent R) (h : R p q) (first : UInt8) : R (inside p first) (inside q first) := by
  unfold Cbor.inside
  dsimp only
  split
  · exact hR.bind (hR.magnitude _) fun _ => hR.pure _
  · exact hR.bind (hR.magnitude _) fun _ => hR.pure _
  · exact hR.bind (hR.payload _) fun _ => hR.pure _
  · exact hR.bind (hR.textOf _) fun _ => hR.pure _
  · exact hR.bind (hR.count _ _) fun n => hR.bind (hR.items h n) fun _ => hR.pure _
  · exact hR.bind (hR.count _ _) fun n => hR.bind (hR.fields h n none) fun _ => hR.pure _
  · exact hR.bind (hR.argument _) fun tag => hR.bind h (hR.tagged tag)
  · exact hR.simple _

/-- A relation between readers of the values inside holds between the readers
of the values around them. -/
theorem layer (hR : Congruent R) (h : R p q) : R (layer p) (layer q) :=
  hR.bind hR.byte (hR.inside h)

end Congruent

end Folio.Cbor
