import Folio.Number.Floating

/-!
# Shortest decimal digits

A finite number of a binary format stands for the interval of reals that
round to it. Among the decimals in that interval the fewest digits win, and
among those the one nearest to the number; of two equally near the larger.

All arithmetic is on natural numbers: with `P = 10 ^ 400`, every value is
scaled by `2 ^ (unit + 1) * P`, which makes each quantity below whole.
-/
namespace Folio.Number

/-- A decimal `0.d₁d₂… × 10 ^ point`, its digits most significant first. -/
structure Decimal where
  digits : List Nat
  point : Int
  deriving DecidableEq, Repr

namespace Decimal

/-- The decimal digits of `n`, most significant first. -/
def digitsOf (n : Nat) : List Nat :=
  (Nat.toDigits 10 n).map fun c => c.toNat - 48

/-- The digits without the zeros at the end. -/
def trimmed (digits : List Nat) : List Nat :=
  (digits.reverse.dropWhile (· = 0)).reverse

end Decimal

namespace Format

/-- The scale that makes every decimal of at most 17 digits near a finite
number whole. -/
def scale : Nat := Nat.pow 10 400

/-- The bounds and the value of the interval that rounds to a positive
pattern, in half units, and whether the bounds belong to it. -/
def interval (f : Format) (pattern : Nat) : Nat × Nat × Nat × Bool :=
  let u := f.units pattern
  (f.units (pattern - 1) + u, 2 * u, u + f.units (pattern + 1), pattern % 2 = 0)

/-- The candidate with `n` digits nearest to the value, if one of the two
neighbours of the value on that decimal grid lies in the interval. The answer
is the digits as a number. `top` is the decimal exponent of the value. -/
def candidate? (f : Format) (pattern : Nat) (top : Int) (n : Nat) : Option Nat :=
  let (lo, value, hi, closed) := f.interval pattern
  let step := Nat.pow 10 (401 + top - n).toNat <<< (f.unit + 1)
  let within (d : Nat) : Bool :=
    if closed then lo * scale ≤ d * step && d * step ≤ hi * scale
    else lo * scale < d * step && d * step < hi * scale
  let down := value * scale / step
  let up := down + 1
  let upIsNearer : Bool := up * step - value * scale ≤ value * scale - down * step
  match within down, within up with
  | true, true => some (if upIsNearer then up else down)
  | true, false => some down
  | false, true => some up
  | false, false => none

/-- The shortest decimal of a positive finite pattern. Seventeen digits
always suffice for 64 bits. -/
def shortest (f : Format) (pattern : Nat) : Decimal :=
  let whole := (2 * f.units pattern * scale) >>> (f.unit + 1)
  let top : Int := (Nat.toDigits 10 whole).length - 401
  let found := (List.range 17).findSome? fun i =>
    (f.candidate? pattern top (i + 1)).map fun d => (i + 1, d)
  match found with
  | none => ⟨[0], 0⟩
  | some (n, d) =>
    let digits := Decimal.digitsOf d
    ⟨Decimal.trimmed digits, top + 1 + (digits.length - n : Int)⟩

end Format
end Folio.Number
