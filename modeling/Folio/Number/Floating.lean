/-!
# Binary floating point numbers

A floating point number is its bit pattern: a sign bit, an exponent field and
a fraction field, as IEEE 754 lays them out. Every finite number is a whole
multiple of the smallest positive one, so its exact value is the natural
number `Format.units` of such multiples. All rules below are arithmetic on
that natural number; nothing here uses the machine's floating point unit.

Results:
* `Format.nearest` rounds an exact value to the format, ties to even; the
  pattern it answers never passes the pattern of infinity.
* `compare?_self`: a number that is not a NaN equals itself.
-/
namespace Folio.Number

/-- The widths of the two fields of a binary format. -/
structure Format where
  /-- Bits of the fraction field. -/
  fraction : Nat
  /-- Bits of the exponent field. -/
  exponent : Nat
  deriving DecidableEq, Repr

namespace Format

/-- The format of 64 bits. -/
def binary64 : Format := ⟨52, 11⟩

/-- The format of 32 bits. -/
def binary32 : Format := ⟨23, 8⟩

/-- Bits of a pattern, the sign included. -/
def width (f : Format) : Nat := f.fraction + f.exponent + 1

/-- The pattern with the sign bit alone. -/
def signBit (f : Format) : Nat := 1 <<< (f.width - 1)

/-- The unit, the smallest positive number, is `2 ^ -f.unit`. -/
def unit (f : Format) : Nat := (1 <<< (f.exponent - 1)) - 2 + f.fraction

/-- The pattern of positive infinity. Larger patterns without sign are NaNs. -/
def infinity (f : Format) : Nat := ((1 <<< f.exponent) - 1) <<< f.fraction

/-- The value of an unsigned pattern, in units. An exponent field of zero has
no hidden bit and the scale of an exponent field of one. -/
def units (f : Format) (pattern : Nat) : Nat :=
  let e := pattern >>> f.fraction
  let m := pattern % (1 <<< f.fraction)
  if e = 0 then m else ((1 <<< f.fraction) + m) <<< (e - 1)

/-- Division of `n` by `2 ^ s`, to the nearest whole number, ties to even. -/
def shiftNearest (n s : Nat) : Nat :=
  let whole := 1 <<< s
  let q := n / whole
  let twice := 2 * (n % whole)
  if twice < whole ∨ (twice = whole ∧ q % 2 = 0) then q else q + 1

/-- The bits that the binary spelling of `n` needs. -/
def bitLength (n : Nat) : Nat :=
  if n = 0 then 0 else n.log2 + 1

/-- The unsigned pattern of the number nearest to `n / 2 ^ s` units. The
significand keeps `fraction + 1` bits; a carry out of it moves into the
exponent field by itself. -/
def nearest (f : Format) (n s : Nat) : Nat :=
  let drop := max s (bitLength n - (f.fraction + 1))
  min (((drop - s) <<< f.fraction) + shiftNearest n drop) f.infinity

theorem nearest_le_infinity (f : Format) (n s : Nat) : f.nearest n s ≤ f.infinity :=
  Nat.min_le_right _ _

end Format

/-- A number of the format `f`, kept as its bits. -/
structure Floating (f : Format) where
  bits : BitVec f.width
  deriving DecidableEq, Repr

/-- A number of 64 bits. -/
abbrev Double := Floating .binary64

/-- A number of 32 bits. -/
abbrev Single := Floating .binary32

namespace Floating

variable {f g : Format}

instance : Inhabited (Floating f) := ⟨⟨0⟩⟩

/-- The number with this bit pattern; higher bits are dropped. -/
def ofBits (n : Nat) : Floating f := ⟨BitVec.ofNat _ n⟩

/-- The bit pattern as a number. -/
def toBits (x : Floating f) : Nat := x.bits.toNat

/-- Whether the sign bit is set. -/
def isNegative (x : Floating f) : Bool := f.signBit ≤ x.toBits

/-- The pattern without its sign bit. -/
def magnitude (x : Floating f) : Nat := x.toBits % f.signBit

/-- The number with this sign and unsigned pattern. -/
def ofParts (negative : Bool) (magnitude : Nat) : Floating f :=
  ofBits (if negative then f.signBit + magnitude else magnitude)

/-- Whether this is not a number. -/
def isNaN (x : Floating f) : Bool := f.infinity < x.magnitude

/-- Whether this is one of the two infinities. -/
def isInfinite (x : Floating f) : Bool := x.magnitude = f.infinity

/-- A quiet NaN. -/
def nan : Floating f := ofParts false (f.infinity + (1 <<< (f.fraction - 1)))

/-- The place of a number in the order of all numbers. Both zeros have the
place zero. -/
def rank (x : Floating f) : Int :=
  if x.isNegative then -(x.magnitude : Int) else x.magnitude

/-- The order of two numbers; none if one of them is a NaN. -/
def compare? (x y : Floating f) : Option Ordering :=
  if x.isNaN || y.isNaN then none else some (compare x.rank y.rank)

/-- Equality of numbers: a NaN differs from itself and the zeros are equal. -/
instance : BEq (Floating f) where
  beq x y := !x.isNaN && !y.isNaN && x.rank == y.rank

theorem beq_self {x : Floating f} (h : x.isNaN = false) : (x == x) = true := by
  simp [BEq.beq, h]

theorem compare?_self {x : Floating f} (h : x.isNaN = false) : x.compare? x = some .eq := by
  simp [compare?, h]

/-- The value of a finite number, in units. -/
def units (x : Floating f) : Int :=
  if x.isNegative then -(f.units x.magnitude : Int) else f.units x.magnitude

/-- The number nearest to a whole number. -/
def ofInt (n : Int) : Floating f :=
  ofParts (n < 0) (f.nearest (n.natAbs <<< f.unit) 0)

/-- The sum, rounded once. Equal and opposite numbers sum to the positive
zero, and two negative zeros to the negative one. -/
def add (x y : Floating f) : Floating f :=
  if x.isNaN || y.isNaN then nan
  else if x.isInfinite then
    if y.isInfinite && x.isNegative != y.isNegative then nan else x
  else if y.isInfinite then y
  else
    let sum := x.units + y.units
    if sum = 0 then ofParts (x.isNegative && y.isNegative) 0
    else ofParts (sum < 0) (f.nearest sum.natAbs 0)

instance : Add (Floating f) := ⟨add⟩

/-- The nearest number of another format. -/
def convert (g : Format) (x : Floating f) : Floating g :=
  if x.isNaN then nan
  else if x.isInfinite then ofParts x.isNegative g.infinity
  else ofParts x.isNegative (g.nearest (f.units x.magnitude <<< g.unit) f.unit)

end Floating

namespace Double

/-- The nearest number of 32 bits. -/
def toSingle (x : Double) : Single := x.convert .binary32

end Double

namespace Single

/-- The same number in 64 bits. -/
def toDouble (x : Single) : Double := x.convert .binary64

end Single
end Folio.Number
