import Folio.Number.Shortest

/-!
# The text of a floating point number

A number is written with its shortest digits. Numbers of ordinary size are
written in positional notation and always show a point; very large and very
small ones have an exponent after an `e`.
-/
namespace Folio.Number

/-- The decisions of a notation. -/
structure Style where
  /-- The least value of the decimal exponent that is written positionally. -/
  least : Int
  /-- The first larger decimal exponent that is not. -/
  limit : Int
  nan : String
  infinity : String
  deriving Repr

/-- Numbers from `1e-4` to below `1e16` are positional. -/
def Style.plain : Style := ⟨-4, 16, "NaN", "inf"⟩

namespace Decimal

/-- One character per digit. -/
def text (digits : List Nat) : String :=
  String.ofList (digits.map fun d => Char.ofNat (48 + d))

/-- Digits with a point; at least one digit stands on either side. -/
def positional (d : Decimal) : String :=
  let n := d.digits.length
  if d.point ≤ 0 then
    "0." ++ text (List.replicate d.point.natAbs 0 ++ d.digits)
  else if n ≤ d.point.toNat then
    text (d.digits ++ List.replicate (d.point.toNat - n) 0) ++ ".0"
  else
    text (d.digits.take d.point.toNat) ++ "." ++ text (d.digits.drop d.point.toNat)

/-- One digit before the point and an exponent; no point after a lone digit. -/
def scientific (d : Decimal) : String :=
  let rest := d.digits.drop 1
  let fraction := if rest.isEmpty then "" else "." ++ text rest
  text (d.digits.take 1) ++ fraction ++ "e" ++ toString (d.point - 1)

end Decimal

namespace Floating

variable {f : Format}

/-- The text of a number in the notation. -/
def render (style : Style) (x : Floating f) : String :=
  if x.isNaN then style.nan
  else
    let sign := if x.isNegative then "-" else ""
    if x.isInfinite then sign ++ style.infinity
    else if x.magnitude = 0 then sign ++ "0.0"
    else
      let d := f.shortest x.magnitude
      if style.least ≤ d.point - 1 ∧ d.point - 1 < style.limit then sign ++ d.positional
      else sign ++ d.scientific

end Floating
end Folio.Number
