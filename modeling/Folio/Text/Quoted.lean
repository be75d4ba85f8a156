import Folio.Text.Unprintable

/-!
# Quoted text

A quoted text stands between quotation marks. A backslash begins an escape:
four control characters have a short one, the backslash and the surrounding
mark are escaped by a backslash, and any other character that is not shown as
it is has its code point in braces.
-/
namespace Folio.Text

/-- The lowercase hexadecimal spelling of a number, without leading zeros. -/
def hexText (n : Nat) : String := String.ofList (Nat.toDigits 16 n)

/-- One character inside the quotation mark `mark`. -/
def escape (mark c : Char) : String :=
  if c = '\x00' then "\\0"
  else if c = '\t' then "\\t"
  else if c = '\r' then "\\r"
  else if c = '\n' then "\\n"
  else if c = '\\' ∨ c = mark then String.ofList ['\\', c]
  else if isShown c then String.singleton c
  else "\\u\x7b" ++ hexText c.toNat ++ "\x7d"

/-- A text in double quotation marks. -/
def quoted (s : String) : String :=
  "\"" ++ String.join (s.toList.map (escape '"')) ++ "\""

/-- A character in single quotation marks. -/
def quotedChar (c : Char) : String :=
  "'" ++ escape '\'' c ++ "'"

end Folio.Text
