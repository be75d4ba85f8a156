/-!
# Byte strings

Byte strings are lists of bytes. This module has the big-endian spelling of a
number in a fixed width, the lowercase hexadecimal text of a byte string, and
the UTF-8 bytes of a text.

Results:
* `length_ofNat`: a number spelt in `w` bytes has exactly `w` bytes.
* `toNat_ofNat`: reading a spelling back gives the number, if it fits.
-/
namespace Folio

/-- A string of bytes. -/
abbrev Bytes := List UInt8

namespace Bytes

/-- The `width` low bytes of `n`, most significant first. -/
def ofNat : (width n : Nat) → Bytes
  | 0, _ => []
  | w + 1, n => UInt8.ofNat (n / Nat.pow 256 w) :: ofNat w n

/-- The number spelt by `bytes`, most significant byte first. -/
def toNat (bytes : Bytes) : Nat :=
  bytes.foldl (fun n b => n * 256 + b.toNat) 0

@[simp] theorem length_ofNat (w n : Nat) : (ofNat w n).length = w := by
  induction w with
  | zero => rfl
  | succ w ih => simp [ofNat, ih]

theorem foldl_eq (bytes : Bytes) (k : Nat) :
    bytes.foldl (fun n b => n * 256 + b.toNat) k =
      k * Nat.pow 256 bytes.length + toNat bytes := by
  induction bytes generalizing k with
  | nil => simp [toNat]
  | cons b r ih =>
    have next : Nat.pow 256 (r.length + 1) = Nat.pow 256 r.length * 256 := rfl
    rw [toNat, List.foldl_cons, List.foldl_cons, ih, ih (0 * 256 + b.toNat), List.length_cons, next]
    simp only [Nat.add_mul, Nat.zero_mul, Nat.zero_add]
    rw [Nat.mul_assoc, Nat.mul_comm 256, Nat.add_assoc]

theorem toNat_cons (b : UInt8) (r : Bytes) :
    toNat (b :: r) = b.toNat * Nat.pow 256 r.length + toNat r := by
  have := foldl_eq r b.toNat
  simpa [toNat] using this

theorem toNat_ofNat_mod (w n : Nat) : toNat (ofNat w n) = n % Nat.pow 256 w := by
  induction w with
  | zero => simp [ofNat, toNat, Nat.mod_one]
  | succ w ih =>
    rw [ofNat, toNat_cons, length_ofNat, ih, UInt8.toNat_ofNat']
    have next : Nat.pow 256 (w + 1) = Nat.pow 256 w * 256 := rfl
    rw [next, Nat.mod_mul, Nat.mul_comm, Nat.add_comm]

/-- A number that fits `w` bytes is read back from its spelling. -/
theorem toNat_ofNat {w n : Nat} (h : n < Nat.pow 256 w) : toNat (ofNat w n) = n := by
  rw [toNat_ofNat_mod, Nat.mod_eq_of_lt h]

/-- The lowercase hexadecimal digit of a number below 16. -/
def hexDigit (n : Nat) : Char :=
  if n < 10 then Char.ofNat (48 + n) else Char.ofNat (87 + n)

/-- Two lowercase hexadecimal digits per byte. -/
def toHex (bytes : Bytes) : String :=
  String.ofList (bytes.flatMap fun b => [hexDigit (b.toNat / 16), hexDigit (b.toNat % 16)])

/-- The value of a hexadecimal digit byte of either letter case. -/
def hexValue? (b : UInt8) : Option Nat :=
  if 48 ≤ b ∧ b ≤ 57 then some (b.toNat - 48)
  else if 97 ≤ b ∧ b ≤ 102 then some (b.toNat - 87)
  else if 65 ≤ b ∧ b ≤ 70 then some (b.toNat - 55)
  else none

/-- The bytes of the text, in UTF-8. -/
def ofText (s : String) : Bytes :=
  s.toUTF8.data.toList

/-- The text whose UTF-8 bytes are `bytes`, if they are well formed. -/
def toText? (bytes : Bytes) : Option String :=
  String.fromUTF8? ⟨bytes.toArray⟩

/-- The rest of `bytes` after `lead`, if they begin with it. -/
def dropLead? : (lead bytes : Bytes) → Option Bytes
  | [], bytes => some bytes
  | _ :: _, [] => none
  | a :: lead, b :: bytes => if a = b then dropLead? lead bytes else none

end Bytes
end Folio
