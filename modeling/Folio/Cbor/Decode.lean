import Folio.Cbor.Head
import Folio.Value.Basic
import Folio.Value.Canonical

/-!
# Bytes as values

Reading accepts only the form that writing produces, apart from tags without a
meaning here, which are passed over, and a second code for null. A reader is a
function of the unread bytes; it answers with what is left, also after a fault,
where the rest begins at the place that the reader stopped at.

Results:
* `take_ok`: bytes are taken from the front.
* `decode_ok`: a whole value leaves nothing unread.
-/
namespace Folio.Cbor

open Number (Floating)

/-- A reader of bytes: it moves forward through them and may stop at a fault. -/
abbrev Parser (α : Type) := ExceptT DataFault (StateM Bytes) α

/-- The next byte. -/
def byte : Parser UInt8 := .mk fun
  | [] => (.error .unexpectedEnd, [])
  | b :: rest => (.ok b, rest)

/-- The next `n` bytes, or none of them. -/
def take (n : Nat) : Parser Bytes := .mk fun input =>
  if input.length < n then (.error .unexpectedEnd, input)
  else (.ok (input.take n), input.drop n)

/-- An argument in `width` bytes, which must need so many. -/
def wide (width least : Nat) : Parser Nat := do
  let n := Bytes.toNat (← take width)
  if n < least then throw (.badStructure (.notShortest n))
  return n

/-- The argument of a head whose first byte has the low bits `info`. -/
def argument (info : Nat) : Parser Nat :=
  if info < 24 then pure info
  else if info = 24 then wide 1 24
  else if info = 25 then wide 2 0x100
  else if info = 26 then wide 4 0x10000
  else if info = 27 then wide 8 0x100000000
  else if info = 31 then throw .indefiniteLength
  else throw (.badStructure (.reserved info))

/-- An argument that counts something of which at most `most` are allowed. -/
def count (info most : Nat) : Parser Nat := do
  let n ← argument info
  if most < n then throw (.tooLarge n most)
  return n

/-- The payload of a string. -/
def payload (info : Nat) : Parser Bytes := do take (← count info maxBytes)

/-- The text of a string. -/
def textOf (info : Nat) : Parser String := do
  match Bytes.toText? (← payload info) with
  | some s => return s
  | none => throw .invalidUtf8

/-- An argument as an integer's magnitude. -/
def magnitude (info : Nat) : Parser Nat := do
  let n ← argument info
  if 0x8000000000000000 ≤ n then throw .integerOverflow
  return n

/-- The value of a simple item. -/
def simple (info : Nat) : Parser Value :=
  if info = 20 then pure (.bool false)
  else if info = 21 then pure (.bool true)
  else if info = 22 ∨ info = 23 then pure .null
  else if info = 25 ∨ info = 26 then throw (.badStructure .shortFloat)
  else if info = 27 then do
    let d : Number.Double := .ofBits (Bytes.toNat (← take 8))
    if d.isNaN then throw .nanForbidden
    return .double d
  else if info = 31 then throw (.badStructure .strayBreak)
  else throw (.unsupported (.simple info))

/-- `n` items, one after another. -/
def items (item : Parser Value) : Nat → Parser (List Value)
  | 0 => pure []
  | n + 1 => do
    let v ← item
    return v :: (← items item n)

/-- `n` fields, each of whose names comes after the one before it. -/
def fields (item : Parser Value) : Nat → Option String → Parser (List (String × Value))
  | 0, _ => pure []
  | n + 1, previous => do
    let first ← byte
    if Kind.ofByte first ≠ .text then throw (.unsupported .nonTextKey)
    let key ← textOf (first.toNat % 32)
    if previous.any fun p => keyOrder p key ≠ .lt then
      throw (.badStructure (.keyOutOfOrder key))
    let v ← item
    return (key, v) :: (← fields item n (some key))

/-- The value that a tag makes of the item after it. -/
def tagged (tag : Nat) (inner : Value) : Parser Value :=
  if tag = objectIdTag then
    match inner with
    | .bytes b => (ObjectId.ofBytes? b).map .objectId
    | other => throw (.unexpectedType "bytes" other.typeName)
  else if tag = dateTimeTag then
    match inner with
    | .integer n => pure (.dateTime ⟨n⟩)
    | other => throw (.unexpectedType "integer" other.typeName)
  else pure inner

/-- The next value, in which items are nested at most `fuel` deep. Every level
takes at least one byte, so as many levels as there are bytes suffice. -/
def value : (fuel : Nat) → Parser Value
  | 0 => throw .unexpectedEnd
  | fuel + 1 => do
    let first ← byte
    let info := first.toNat % 32
    match Kind.ofByte first with
    | .unsigned => return .integer (Int64.ofNat (← magnitude info))
    | .negative => return .integer (Int64.ofInt (-1 - (← magnitude info)))
    | .bytes => return .bytes (← payload info)
    | .text => return .text (← textOf info)
    | .array => return .array (← items (value fuel) (← count info maxEntries))
    | .map => return .document ⟨← fields (value fuel) (← count info maxEntries) none⟩
    | .tag => do
      let tag ← argument info
      tagged tag (← value fuel)
    | .simple => simple info

/-- The next value and the bytes left unread. -/
def next (input : Bytes) : Except DataFault Value × Bytes :=
  (value input.length).run input

/-- Values read one after another until nothing is left or one of them fails,
each with the bytes left unread after it. Each takes at least one byte, so
`fuel` may be the number of bytes. -/
def sequence : (fuel : Nat) → Bytes → List (Except DataFault Value × Bytes)
  | 0, _ | _, [] => []
  | fuel + 1, input =>
    match next input with
    | (.ok v, rest) => (.ok v, rest) :: sequence fuel rest
    | failed => [failed]

/-- Values read one after another until nothing is left or one of them fails. -/
def decodeAll (input : Bytes) : List (Except DataFault Value × Bytes) :=
  sequence input.length input

/-- The one value that the bytes spell. -/
def decode (input : Bytes) : Except DataFault Value :=
  match next input with
  | (.error e, _) => .error e
  | (.ok v, []) => .ok v
  | (.ok _, rest) => .error (.badStructure (.trailing rest.length))

/-- The one document that the bytes spell. -/
def decodeDocument (input : Bytes) : Except DataFault Document := do
  match ← decode input with
  | .document doc => return doc
  | other => throw (.unexpectedType "document" other.typeName)

theorem take_ok {n : Nat} {input : Bytes} (h : n ≤ input.length) :
    (take n).run input = (.ok (input.take n), input.drop n) := by
  simp [take, ExceptT.run, ExceptT.mk, Nat.not_lt.2 h]

theorem decode_ok {input : Bytes} {v : Value} :
    decode input = .ok v ↔ next input = (.ok v, []) := by
  unfold decode
  split <;> simp_all

end Folio.Cbor
