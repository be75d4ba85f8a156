import Folio.Exchange.Plain
import Folio.Value.Document

/-!
# Values as plain data

Nulls, flags, texts and arrays stand for themselves. Any other value is an
object with one entry, whose name tells the type. A document is a list of
pairs, so the order of its fields is kept. A floating point number is the
hexadecimal spelling of its bits, or a word for every NaN.

Results:
* `ofPlain_text`, `ofPlain_null`: what stands for itself is read as itself.
-/
namespace Folio

open Number (Format Floating Double)

/-- The word for a number that is none. -/
def nanWord : String := "nan"

instance {f : Format} : ToPlain (Floating f) :=
  ⟨fun x => if x.isNaN then .text nanWord else .ofBytes (Bytes.ofNat (f.width / 8) x.toBits)⟩

instance : ToPlain ObjectId := ⟨fun id => .text id.toHex⟩
instance : ToPlain DateTime := ⟨fun t => plain t.millis⟩

namespace Number.Floating

/-- The number that plain data spells. -/
def ofPlain {f : Format} (p : Plain) : Except PlainFault (Floating f) := do
  if (← p.toText) = nanWord then return nan
  return ofBits (Bytes.toNat (← p.toBytes))

end Number.Floating

namespace ObjectId

/-- The id that plain data spells. -/
def ofPlain (p : Plain) : Except PlainFault ObjectId := do
  (ofBytes? (← p.toBytes)).mapError fun _ => .expected "an id"

end ObjectId

namespace DateTime

/-- The timestamp that plain data spells. -/
def ofPlain (p : Plain) : Except PlainFault DateTime := do
  return ⟨Int64.ofInt (← p.toWhole)⟩

end DateTime

namespace Value

/-- A value of a type that does not stand for itself and holds no other values. -/
def scalarOfPlain (kind : String) (p : Plain) : Except PlainFault Value := do
  match kind with
  | "i" => return integer (Int64.ofInt (← p.toWhole))
  | "d" => return double (← Floating.ofPlain p)
  | "b" => return bytes (← p.toBytes)
  | "o" => return objectId (← ObjectId.ofPlain p)
  | "t" => return dateTime (← DateTime.ofPlain p)
  | _ => throw (.expected "a type of value")

/-- The names of the views that show something of a value. -/
def views (v : Value) : List String :=
  let all := [("bool", v.bool?.isSome), ("integer", v.integer?.isSome), ("str", v.text?.isSome),
    ("bytes", v.bytes?.isSome), ("objectId", v.objectId?.isSome),
    ("dateTime", v.dateTime?.isSome), ("array", v.array?.isSome),
    ("document", v.document?.isSome)]
  (all.filter (·.2)).map (·.1)

mutual

/-- The value that plain data stands for. -/
def ofPlain : Plain → Except PlainFault Value
  | .null => .ok null
  | .bool b => .ok (bool b)
  | .text s => .ok (text s)
  | .list items => do return array (← itemsOfPlain items)
  | .object [(kind, .list pairs)] =>
    if kind = "D" then do return document (.ofList (← fieldsOfPlain pairs))
    else .error (.expected "a type of value")
  | .object [(kind, p)] => scalarOfPlain kind p
  | _ => .error (.expected "a value")

/-- The values that the items stand for. -/
def itemsOfPlain : List Plain → Except PlainFault (List Value)
  | [] => .ok []
  | p :: rest => do return (← ofPlain p) :: (← itemsOfPlain rest)

/-- The fields that pairs stand for. -/
def fieldsOfPlain : List Plain → Except PlainFault (List (String × Value))
  | [] => .ok []
  | .list [.text key, p] :: rest => do return (key, ← ofPlain p) :: (← fieldsOfPlain rest)
  | _ :: _ => .error (.expected "a pair of a name and a value")

end

mutual

/-- The plain data of a value. -/
def toPlain : Value → Plain
  | null => .null
  | bool b => .bool b
  | integer n => .object [("i", plain n)]
  | double d => .object [("d", plain d)]
  | text s => .text s
  | bytes b => .object [("b", .ofBytes b)]
  | objectId id => .object [("o", plain id)]
  | dateTime t => .object [("t", plain t)]
  | array items => .list (itemsToPlain items)
  | document ⟨fields⟩ => .object [("D", .list (fieldsToPlain fields))]

/-- The plain data of each element. -/
def itemsToPlain : List Value → List Plain
  | [] => []
  | v :: rest => toPlain v :: itemsToPlain rest

/-- The plain data of each field, a pair. -/
def fieldsToPlain : List (String × Value) → List Plain
  | [] => []
  | (key, v) :: rest => .list [.text key, toPlain v] :: fieldsToPlain rest

end

instance : ToPlain Value := ⟨toPlain⟩

theorem ofPlain_text (s : String) : ofPlain (plain (text s)) = .ok (text s) := rfl

theorem ofPlain_null : ofPlain (plain null) = .ok null := rfl

end Value

namespace Document

/-- The document that plain data stands for; its pairs are inserted one after
another. -/
def ofPlain (p : Plain) : Except PlainFault Document := do
  return ofList (← Value.fieldsOfPlain (← p.toItems))

instance : ToPlain Document := ⟨fun doc => .list (Value.fieldsToPlain doc.fields)⟩

end Document
end Folio
