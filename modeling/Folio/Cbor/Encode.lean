import Folio.Cbor.Head
import Folio.Value.Canonical

/-!
# Values as bytes

A value has one byte form. Maps list their keys in canonical order, integers
and lengths take the shortest head, and a double always takes eight bytes. A
NaN has no byte form: writing stops where one stands, and what was written
before it remains.

Results:
* `encode_eq_ok_iff`: encoding succeeds with the bytes written, unless a NaN
  stopped the writing.
-/
namespace Folio.Cbor

/-- What writing leaves: the bytes, and whether a NaN stopped it. -/
structure Output where
  bytes : Bytes
  stopped : Bool
  deriving DecidableEq, Repr

namespace Output

/-- Nothing written. -/
def nil : Output := ⟨[], false⟩

/-- These bytes written. -/
def put (bytes : Bytes) : Output := ⟨bytes, false⟩

/-- First the one, then the other unless the first was stopped. -/
def andThen (first second : Output) : Output :=
  if first.stopped then first else ⟨first.bytes ++ second.bytes, second.stopped⟩

end Output

/-- An integer. A negative one has `-1 - n` as its argument. -/
def integer (n : Int) : Bytes :=
  if 0 ≤ n then head .unsigned n.toNat else head .negative (-1 - n).toNat

/-- A string of bytes under its head. -/
def string (kind : Kind) (payload : Bytes) : Bytes := head kind payload.length ++ payload

/-- A name or a text. -/
def text (s : String) : Bytes := string .text (Bytes.ofText s)

mutual

/-- Writes a value whose fields stand in the order to write them in. -/
def write : Value → Output
  | .null => .put [initial .simple 22]
  | .bool false => .put [initial .simple 20]
  | .bool true => .put [initial .simple 21]
  | .integer n => .put (integer n.toInt)
  | .double d => if d.isNaN then ⟨[], true⟩ else .put (initial .simple 27 :: Bytes.ofNat 8 d.toBits)
  | .text s => .put (text s)
  | .bytes b => .put (string .bytes b)
  | .objectId id => .put (head .tag objectIdTag ++ string .bytes id.bytes)
  | .dateTime t => .put (head .tag dateTimeTag ++ integer t.millis.toInt)
  | .array items => (Output.put (head .array items.length)).andThen (writeItems items)
  | .document ⟨fields⟩ => (Output.put (head .map fields.length)).andThen (writeFields fields)

/-- Writes elements one after another. -/
def writeItems : List Value → Output
  | [] => .nil
  | v :: rest => (write v).andThen (writeItems rest)

/-- Writes fields one after another, each name before its value. -/
def writeFields : List (String × Value) → Output
  | [] => .nil
  | (k, v) :: rest => ((Output.put (text k)).andThen (write v)).andThen (writeFields rest)

end

/-- What writing the canonical form leaves. -/
def emit (v : Value) : Output := write v.canonical

/-- The bytes of a value. -/
def encode (v : Value) : Except DataFault Bytes :=
  let out := emit v
  if out.stopped then .error .nanForbidden else .ok out.bytes

/-- The bytes of a document, a map. -/
def encodeDocument (doc : Document) : Except DataFault Bytes := encode (.document doc)

theorem encode_eq_ok_iff {v : Value} {b : Bytes} :
    encode v = .ok b ↔ emit v = ⟨b, false⟩ := by
  rw [encode]
  rcases emit v with ⟨bytes, stopped⟩
  cases stopped <;> simp

end Folio.Cbor
