import Folio.Bytes
import Folio.Fault

/-!
# Object ids and timestamps

An object id is twelve bytes. The first four spell its creation time in
seconds, so an id also dates the record that it names.

Results:
* `ofBytes?_bytes`: the bytes of an id give the id back.
-/
namespace Folio

/-- A point in time, in milliseconds since the epoch. -/
structure DateTime where
  millis : Int64
  deriving DecidableEq, Repr

namespace DateTime

instance : Inhabited DateTime := ⟨⟨0⟩⟩

/-- The order of two points in time. -/
def cmp (a b : DateTime) : Ordering := compare a.millis.toInt b.millis.toInt

/-- The sum, if it fits. -/
def addMillis? (t : DateTime) (millis : Int64) : Option DateTime :=
  let sum := t.millis.toInt + millis.toInt
  if Int64.minValue.toInt ≤ sum ∧ sum ≤ Int64.maxValue.toInt then some ⟨Int64.ofInt sum⟩
  else none

/-- The text of a timestamp: its milliseconds and their unit. -/
def display (t : DateTime) : String := s!"{t.millis.toInt}ms"

end DateTime

/-- A document identifier of twelve bytes. -/
structure ObjectId where
  bytes : Bytes
  length_bytes : bytes.length = 12
  deriving DecidableEq

namespace ObjectId

/-- The twelve bytes as an id. -/
def ofBytes? (bytes : Bytes) : Except DataFault ObjectId :=
  if h : bytes.length = 12 then .ok ⟨bytes, h⟩
  else .error (.badObjectId (.byteCount bytes.length))

theorem ofBytes?_bytes (id : ObjectId) : ofBytes? id.bytes = .ok id := by
  simp [ofBytes?, id.length_bytes]

instance : Inhabited ObjectId := ⟨⟨List.replicate 12 0, rfl⟩⟩

/-- The lowercase hexadecimal text. -/
def toHex (id : ObjectId) : String := id.bytes.toHex

/-- The order of the bytes. -/
def cmp (a b : ObjectId) : Ordering := compare a.bytes b.bytes

/-- The creation time, a whole second. -/
def timestamp (id : ObjectId) : DateTime :=
  ⟨Int64.ofNat (Bytes.toNat (id.bytes.take 4) * 1000)⟩

/-- The id created at `seconds` with the given distinguishing number. -/
def ofParts (seconds distinct : Nat) : ObjectId :=
  ⟨Bytes.ofNat 4 seconds ++ Bytes.ofNat 8 distinct, by simp⟩

/-- What reading an id from a text comes to. -/
inductive Reading where
  | id (id : ObjectId)
  | refused (fault : DataFault)
  /-- No answer at all: the text is cut inside one of its characters. -/
  | aborted
  deriving DecidableEq

/-- Whether the byte continues a UTF-8 character that began before it. -/
def isContinuation (b : UInt8) : Bool := 128 ≤ b ∧ b < 192

/-- The value of two digit bytes; a plus sign may stand for the first digit. -/
def pairValue? (a b : UInt8) : Option Nat :=
  if a = 43 then Bytes.hexValue? b
  else do return 16 * (← Bytes.hexValue? a) + (← Bytes.hexValue? b)

/-- Reads two digits per byte, from the left. The text is cut after each pair,
which must not divide a character. -/
def readPairs : Bytes → Except (Option DataFault) Bytes
  | a :: b :: rest =>
    if rest.head?.any isContinuation then .error none
    else
      match pairValue? a b with
      | none => .error (some (.badObjectId (.notHex ((Bytes.toText? [a, b]).getD ""))))
      | some n => do return UInt8.ofNat n :: (← readPairs rest)
  | _ => .ok []

/-- Reads an id from its hexadecimal text of 24 bytes. -/
def parse (s : String) : Reading :=
  let bytes := Bytes.ofText s
  if bytes.length ≠ 24 then .refused (.badObjectId (.textLength bytes.length))
  else
    match readPairs bytes with
    | .error none => .aborted
    | .error (some fault) => .refused fault
    | .ok read =>
      match ofBytes? read with
      | .ok id => .id id
      | .error fault => .refused fault

end ObjectId
end Folio
