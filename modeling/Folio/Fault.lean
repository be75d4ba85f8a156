import Folio.Text.Quoted

/-!
# Faults of stored data

Everything that can go wrong while a value is written as bytes, read from
bytes, streamed or identified. A fault is a cause; its wording is in `message`.
-/
namespace Folio

/-- A call on a document writer or reader that its state does not allow. -/
inductive StreamFault where
  | fieldWithoutValue (name : String)
  | endDocumentInArray
  | noOpenDocument
  | topLevelNotDocument
  | endArrayInDocument
  | noOpenArray
  | nameTwice (name : String)
  | nameInArray
  | topLevelNotSingle
  | alreadyWritten
  | valueWithoutName
  | notClosed
  | nothingWritten
  | previousValueUnread
  | noMoreFields
  | noNamesInArray
  | noMoreElements
  | nameNotRead
  | alreadyConsumed
  deriving DecidableEq, Repr

namespace StreamFault

/-- The wording of a fault. -/
def message : StreamFault → String
  | fieldWithoutValue name => s!"field '{name}' has no value"
  | endDocumentInArray => "end of document inside an array"
  | noOpenDocument => "no open document"
  | topLevelNotDocument => "top-level value must be a document"
  | endArrayInDocument => "end of array inside a document"
  | noOpenArray => "no open array"
  | nameTwice name => s!"name '{name}' written twice without a value"
  | nameInArray => "names are not allowed in arrays"
  | topLevelNotSingle => "top-level value must be a single document"
  | alreadyWritten => "top-level document already written"
  | valueWithoutName => "value written without a name"
  | notClosed => "document is not closed"
  | nothingWritten => "nothing was written"
  | previousValueUnread => "previous field value was not read"
  | noMoreFields => "no more fields"
  | noNamesInArray => "names are not present in arrays"
  | noMoreElements => "no more array elements"
  | nameNotRead => "read_name must be called before reading a field value"
  | alreadyConsumed => "document already consumed"

end StreamFault

/-- Bytes that no encoder in canonical form writes. -/
inductive StructureFault where
  | trailing (count : Nat)
  | reserved (info : Nat)
  | notShortest (argument : Nat)
  | keyOutOfOrder (key : String)
  | shortFloat
  | strayBreak
  deriving DecidableEq, Repr

namespace StructureFault

/-- The wording of a fault. -/
def message : StructureFault → String
  | trailing count => s!"{count} bytes left after the value"
  | reserved info => s!"reserved additional information {info}"
  | notShortest argument => s!"argument {argument} not in its shortest form"
  | keyOutOfOrder key => s!"document key {Text.quoted key} out of order"
  | shortFloat => "half and single precision floats are not canonical"
  | strayBreak => "break outside an indefinite item"

end StructureFault

/-- Items that no stored value stands for. -/
inductive UnsupportedItem where
  | nonTextKey
  | simple (info : Nat)
  deriving DecidableEq, Repr

namespace UnsupportedItem

/-- The wording of a fault. -/
def message : UnsupportedItem → String
  | nonTextKey => "non-text document key"
  | simple info => s!"simple value {info}"

end UnsupportedItem

/-- Texts and byte strings that are no object id. -/
inductive ObjectIdFault where
  | byteCount (count : Nat)
  | textLength (count : Nat)
  | notHex (pair : String)
  deriving DecidableEq, Repr

namespace ObjectIdFault

/-- The wording of a fault. -/
def message : ObjectIdFault → String
  | byteCount count => s!"expected 12 bytes, got {count}"
  | textLength count => s!"expected 24 hex characters, got {count}"
  | notHex pair => s!"invalid hex '{pair}'"

end ObjectIdFault

/-- A fault of stored data. -/
inductive DataFault where
  /-- A text that should be one character has another number of them. -/
  | notOneCharacter (count : Nat)
  | nanForbidden
  | indefiniteLength
  | invalidUtf8
  | unexpectedEnd
  | badStructure (fault : StructureFault)
  | unsupported (item : UnsupportedItem)
  | tooLarge (claimed allowed : Nat)
  | integerOverflow
  | badState (fault : StreamFault)
  | unexpectedType (expected actual : String)
  | badObjectId (fault : ObjectIdFault)
  deriving DecidableEq, Repr

namespace DataFault

/-- The wording of a fault. -/
def message : DataFault → String
  | notOneCharacter count =>
    s!"decoding failed: expected a single character, found {count} characters"
  | nanForbidden => "NaN values are forbidden"
  | indefiniteLength => "indefinite-length items are forbidden"
  | invalidUtf8 => "invalid UTF-8 string"
  | unexpectedEnd => "unexpected end of input"
  | badStructure fault => s!"invalid CBOR structure: {fault.message}"
  | unsupported item => s!"unsupported CBOR type: {item.message}"
  | tooLarge claimed allowed => s!"size limit exceeded: claimed {claimed}, max {allowed}"
  | integerOverflow => "integer overflow"
  | badState fault => s!"invalid state: {fault.message}"
  | unexpectedType expected actual => s!"expected {expected}, found {actual}"
  | badObjectId fault => s!"invalid object id: {fault.message}"

end DataFault
end Folio
