import Folio.Value.Document

/-!
# Reading a document call by call

A reader goes through one document in a sequence of calls that match those of
a writer. Inside a document each value is read after its name; inside an array
values are read one after another. Leaving a container skips what was not read
of it. A typed read takes the value even when its type is not the one asked
for.

Results:
* `take_current`: a value that is due is the next one taken.
-/
namespace Folio

/-- The rest of a container that was entered. -/
inductive Reader.Frame where
  | document (fields : List (String × Value))
  | array (items : List Value)

/-- The containers that were entered, the innermost first, and the value that
is due. -/
structure Reader where
  stack : List Reader.Frame
  current : Option Value

namespace Reader

/-- A reader before the document. -/
def ofDocument (doc : Document) : Reader := ⟨[], some (.document doc)⟩

/-- A reader before a single value. -/
def ofValue (v : Value) : Reader := ⟨[], some v⟩

/-- A call on a reader. -/
abbrev Call (α : Type) := ExceptT DataFault (StateM Reader) α

/-- A call that is not allowed. -/
def refuse {α : Type} (fault : StreamFault) : Call α := throw (.badState fault)

/-- A value of another type than the one asked for. -/
def mismatch {α : Type} (expected : String) (actual : Value) : Call α :=
  throw (.unexpectedType expected actual.typeName)

/-- The next value, whatever its type. -/
def take : Call Value := do
  let r ← get
  match r.current with
  | some v => set { r with current := none }; return v
  | none =>
    match r.stack with
    | .array (v :: rest) :: below => set { r with stack := .array rest :: below }; return v
    | .array [] :: _ => refuse .noMoreElements
    | .document _ :: _ => refuse .nameNotRead
    | [] => refuse .alreadyConsumed

/-- Passes over the next value. -/
def skip : Call Unit := do let _ ← take

/-- The next value as the type that `view` looks for. -/
def typed {α : Type} (expected : String) (view : Value → Option α) : Call α := do
  let v ← take
  match view v with
  | some a => return a
  | none => mismatch expected v

/-- Enters the next value, a document. -/
def startDocument : Call Unit := do
  let doc ← typed "document" Value.document?
  modify fun r => { r with stack := .document doc.fields :: r.stack }

/-- Leaves the innermost document, which drops a value that is due. -/
def endDocument : Call Unit := do
  match (← get).stack with
  | .document _ :: below => set (⟨below, none⟩ : Reader)
  | .array _ :: _ => refuse .endDocumentInArray
  | [] => refuse .noOpenDocument

/-- Enters the next value, an array. -/
def startArray : Call Unit := do
  let items ← typed "array" Value.array?
  modify fun r => { r with stack := .array items :: r.stack }

/-- Leaves the innermost array. -/
def endArray : Call Unit := do
  let r ← get
  match r.stack with
  | .array _ :: below => set { r with stack := below }
  | .document _ :: _ => refuse .endArrayInDocument
  | [] => refuse .noOpenArray

/-- The number of entries not yet read of the innermost container. -/
def left (r : Reader) : Nat :=
  match r.stack with
  | .document fields :: _ => fields.length
  | .array items :: _ => items.length
  | [] => 0

/-- Whether the innermost container has entries not yet read. -/
def hasNext (r : Reader) : Bool := 0 < r.left

/-- Goes on to the next field and answers its name. -/
def name : Call String := do
  let r ← get
  if r.current.isSome then refuse .previousValueUnread
  match r.stack with
  | .document ((key, v) :: rest) :: below =>
    set (⟨.document rest :: below, some v⟩ : Reader)
    return key
  | .document [] :: _ => refuse .noMoreFields
  | .array _ :: _ => refuse .noNamesInArray
  | [] => refuse .noOpenDocument

/-- The value that is read next, if its place is known. -/
def peek? (r : Reader) : Option Value :=
  match r.current, r.stack with
  | some v, _ => some v
  | none, .array (v :: _) :: _ => some v
  | none, _ => none

/-- The type of the value that is read next. -/
def peekType? (r : Reader) : Option String := r.peek?.map Value.typeName

/-- Reads a null. -/
def null : Call Unit := typed "null" fun v => if v.isNull then some () else none

/-- Reads a flag. -/
def bool : Call Bool := typed "bool" Value.bool?

/-- Reads an integer of 64 bits. -/
def int64 : Call Int64 := typed "integer" Value.integer?

/-- Reads an integer of 32 bits. -/
def int32 : Call Int32 := do
  let n ← int64
  if Int32.minValue.toInt ≤ n.toInt ∧ n.toInt ≤ Int32.maxValue.toInt then return n.toInt32
  throw .integerOverflow

/-- Reads a double; an integer is widened. -/
def double : Call Number.Double := typed "double" Value.widen?

/-- Reads a text. -/
def text : Call String := typed "text" Value.text?

/-- Reads a byte string. -/
def bytes : Call Bytes := typed "bytes" Value.bytes?

/-- Reads an id. -/
def objectId : Call ObjectId := typed "objectId" Value.objectId?

/-- Reads a timestamp. -/
def dateTime : Call DateTime := typed "dateTime" Value.dateTime?

/-- Reads a whole document. -/
def document : Call Document := typed "document" Value.document?

/-- How deep the values that are left to read are nested. -/
def depth (r : Reader) : Nat :=
  let frame : Frame → Nat
    | .document fields => Value.depthFields fields
    | .array items => Value.depthItems items
  max ((r.current.map Value.depth).getD 0) (r.stack.foldl (fun d f => max d (frame f)) 0)

theorem take_current (stack : List Frame) (v : Value) :
    (take.run).run ⟨stack, some v⟩ = (.ok v, ⟨stack, none⟩) := rfl

end Reader
end Folio
