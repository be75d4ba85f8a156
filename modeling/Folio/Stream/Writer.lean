import Folio.Value.Document

/-!
# Writing a document call by call

A writer builds one document from a sequence of calls: start, name, value,
end. Inside a document each value follows its name; inside an array values
follow each other. A call that the state does not allow is a fault, and the
state after it is the one that the call left.

Results:
* `isFinished_start`: a new writer is not finished.
-/
namespace Folio

/-- A container that was started and not yet ended. -/
inductive Writer.Frame where
  | document (doc : Document) (pending : Option String)
  | array (items : List Value)

/-- The containers that are open, the innermost first, and the document that
was completed. -/
structure Writer where
  stack : List Writer.Frame
  root : Option Document

namespace Writer

/-- A writer before any call. -/
def start : Writer := ⟨[], none⟩

/-- A call on a writer. -/
abbrev Call := ExceptT DataFault (StateM Writer) Unit

/-- A call that is not allowed. -/
def refuse (fault : StreamFault) : Call := throw (.badState fault)

/-- Puts a value in the place it belongs to: under the pending name, behind
the last element, or as the one document of the writer. -/
def put (value : Value) : Call := do
  let w ← get
  match w.stack with
  | .document doc (some name) :: below =>
    set { w with stack := .document (doc.insert name value) none :: below }
  | .document _ none :: _ => refuse .valueWithoutName
  | .array items :: below => set { w with stack := .array (items ++ [value]) :: below }
  | [] =>
    match value, w.root with
    | .document doc, none => set { w with root := some doc }
    | _, _ => refuse .topLevelNotSingle

/-- Refuses unless a container may be started here. -/
def checkPlace : Call := do
  let w ← get
  match w.stack with
  | [] => if w.root.isSome then refuse .alreadyWritten
  | .document _ none :: _ => refuse .valueWithoutName
  | .document _ (some _) :: _ | .array _ :: _ => pure ()

/-- Opens a document, at the top or as the next value. -/
def startDocument : Call := do
  checkPlace
  modify fun w => { w with stack := .document .empty none :: w.stack }

/-- Closes the innermost document. A name that still waits for its value is
lost together with the document. -/
def endDocument : Call := do
  let w ← get
  match w.stack with
  | .document doc none :: below =>
    set { w with stack := below }
    put (.document doc)
  | .document _ (some name) :: below =>
    set { w with stack := below }
    refuse (.fieldWithoutValue name)
  | .array _ :: _ => refuse .endDocumentInArray
  | [] => refuse .noOpenDocument

/-- Opens an array as the next value. -/
def startArray : Call := do
  if (← get).stack.isEmpty then refuse .topLevelNotDocument
  checkPlace
  modify fun w => { w with stack := .array [] :: w.stack }

/-- Closes the innermost array. -/
def endArray : Call := do
  let w ← get
  match w.stack with
  | .array items :: below =>
    set { w with stack := below }
    put (.array items)
  | .document _ _ :: _ => refuse .endArrayInDocument
  | [] => refuse .noOpenArray

/-- Names the next field. -/
def name (key : String) : Call := do
  let w ← get
  match w.stack with
  | .document doc none :: below => set { w with stack := .document doc (some key) :: below }
  | .document _ (some _) :: _ => refuse (.nameTwice key)
  | .array _ :: _ => refuse .nameInArray
  | [] => refuse .noOpenDocument

/-- Writes a double; a NaN is refused before the place is looked at. -/
def double (d : Number.Double) : Call := do
  if d.isNaN then throw .nanForbidden
  put (.double d)

/-- Whether the document is complete. -/
def isFinished (w : Writer) : Bool := w.stack.isEmpty && w.root.isSome

/-- The finished document. -/
def document (w : Writer) : Except DataFault Document :=
  if w.stack.isEmpty then
    match w.root with
    | some doc => .ok doc
    | none => .error (.badState .nothingWritten)
  else .error (.badState .notClosed)

theorem isFinished_start : start.isFinished = false := rfl

end Writer
end Folio
