import Folio.Store.Fault
import Folio.Store.Filter

/-!
# Updates

An update is a list of changes to the fields of a document, made in order. The
id never changes. A change that cannot be made stops the update; the document
then has the changes before it.

Results:
* `id_run`: an update leaves the id as it was, also one that is stopped.
-/
namespace Folio

/-- One change to a field. -/
inductive Change where
  | set (field : String) (value : Value)
  | unset (field : String)
  | inc (field : String) (amount : Value)

/-- Changes in the order to make them in. -/
abbrev Update := List Change

namespace Change

/-- The field that is changed. -/
def field : Change → String
  | set field _ | unset field | inc field _ => field

/-- The sum of two numbers: exact for integers, and rounded if one is a double. -/
def sum (field : String) (current amount : Value) : Except UpdateFault Value :=
  match current, amount with
  | .integer a, .integer b =>
    let n := a.toInt + b.toInt
    if Int64.minValue.toInt ≤ n ∧ n ≤ Int64.maxValue.toInt then .ok (.integer (Int64.ofInt n))
    else .error (.overflow field)
  | current, amount =>
    match current.widen?, amount.widen? with
    | some a, some b => .ok (.double (a + b))
    | _, _ => .error (.notNumeric field)

/-- Makes one change. An absent field counts from zero. -/
def apply (doc : Document) (change : Change) : Except UpdateFault Document :=
  if change.field = idField then .error (.immutable idField)
  else
    match change with
    | set field value => .ok (doc.insert field value)
    | unset field => .ok (doc.erase field)
    | inc field amount => do
      let next ← sum field ((doc.get? field).getD (.integer 0)) amount
      return doc.insert field next

end Change

namespace Update

/-- Makes the changes: the document after them, and the fault that stopped
them. -/
def run : Update → Document → Document × Option UpdateFault
  | [], doc => (doc, none)
  | change :: rest, doc =>
    match change.apply doc with
    | .ok next => run rest next
    | .error fault => (doc, some fault)

/-- The document after all changes. -/
def apply (update : Update) (doc : Document) : Except UpdateFault Document :=
  match update.run doc with
  | (next, none) => .ok next
  | (_, some fault) => .error fault

end Update

namespace Document

theorem lookup_drop {key k : String} (h : k ≠ key) (fields : List (String × Value)) :
    lookup k (drop key fields) = lookup k fields := by
  induction fields with
  | nil => rfl
  | cons f rest ih => obtain ⟨l, w⟩ := f; grind [drop, lookup]

theorem get?_erase {doc : Document} {key k : String} (h : k ≠ key) :
    (doc.erase key).get? k = doc.get? k :=
  lookup_drop h doc.fields

end Document

theorem Change.id_apply {change : Change} {doc next : Document} (h : change.apply doc = .ok next) :
    next.get? idField = doc.get? idField := by
  unfold Change.apply at h
  split at h
  · simp at h
  · rename_i hf
    cases change with
    | set field value =>
      simp only [Except.ok.injEq] at h; subst h
      exact (Document.get?_insert ..).trans (if_neg (Ne.symm hf))
    | unset field =>
      simp only [Except.ok.injEq] at h; subst h
      exact Document.get?_erase (Ne.symm hf)
    | inc field amount =>
      simp only [bind, Except.bind] at h
      split at h
      · simp at h
      · simp only [pure, Except.pure, Except.ok.injEq] at h; subst h
        exact (Document.get?_insert ..).trans (if_neg (Ne.symm hf))

theorem Update.id_run (update : Update) (doc : Document) :
    (update.run doc).1.get? idField = doc.get? idField := by
  induction update generalizing doc with
  | nil => rfl
  | cons change rest ih =>
    unfold run
    split
    · next next h => rw [ih, change.id_apply h]
    · rfl

end Folio
