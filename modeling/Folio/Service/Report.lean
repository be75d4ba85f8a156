import Folio.Keyed

/-!
# Reports of validation

A report collects what is wrong with a record: errors of the operation as a
whole, and errors of single properties by name.

Results:
* `hasErrors_addAction`: an error that is added shows.
-/
namespace Folio

/-- The errors that were found. -/
structure Report where
  actions : List String := []
  /-- The errors of properties, sorted by the property's name. -/
  fields : List (String × List String) := []
  deriving DecidableEq, Repr

namespace Report

/-- The report with an error of the operation. -/
def addAction (r : Report) (message : String) : Report :=
  { r with actions := r.actions ++ [message] }

/-- The errors of one property. -/
def field (r : Report) (name : String) : List String := (Keyed.get? name r.fields).getD []

/-- The report with an error of a property. -/
def addField (r : Report) (name message : String) : Report :=
  { r with fields := Keyed.insert name (r.field name ++ [message]) r.fields }

/-- Whether there is an error of the operation. -/
def hasActions (r : Report) : Bool := !r.actions.isEmpty

/-- Whether there is an error of a property. -/
def hasFields (r : Report) : Bool := !r.fields.isEmpty

/-- Whether there is any error. -/
def hasErrors (r : Report) : Bool := r.hasActions || r.hasFields

/-- Both reports, the errors of the second behind those of the first. -/
def merge (a b : Report) : Report :=
  { actions := a.actions ++ b.actions
    fields := b.fields.foldl (fun fs f => Keyed.insert f.1 ((Keyed.get? f.1 fs).getD [] ++ f.2) fs)
      a.fields }

/-- The text of a report. -/
def display (r : Report) : String :=
  String.intercalate "; "
    (r.actions ++ r.fields.flatMap fun (name, messages) => messages.map fun m => name ++ ": " ++ m)

theorem hasErrors_addAction (r : Report) (message : String) :
    (r.addAction message).hasErrors = true := by
  simp [hasErrors, hasActions, addAction]

end Report
end Folio
