import Folio.Service.Pipeline

/-!
# A journal of what a service did

A journal lists what stages saw and what listeners were told, in order. This
module also has stages that do one plain thing each: report an error, fail,
note a property in the journal, set a property, delete the stored record.

Results:
* `note_log`: a note goes to the end of the journal and touches no data.
* `check_scoped`: limiting a stage to a capability does not change what it does.
-/
namespace Folio

/-- An entry of a journal about records of the kind `E`. -/
inductive JournalEntry (E : Type) where
  /-- What a stage saw: a property of the record and of its stored version,
  and which kinds of error there were by then. -/
  | seen (value : Option FieldValue) (stored : Option (Option FieldValue))
      (hasActions hasFields : Bool)
  | saved (record : E) (notice : Notice)
  | deleted (record : E)

/-- The entries of a journal, in order. -/
abbrev Journal (E : Type) := List (JournalEntry E)

namespace Journal

variable {E : Type}

/-- Puts an entry at the end of the journal. -/
def note (entry : JournalEntry E) : ContextM (Journal E) Unit :=
  modify fun c => { c with log := c.log ++ [entry] }

theorem note_log (entry : JournalEntry E) (c : Context (Journal E)) :
    ((note entry).run.run c).2 = ⟨c.backend, c.log ++ [entry]⟩ := rfl

/-- A listener that keeps the journal. -/
def keeper : Listener E (Journal E) where
  onSaved e notice := note (.saved e notice)
  onDeleted e := note (.deleted e)

/-- A listener that keeps the journal and then fails. -/
def failing (reason : String) : Listener E (Journal E) where
  onSaved e notice := do
    note (.saved e notice)
    throw (.illegal (.because reason))
  onDeleted e := do
    note (.deleted e)
    throw (.illegal (.because reason))

/-- A listener that does nothing. -/
def silent : Listener E (Journal E) := {}

end Journal

namespace Validation

variable {E L : Type} [Record E]

/-- Reports an error of the operation. -/
def rejects (message : String) : Validation E L where
  check _ := Subject.addAction message

/-- Reports an error of a property. -/
def rejectsField (name message : String) : Validation E L where
  check _ := Subject.addField name message

/-- Fails. -/
def fails (reason : String) : Validation E L where
  check _ := throw (.illegal (.because reason))

/-- Sets or unsets a property of the record. A record that cannot be changed
stays as it is. -/
def assigns (name : String) (value : Option FieldValue) : Validation E L where
  check _ :=
    if (Record.modify? (E := E)).isSome then Subject.held (Held.modify name value) else pure ()

/-- Deletes what a collection stores under the record's identity, whatever its
scope. -/
def removes (c : Collection) : Validation E L where
  check _ := do
    let id := Record.id? (← getThe (Subject E L)).record
    let _ : Option E ← Subject.behind (c.unscoped.deleteById id)

/-- Notes a property in the journal. -/
def watches (name : String) : Validation E (Journal E) where
  check stored := modify fun s =>
    { s with
      context.log := s.context.log ++
        [.seen (Record.property s.record name) (stored.map (Record.property · name))
          s.report.hasActions s.report.hasFields] }

omit [Record E] in
/-- The stage, limited to records of classes that have the capability. -/
def scopedTo (capability : Capability) (v : Validation E L) : Validation E L :=
  { v with capability := some capability }

omit [Record E] in
theorem check_scoped (capability : Capability) (v : Validation E L) :
    (v.scopedTo capability).check = v.check := rfl

end Validation
end Folio
