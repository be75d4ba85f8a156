import Folio.Config
import Folio.Service.Builtin

/-!
# Services

A service saves and deletes the records of a collection behind validation.
Stages of the service stand around those of the caller. What goes wrong is
reported; a caller without a report of its own gets the report as a failure.

Results:
* `finish_ok`: without errors the result of the operation is the answer.
* `finish_some`: a record is the answer only without errors.
-/
namespace Folio

/-- What a save did. -/
inductive Notice where
  | insert
  | update
  deriving DecidableEq, Repr

/-- An operation on the backend and the log. -/
abbrev ContextM (L α : Type) := ExceptT Failure (StateM (Context L)) α

/-- What is told about records that were saved or deleted. -/
structure Listener (E L : Type) where
  onSaved : E → Notice → ContextM L Unit := fun _ _ => pure ()
  onDeleted : E → ContextM L Unit := fun _ => pure ()

/-- A collection behind validation. -/
structure Service (E L : Type) where
  collection : Collection
  /-- The stages of the service; none if it was given none, not even an empty
  list. -/
  general : Option (List (Position × Validation E L)) := none
  listener : Option (Listener E L) := none

/-- What became of an operation: its answer, the record as it is then, what
was reported, and the backend and the log. -/
structure Outcome (E L : Type) where
  result : Except Failure (Option E)
  record : Option E
  report : Report
  context : Context L

namespace Service

variable {E L : Type} [Record E]

/-- The error of a save without a record. -/
def notSet : String := "entity not set"

/-- The error of a save of a record that is not stored. -/
def notFound : String := "entity not found"

/-- The service with further stages of its own. -/
def addGeneral (s : Service E L) (stages : List (Position × Validation E L)) : Service E L :=
  { s with general := some (s.general.getD [] ++ stages) }

/-- The service with the stages for the known capabilities. -/
def addBuiltin (s : Service E L) (config : Config) : Except Failure (Service E L) := do
  let bounds ← NameBounds.of? config.nameLeast config.nameMost
  return s.addGeneral [(.pre, .name bounds), (.pre, .description config.descriptionMost),
    (.pre, .defunct)]

/-- Whether the service has stages of its own. -/
def isAware (s : Service E L) : Bool := s.general.isSome

/-- The stages around those of a caller. -/
def chain (s : Service E L) (stages : List (Validation E L)) : Chain E L :=
  (Chain.general {} (s.general.getD [])).caller stages

/-- The text of a service. -/
def written (s : Service E L) : String :=
  "EntityService \x7b collection: " ++ s.collection.written ++ ", general: " ++
    Config.optional (s.general.map fun g => toString g.length) ++ ", listener: " ++
    toString s.listener.isSome ++ " \x7d"

/-- The filter to begin a pipeline with: only records that are not defunct, if
the class can be. -/
def matchFilter (s : Service E L) (schema : Schema) (filter : Option Filter) : Option Filter :=
  if schema.implements s.collection.cls .defunctable then
    some (match filter with
      | some f => .both [Collection.live, f]
      | none => Collection.live)
  else filter

/-- Tells the listener, if there is one. -/
def notify (s : Service E L) (tell : Listener E L → ContextM L Unit) : SubjectM E L Unit :=
  match s.listener with
  | none => pure ()
  | some listener => .mk fun subject =>
    let (result, context) := (tell listener).run subject.context
    (result, { subject with context := context })

/-- The answer of an operation. A failure is an error of the operation. With
errors there is no result; without a report of the caller's they are the
failure. -/
def finish (hasSink : Bool) (result : Except Failure (Option E)) (report : Report) :
    Except Failure (Option E) × Report :=
  let (result, report) :=
    match result with
    | .ok e => (e, report)
    | .error failure => (none, report.addAction failure.message)
  if report.hasErrors then (if hasSink then .ok none else .error (.rejected report), report)
  else (.ok result, report)

omit [Record E] in
theorem finish_ok {report : Report} (h : report.hasErrors = false) (hasSink : Bool)
    (e : Option E) : finish hasSink (.ok e) report = (.ok e, report) := by
  simp [finish, h]

omit [Record E] in
/-- A record is the answer only if it is the result and there are no errors. -/
theorem finish_some {hasSink : Bool} {result : Except Failure (Option E)} {report : Report} {e : E} :
    (finish hasSink result report).1 = .ok (some e) ↔
      result = .ok (some e) ∧ report.hasErrors = false := by
  cases result with
  | error failure =>
    refine ⟨fun h => ?_, fun h => by cases h.1⟩
    simp only [finish, Report.hasErrors_addAction, if_true] at h
    cases hasSink <;> cases h
  | ok found =>
    cases he : report.hasErrors with
    | true =>
      refine ⟨fun h => ?_, fun h => by cases h.2⟩
      simp only [finish, he, if_true] at h
      cases hasSink <;> cases h
    | false =>
      rw [finish_ok he]
      exact (and_iff_left rfl).symm

/-- Saves a record that was validated, if nothing is wrong with it and it
differs from its stored version. -/
def saveChanged (s : Service E L) (stored : Option E) (newId : Option ObjectId)
    (ambient : Ambient) : SubjectM E L (Option E) := do
  let subject ← getThe (Subject E L)
  if subject.report.hasErrors then return none
  if stored.any fun e => Record.same e subject.record then return none
  match ← Subject.held (s.collection.save newId ambient) with
  | none =>
    Subject.addAction notFound
    return none
  | some saved =>
    s.notify fun l => l.onSaved saved (if stored.isNone then .insert else .update)
    return some saved

/-- Validates the record and saves it. A record with an identity is validated
beside its stored version, which there must be. -/
def checkAndSave (s : Service E L) (newId : Option ObjectId) (stages : List (Validation E L))
    (ambient : Ambient) : SubjectM E L (Option E) := do
  match Record.id? (← getThe (Subject E L)).record with
  | none =>
    (s.chain stages).validate none
    s.saveChanged none newId ambient
  | some id =>
    match ← Subject.behind (s.collection.unscoped.findById (some id)) with
    | none =>
      Subject.addAction notFound
      return none
    | some stored =>
      (s.chain stages).validate (some stored)
      s.saveChanged (some stored) newId ambient

/-- Validates a record and saves it. -/
def validateAndSave (s : Service E L) (record : Option E) (newId : Option ObjectId)
    (sink : Option Report) (stages : List (Validation E L)) (ambient : Ambient)
    (context : Context L) : Outcome E L :=
  let report := sink.getD {}
  match record with
  | none =>
    let (result, report) := finish sink.isSome (.ok none) (report.addAction notSet)
    ⟨result, none, report, context⟩
  | some e =>
    let (result, subject) := (s.checkAndSave newId stages ambient).run ⟨e, report, context⟩
    let (result, report) := finish sink.isSome result subject.report
    ⟨result, some subject.record, report, subject.context⟩

/-- An operation on the backend within a context. -/
def behind {α : Type} (m : BackendM α) : ContextM L α := .mk fun c =>
  let (result, backend) := m.run c.backend
  (result, { c with backend := backend })

/-- Deletes the record with the id. -/
def delete (s : Service E L) (id : Option ObjectId) : ContextM L (Option E) := do
  let deleted ← behind (s.collection.deleteById id)
  match s.listener, deleted with
  | some listener, some e => listener.onDeleted e
  | _, _ => pure ()
  return deleted

/-- Validates what has the id, if the caller has stages, and deletes it. The
answer is the result and the report. -/
def checkAndDelete (s : Service E L) (id : Option ObjectId) (report : Report)
    (stages : List (Validation E L)) (context : Context L) :
    Except Failure (Option E) × Report × Context L :=
  if stages.isEmpty then
    let (result, context) := (s.delete id).run context
    (result, report, context)
  else
    match (behind (s.collection.findById id)).run context with
    | (.error failure, context) => (.error failure, report, context)
    | (.ok none, context) => (.ok none, report, context)
    | (.ok (some e), context) =>
      let (result, subject) := ((s.chain stages).validate none).run ⟨e, report, context⟩
      match result with
      | .error failure => (.error failure, subject.report, subject.context)
      | .ok () =>
        if subject.report.hasErrors then (.ok none, subject.report, subject.context)
        else
          let (result, context) := (s.delete id).run subject.context
          (result, subject.report, context)

/-- Validates the record with the id and deletes it. -/
def validateAndDelete (s : Service E L) (id : Option ObjectId) (sink : Option Report)
    (stages : List (Validation E L)) (context : Context L) : Outcome E L :=
  let (result, report, context) := s.checkAndDelete id (sink.getD {}) stages context
  let (result, report) := finish sink.isSome result report
  ⟨result, none, report, context⟩

end Service
end Folio
