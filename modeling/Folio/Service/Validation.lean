import Folio.Collection.Save

/-!
# Validation

A stage looks at a record that is about to be saved or deleted and reports
what is wrong with it. A stage may also change the record, work on the store,
or fail; a failure ends the validation. Stages for one capability only look at
records of classes that have it.

Results:
* `order_at_first`: a stage put first comes before all others.
-/
namespace Folio

/-- What an operation works on besides its record: the backend, and a log that
stages and listeners may keep. -/
structure Context (L : Type) where
  backend : Backend
  log : L

/-- What a stage works on. -/
structure Subject (E L : Type) where
  record : E
  report : Report
  context : Context L

/-- An operation on a record under validation. -/
abbrev SubjectM (E L α : Type) := ExceptT Failure (StateM (Subject E L)) α

namespace Subject

variable {E L : Type} [Record E]

/-- An operation on the record and the backend. -/
def held {α : Type} (m : HeldM E α) : SubjectM E L α := .mk fun s =>
  let (result, h) := m.run ⟨s.record, s.context.backend⟩
  (result, { s with record := h.record, context := { s.context with backend := h.backend } })

/-- An operation on the backend. -/
def behind {α : Type} (m : BackendM α) : SubjectM E L α := held (Held.behind m)

/-- Reports an error of the operation. -/
def addAction (message : String) : SubjectM E L Unit :=
  modify fun s => { s with report := s.report.addAction message }

/-- Reports an error of a property. -/
def addField (name message : String) : SubjectM E L Unit :=
  modify fun s => { s with report := s.report.addField name message }

end Subject

/-- A stage of validation. -/
structure Validation (E L : Type) where
  /-- The capability that a class needs for the stage to look at its records. -/
  capability : Option Capability := none
  /-- Looks at the record, beside its stored version if there is one. -/
  check : (stored : Option E) → SubjectM E L Unit

/-- Where a stage of a service stands among those of a caller. -/
inductive Position where
  | first
  | pre
  | post
  | last
  deriving DecidableEq, Repr

namespace Position

/-- The text of a position. -/
def written : Position → String
  | first => "First"
  | pre => "Pre"
  | post => "Post"
  | last => "Last"

end Position

/-- Stages by where they stand. -/
structure Chain (E L : Type) where
  first : List (Validation E L) := []
  pre : List (Validation E L) := []
  stages : List (Validation E L) := []
  post : List (Validation E L) := []
  last : List (Validation E L) := []

namespace Chain

variable {E L : Type}

/-- The chain with a stage at the end of its position. -/
def place (chain : Chain E L) (position : Position) (v : Validation E L) : Chain E L :=
  match position with
  | .first => { chain with first := chain.first ++ [v] }
  | .pre => { chain with pre := chain.pre ++ [v] }
  | .post => { chain with post := chain.post ++ [v] }
  | .last => { chain with last := chain.last ++ [v] }

/-- The chain with the stages of a service. -/
def general (chain : Chain E L) (stages : List (Position × Validation E L)) : Chain E L :=
  stages.foldl (fun chain s => chain.place s.1 s.2) chain

/-- The chain with the stages of a caller. -/
def caller (chain : Chain E L) (stages : List (Validation E L)) : Chain E L :=
  { chain with stages := chain.stages ++ stages }

/-- The stages in the order they run. -/
def order (chain : Chain E L) : List (Validation E L) :=
  chain.first ++ chain.pre ++ chain.stages ++ chain.post ++ chain.last

/-- The number of stages. -/
def size (chain : Chain E L) : Nat := chain.order.length

theorem order_at_first (chain : Chain E L) (v : Validation E L) (h : chain.first = []) :
    (chain.place .first v).order = v :: chain.order := by
  simp [place, order, h]

variable [Record E]

/-- Whether a stage looks at records of the class. -/
def applies (s : Schema) (c : ClassRef) (v : Validation E L) : Bool :=
  match v.capability with
  | some capability => s.implements c capability
  | none => true

/-- Runs stages in order, up to the first failure, those that look at records of the
class. -/
def runStages (s : Schema) (c : ClassRef) (stored : Option E) :
    List (Validation E L) → SubjectM E L Unit
  | [] => pure ()
  | v :: rest => do
    if applies s c v then v.check stored
    runStages s c stored rest

/-- Runs the stages that look at records of the record's class. What the class is
capable of is settled before the first of them. -/
def validate (chain : Chain E L) (stored : Option E) : SubjectM E L Unit := do
  let subject ← getThe (Subject E L)
  runStages subject.context.backend.registry.catalog.schema (Record.cls subject.record) stored
    chain.order

end Chain
end Folio
