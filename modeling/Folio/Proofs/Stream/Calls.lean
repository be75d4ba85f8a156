import Folio.Proofs.Run
import Folio.Stream.Writer

/-!
# The calls of a writer

What a call needs and what it leaves is said once for each kind of call; what
is shown of sequences of calls goes by it.

Results:
* `put_iff`: where a value can be put, and where it is then.
* `call_iff`: what each call needs and what it leaves.
* `runs_append`: calls behind calls.
-/
namespace Folio.Writer

/-- A call with its argument. -/
inductive Step where
  | startDocument
  | endDocument
  | startArray
  | endArray
  | name (key : String)
  | value (v : Value)
  | null
  | bool (b : Bool)
  | int32 (n : Int32)
  | int64 (n : Int64)
  | double (d : Number.Double)
  | text (s : String)
  | bytes (b : Bytes)
  | objectId (id : ObjectId)
  | dateTime (t : DateTime)

namespace Step

/-- The call on the writer. -/
def call : Step → Call
  | startDocument => Writer.startDocument
  | endDocument => Writer.endDocument
  | startArray => Writer.startArray
  | endArray => Writer.endArray
  | name key => Writer.name key
  | value v => put v
  | null => put .null
  | bool b => put (.bool b)
  | int32 n => put (.integer n.toInt64)
  | int64 n => put (.integer n)
  | double d => Writer.double d
  | text s => put (.text s)
  | bytes b => put (.bytes b)
  | objectId id => put (.objectId id)
  | dateTime t => put (.dateTime t)

/-- The value that a call writes by itself. A NaN is none of those that can be
written as a double. -/
def written? : Step → Option Value
  | value v => some v
  | null => some .null
  | bool b => some (.bool b)
  | int32 n => some (.integer n.toInt64)
  | int64 n => some (.integer n)
  | double d => if d.isNaN then none else some (.double d)
  | text s => some (.text s)
  | bytes b => some (.bytes b)
  | objectId id => some (.objectId id)
  | dateTime t => some (.dateTime t)
  | startDocument | endDocument | startArray | endArray | name _ => none

end Step

/-! ## What a call does -/

/-- A value has been put where it was due. -/
inductive Puts (v : Value) : Writer → Writer → Prop
  | field {doc : Document} {key : String} {below : List Frame} {root : Option Document} :
      Puts v ⟨.document doc (some key) :: below, root⟩
        ⟨.document (doc.insert key v) none :: below, root⟩
  | item {items : List Value} {below : List Frame} {root : Option Document} :
      Puts v ⟨.array items :: below, root⟩ ⟨.array (items ++ [v]) :: below, root⟩
  | root {doc : Document} (h : v = .document doc) : Puts v ⟨[], none⟩ ⟨[], some doc⟩

theorem put_iff {v : Value} {w w' : Writer} : (put v).run w = (.ok (), w') ↔ Puts v w w' := by
  constructor
  · intro h
    obtain ⟨stack, root⟩ := w
    rcases stack with _ | ⟨⟨doc, _ | key⟩ | items, below⟩
    · cases root with
      | some doc => cases v <;> cases h
      | none =>
        cases v with
        | document doc => cases h; exact .root rfl
        | _ => cases h
    · cases h
    · cases h
      exact .field
    · cases h
      exact .item
  · rintro (_ | _ | rfl) <;> rfl

/-- A container may be opened. -/
def Awaits (w : Writer) : Prop :=
  match w.stack with
  | [] => w.root = none
  | .document _ none :: _ => False
  | .document _ (some _) :: _ | .array _ :: _ => True

theorem Puts.awaits {v : Value} {w w' : Writer} (h : Puts v w w') : w.Awaits := by
  cases h with
  | field | item => trivial
  | root => rfl

theorem checkPlace_iff {w w' : Writer} :
    checkPlace.run w = (.ok (), w') ↔ w.Awaits ∧ w' = w := by
  obtain ⟨stack, root⟩ := w
  constructor
  · intro h
    rcases stack with _ | ⟨⟨doc, _ | key⟩ | items, below⟩
    · cases root with
      | some doc => cases h
      | none => cases h; exact ⟨rfl, rfl⟩
    · cases h
    · cases h
      exact ⟨trivial, rfl⟩
    · cases h
      exact ⟨trivial, rfl⟩
  · rintro ⟨h, rfl⟩
    rcases stack with _ | ⟨⟨doc, _ | key⟩ | items, below⟩
    · cases (show root = none from h)
      rfl
    · exact h.elim
    · rfl
    · rfl

/-- A call has succeeded. -/
inductive Effect : Step → Writer → Writer → Prop
  | startDocument {w : Writer} (h : w.Awaits) :
      Effect .startDocument w { w with stack := .document .empty none :: w.stack }
  | endDocument {doc : Document} {below : List Frame} {root : Option Document} {w' : Writer}
      (h : Puts (.document doc) ⟨below, root⟩ w') :
      Effect .endDocument ⟨.document doc none :: below, root⟩ w'
  | startArray {w : Writer} (h : w.Awaits) (hs : w.stack ≠ []) :
      Effect .startArray w { w with stack := .array [] :: w.stack }
  | endArray {items : List Value} {below : List Frame} {root : Option Document} {w' : Writer}
      (h : Puts (.array items) ⟨below, root⟩ w') :
      Effect .endArray ⟨.array items :: below, root⟩ w'
  | name {key : String} {doc : Document} {below : List Frame} {root : Option Document} :
      Effect (.name key) ⟨.document doc none :: below, root⟩
        ⟨.document doc (some key) :: below, root⟩
  | value {step : Step} {v : Value} {w w' : Writer} (hs : step.written? = some v)
      (h : Puts v w w') : Effect step w w'

theorem call_of_written {step : Step} {v : Value} (h : step.written? = some v) :
    step.call = put v := by
  cases step with
  | double d =>
    rw [Step.written?] at h
    split at h
    · cases h
    · next hd =>
      cases h
      exact if_neg hd
  | _ => cases h <;> rfl

theorem effect_of_run {step : Step} {w w' : Writer} (h : step.call.run w = (.ok (), w')) :
    Effect step w w' := by
  obtain ⟨stack, root⟩ := w
  cases step with
  | startDocument =>
    obtain ⟨_, t, hc, ht⟩ := ok_of_run_bind h
    obtain ⟨ha, rfl⟩ := checkPlace_iff.1 hc
    cases ht
    exact .startDocument ha
  | endDocument =>
    rcases stack with _ | ⟨⟨doc, _ | key⟩ | items, below⟩
    · cases h
    · exact .endDocument (put_iff.1 h)
    · cases h
    · cases h
  | startArray =>
    rcases stack with _ | ⟨top, below⟩
    · cases h
    · have hs : (top :: below) ≠ [] := List.cons_ne_nil _ _
      obtain ⟨_, t, hc, ht⟩ := ok_of_run_bind (show (checkPlace >>= fun _ =>
        modify fun w => { w with stack := .array [] :: w.stack }).run _ = _ from h)
      obtain ⟨ha, rfl⟩ := checkPlace_iff.1 hc
      cases ht
      exact .startArray ha hs
  | endArray =>
    rcases stack with _ | ⟨⟨doc, pending⟩ | items, below⟩
    · cases h
    · cases h
    · exact .endArray (put_iff.1 h)
  | name key =>
    rcases stack with _ | ⟨⟨doc, _ | other⟩ | items, below⟩
    · cases h
    · cases h
      exact .name
    · cases h
    · cases h
  | double d =>
    by_cases hd : d.isNaN = true
    · rw [Step.call, double, if_pos hd] at h
      cases h
    · rw [Step.call, double, if_neg hd] at h
      exact .value (if_neg hd) (put_iff.1 h)
  | _ => exact .value rfl (put_iff.1 h)

theorem run_of_effect {step : Step} {w w' : Writer} (h : Effect step w w') :
    step.call.run w = (.ok (), w') := by
  cases h with
  | startDocument ha => exact run_bind_ok (checkPlace_iff.2 ⟨ha, rfl⟩)
  | endDocument h => exact put_iff.2 h
  | startArray ha hs =>
    obtain ⟨stack, root⟩ := w
    rcases stack with _ | ⟨top, below⟩
    · exact absurd rfl hs
    · exact run_bind_ok (checkPlace_iff.2 ⟨ha, rfl⟩)
  | endArray h => exact put_iff.2 h
  | name => rfl
  | value hs h =>
    rw [call_of_written hs]
    exact put_iff.2 h

theorem call_iff {step : Step} {w w' : Writer} :
    step.call.run w = (.ok (), w') ↔ Effect step w w' :=
  ⟨effect_of_run, run_of_effect⟩

/-! ## Calls one after another -/

/-- The calls are all allowed, and leave the second state. -/
def Runs (steps : List Step) (w w' : Writer) : Prop :=
  (steps.forM Step.call).run w = (.ok (), w')

theorem Runs.nil (w : Writer) : Runs [] w w := rfl

theorem runs_cons {step : Step} {steps : List Step} {w w' : Writer} :
    Runs (step :: steps) w w' ↔ ∃ m, Effect step w m ∧ Runs steps m w' := by
  constructor
  · intro h
    obtain ⟨_, m, hs, hr⟩ := ok_of_run_bind h
    exact ⟨m, call_iff.1 hs, hr⟩
  · rintro ⟨m, hs, hr⟩
    exact (run_bind_ok (call_iff.2 hs)).trans hr

theorem runs_append {first second : List Step} {w w' : Writer} :
    Runs (first ++ second) w w' ↔ ∃ m, Runs first w m ∧ Runs second m w' := by
  induction first generalizing w with
  | nil =>
    constructor
    · intro h
      exact ⟨w, .nil w, h⟩
    · rintro ⟨m, hm, h⟩
      cases hm
      exact h
  | cons step rest ih =>
    simp only [List.cons_append, runs_cons, ih]
    constructor
    · rintro ⟨m, hs, n, hr, h⟩
      exact ⟨n, ⟨m, hs, hr⟩, h⟩
    · rintro ⟨n, ⟨m, hs, hr⟩, h⟩
      exact ⟨m, hs, n, hr, h⟩

theorem runs_single {step : Step} {w w' : Writer} : Runs [step] w w' ↔ Effect step w w' := by
  rw [runs_cons]
  constructor
  · rintro ⟨m, hs, hm⟩
    cases hm
    exact hs
  · intro h
    exact ⟨w', h, .nil w'⟩

end Folio.Writer
