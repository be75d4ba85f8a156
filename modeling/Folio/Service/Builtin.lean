import Folio.Service.Validation
import Folio.Text.Blank

/-!
# Stages for the known capabilities

Names are set, in bounds and without stray whitespace; descriptions are in
bounds, and blank ones are cleared; saving does not change the mark of a
defunct record.

Results:
* `faults_empty`: the empty name is too short, if there is a least length.
-/
namespace Folio

/-- The name of the name property. -/
def nameProperty : String := "name"

/-- The name of the description property. -/
def descriptionProperty : String := "description"

/-- What can be wrong with a name that is set. -/
inductive NameFault where
  | startsBlank
  | endsBlank
  | doubleBlank
  | tooShort (least : Nat)
  | tooLong (most : Nat)
  deriving DecidableEq, Repr

namespace NameFault

/-- The wording of a fault. -/
def message : NameFault → String
  | startsBlank => "name must not start with whitespace"
  | endsBlank => "name must not end with whitespace"
  | doubleBlank => "name must not contain consecutive whitespace"
  | tooShort least => s!"name must be at least {least} characters"
  | tooLong most => s!"name must be at most {most} characters"

end NameFault

/-- The bounds of a name's length, in characters. -/
structure NameBounds where
  least : Option Nat
  most : Option Nat
  deriving DecidableEq, Repr

namespace NameBounds

/-- The bounds, unless they are the wrong way round. -/
def of? (least most : Option Nat) : Except Failure NameBounds :=
  match least, most with
  | some min, some max =>
    if max < min then .error (.illegal (.bounds max min)) else .ok ⟨least, most⟩
  | _, _ => .ok ⟨least, most⟩

/-- The stray whitespace after the first character. `after` tells whether the
character before was whitespace inside the name. -/
def strayTail (after : Bool) : List Char → List NameFault
  | [] => []
  | c :: rest =>
    if !Text.isBlank c then strayTail false rest
    else if rest.isEmpty then [.endsBlank]
    else if after then .doubleBlank :: strayTail true rest
    else strayTail true rest

/-- The stray whitespace of a name. -/
def stray : List Char → List NameFault
  | [] => []
  | c :: rest => (if Text.isBlank c then [.startsBlank] else []) ++ strayTail false rest

/-- What is wrong with a length. -/
def lengthFaults (b : NameBounds) (n : Nat) : List NameFault :=
  match b.least.filter (n < ·), b.most.filter (· < n) with
  | some least, _ => [.tooShort least]
  | none, some most => [.tooLong most]
  | none, none => []

/-- What is wrong with a name, in the order it is reported. -/
def faults (b : NameBounds) (name : List Char) : List NameFault :=
  stray name ++ b.lengthFaults name.length

theorem faults_empty (b : NameBounds) : b.faults [] = b.lengthFaults 0 := rfl

end NameBounds

/-- Whether a text is absent or has nothing but whitespace. -/
def isBlankText : Option String → Bool
  | none => true
  | some s => s.toList.all Text.isBlank

namespace Validation

variable {E L : Type} [Record E]

/-- A property that is a text. -/
def textOf (e : E) (name : String) : Option String := do (← Record.property e name).text?

/-- A property that is a flag; none is as good as false. -/
def flagOf (e : E) (name : String) : Bool := ((Record.property e name).bind (·.bool?)).getD false

/-- Looks at a name that is new or has changed. -/
def name (bounds : NameBounds) : Validation E L where
  capability := some .namable
  check stored := do
    let name := textOf (← getThe (Subject E L)).record nameProperty
    if stored.any fun o => textOf o nameProperty = name then return
    match name with
    | some s =>
      if isBlankText (some s) then Subject.addField nameProperty "name is not set"
      else (bounds.faults s.toList).forM fun f => Subject.addField nameProperty f.message
    | none => Subject.addField nameProperty "name is not set"

/-- Looks at a description that is set on a new record, or has changed. A
blank one is cleared. -/
def description (most : Option Nat) : Validation E L where
  capability := some .describable
  check stored := do
    let description := textOf (← getThe (Subject E L)).record descriptionProperty
    let changed :=
      match stored with
      | none => description.isSome
      | some o => textOf o descriptionProperty ≠ description
    if !changed then return
    match description with
    | some s =>
      if isBlankText (some s) then Subject.held (Held.modify descriptionProperty none)
      else
        match most.filter (· < s.length) with
        | some most =>
          Subject.addField descriptionProperty s!"description must be at most {most} characters"
        | none => pure ()
    | none => Subject.held (Held.modify descriptionProperty none)

/-- Looks at the mark of a defunct record: no new record has it, and saving
does not change it. -/
def defunct : Validation E L where
  capability := some .defunctable
  check stored := do
    let marked := flagOf (← getThe (Subject E L)).record defunctProperty
    let before := (stored.map fun o => flagOf o defunctProperty).getD false
    if marked ≠ before then Subject.addField defunctProperty "defunct cannot be set by save"

end Validation
end Folio
