import Folio.Schema.Lineage
import Folio.Text.LetterCase

/-!
# Names from declarations

The name of a property comes from its accessor's name, and the name of a
collection from the markers along a class's lineage.

Results:
* `snakeCase_append`: the snake case of a text is made character by character.
-/
namespace Folio.Naming

/-- The name of the identity property. -/
def idProperty : String := "_id"

/-- The stored name for an accessor's suffix. A suffix of two capital letters
stays as it is; otherwise the first letter becomes a small one. The identity
has a name of its own. -/
def property (suffix : String) : String :=
  let name :=
    match suffix.toList with
    | a :: b :: rest =>
      if Text.isUpper a && Text.isUpper b then a :: b :: rest else Text.lower a ++ b :: rest
    | [a] => Text.lower a
    | [] => []
  if name = ['i', 'd'] then idProperty else String.ofList name

/-- The characters after the first, in snake case. -/
def snakeTail (c : Char) : List Char :=
  if Text.isUpper c then '_' :: Text.lower c else [c]

/-- The text in snake case: each capital letter becomes a small one, and all
but the first character have an underscore before it. -/
def snakeChars : List Char → List Char
  | [] => []
  | c :: rest => (if Text.isUpper c then Text.lower c else [c]) ++ rest.flatMap snakeTail

/-- The text in snake case. -/
def snakeCase (s : String) : String := String.ofList (snakeChars s.toList)

theorem snakeCase_append {a : List Char} (h : a ≠ []) (b : List Char) :
    snakeChars (a ++ b) = snakeChars a ++ b.flatMap snakeTail := by
  cases a with
  | nil => exact absurd rfl h
  | cons c r => simp [snakeChars]

/-- The name of the collection of a class; none if no class of the lineage has
a table marker. The first table that names wins, else the class's own name in
snake case; the first namespace that is not empty stands in front. -/
def collection? (s : Schema) (c : ClassRef) : Option String :=
  let lineage := s.lineage c
  match lineage.filterMap (·.table) with
  | [] => none
  | tables =>
    let base :=
      match tables.find? (· ≠ "") with
      | some table => table
      | none => snakeCase (EntityClass.simpleName c.name)
    match (lineage.filterMap (·.nameSpace)).find? (· ≠ "") with
    | some space =>
      some (if space.toList.getLast? = some '_' then space ++ base else space ++ "_" ++ base)
    | none => some base

end Folio.Naming
