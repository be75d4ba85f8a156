import Folio.Crypto.Key

/-!
# Configuration

The key for images and the bounds of names and descriptions.

Results:
* `standard_key`: without further settings images are stored as they are.
-/
namespace Folio

/-- What a client can set. -/
structure Config where
  key : Option Key := none
  nameLeast : Option Nat := some 2
  nameMost : Option Nat := some 16
  descriptionMost : Option Nat := some 50

namespace Config

/-- The configuration without further settings. -/
def standard : Config := {}

/-- The text of an optional setting. -/
def optional : Option String → String
  | none => "None"
  | some s => "Some(" ++ s ++ ")"

/-- The text of a configuration, which does not tell the key. -/
def written (c : Config) : String :=
  "Config \x7b image_key: " ++ optional (c.key.map Key.written) ++
    ", name_min_length: " ++ optional (c.nameLeast.map toString) ++
    ", name_max_length: " ++ optional (c.nameMost.map toString) ++
    ", description_max_length: " ++ optional (c.descriptionMost.map toString) ++ " \x7d"

theorem standard_key : standard.key = none := rfl

end Config
end Folio
