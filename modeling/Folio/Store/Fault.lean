import Folio.Fault

/-!
# Faults of a store

What can go wrong in a call on a store. A fault is a cause; its wording is in
`message`.
-/
namespace Folio

/-- An update or a replacement that cannot be applied. -/
inductive UpdateFault where
  | immutable (field : String)
  | overflow (field : String)
  | notNumeric (field : String)
  | changesId
  deriving DecidableEq, Repr

namespace UpdateFault

/-- The wording of a fault. -/
def message : UpdateFault → String
  | immutable field => s!"field '{field}' is immutable"
  | overflow field => s!"overflow incrementing '{field}'"
  | notNumeric field => s!"cannot increment non-numeric field '{field}'"
  | changesId => "replacement would change '_id'"

end UpdateFault

/-- A fault of a store call. -/
inductive StoreFault where
  | data (fault : DataFault)
  /-- An id that is taken, in its written form. -/
  | duplicateKey (collection id : String)
  | missingId
  | update (fault : UpdateFault)
  | unavailable (collection : String)
  deriving DecidableEq, Repr

namespace StoreFault

/-- The wording of a fault. -/
def message : StoreFault → String
  | data fault => s!"codec error: {fault.message}"
  | duplicateKey collection id => s!"duplicate key in collection '{collection}': {id}"
  | missingId => "invalid document: missing '_id'"
  | update fault => s!"invalid update: {fault.message}"
  | unavailable collection => s!"store unavailable: collection '{collection}' cannot be reached"

end StoreFault
end Folio
