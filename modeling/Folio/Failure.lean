import Folio.Schema.Lineage
import Folio.Service.Report
import Folio.Store.Fault

/-!
# Failures of operations on records

What can go wrong above the store: with classes, properties, codecs, keys and
validation. A failure is a cause; its wording is in `message`.
-/
namespace Folio

/-- An operation that a value or a type does not have. -/
inductive Unsupported where
  | notEntityClass (cls : String)
  | notTrait (cls : String) (form : ClassForm)
  | noAccessor (cls method : String) (args : Nat)
  | decodingClass (cls : String)
  deriving DecidableEq, Repr

namespace Unsupported

/-- The wording of a failure. -/
def message : Unsupported → String
  | notEntityClass cls => s!"Invalid EntityClass: {cls}"
  | notTrait cls form => s!"dynamic entities require a trait class, {cls} is {form.written}"
  | noAccessor cls method args => s!"{cls}.{method} with {args} argument(s)"
  | decodingClass cls => s!"decoding {cls} through its codec"

end Unsupported

/-- An argument that is not accepted. -/
inductive IllegalArgument where
  | cannotUnset (cls property : String)
  | wrongType (cls property : String) (declared actual : ValueType)
  | holdsNaN (cls property : String)
  | undeclared (cls property : String) (type : ValueType)
  | notText (type : ValueType)
  | wrongCodec (codec : String) (type : ValueType)
  | unmodifiable (cls : String)
  | bounds (max min : Nat)
  | lacksCapability (cls capability : String)
  /-- What a stage or a listener has to say. -/
  | because (reason : String)
  deriving DecidableEq, Repr

namespace IllegalArgument

/-- The wording of a failure. -/
def message : IllegalArgument → String
  | cannotUnset cls property => s!"{EntityClass.simpleName cls}.{property} cannot be unset"
  | wrongType cls property declared actual =>
    s!"{EntityClass.simpleName cls}.{property} expects {declared.display}, got {actual.display}"
  | holdsNaN cls property => s!"{EntityClass.simpleName cls}.{property} cannot hold NaN"
  | undeclared cls property type =>
    s!"{EntityClass.simpleName cls}.{property} is undeclared and cannot hold {type.display}"
  | notText type => s!"expected text, found {type.display}"
  | wrongCodec codec type => s!"codec for {codec} cannot encode a {type.display}"
  | unmodifiable cls => s!"unmodifiable entity: {cls}"
  | bounds max min => s!"maxLength: {max} must be >= minLength: {min}"
  | lacksCapability cls capability => s!"{cls} does not implement {capability}"
  | because reason => reason

end IllegalArgument

/-- A failure of an operation on records. -/
inductive Failure where
  | store (fault : StoreFault)
  | data (fault : DataFault)
  /-- No class of the lineage has a table marker. -/
  | noTable (cls : String)
  | unsupported (cause : Unsupported)
  | instantiation (cls : String) (cause : Failure)
  | noCodec (type : ValueType)
  | illegal (cause : IllegalArgument)
  | rejected (report : Report)
  | sealedTooShort
  | sealBroken
  | keySize (actual : Nat)
  deriving DecidableEq, Repr

namespace Failure

/-- The wording of a failure. -/
def message : Failure → String
  | store fault => s!"store error: {fault.message}"
  | data fault => s!"codec error: {fault.message}"
  | noTable cls =>
    s!"collection initialization failed: table marker not found on entity class: {cls}"
  | unsupported cause => s!"unsupported operation: {cause.message}"
  | instantiation cls _ => s!"unsupported operation: Instantiation fails: {cls}"
  | noCodec type => s!"Can't find a codec for {type.display}"
  | illegal cause => s!"illegal argument: {cause.message}"
  | rejected report => s!"validation failed: {report.display}"
  | sealedTooShort => "decryption failed: ciphertext too short"
  | sealBroken => "decryption failed: authentication failed"
  | keySize actual => s!"invalid key size: expected 32 bytes, got {actual}"

end Failure
end Folio
