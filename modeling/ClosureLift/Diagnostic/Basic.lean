import ClosureLift.Source

/-!
Diagnostics: what went wrong with a unit, how bad it is and where.
-/
namespace ClosureLift

inductive Severity where
  | warning
  | error
  deriving DecidableEq

def Severity.label : Severity → String
  | .warning => "warning"
  | .error => "error"

inductive Code where
  | malformedInput
  | invalidScopeState
  | unsupportedConstruct
  | missingFunctionalMethod
  | unboundVariable
  | renamedCaptureField
  | evaluationError
  deriving DecidableEq

namespace Code

/-- A letter for the stage (input, lifting, warnings of lifting, evaluation) and a number. -/
def label : Code → String
  | .malformedInput => "P001"
  | .invalidScopeState => "L001"
  | .unsupportedConstruct => "L002"
  | .missingFunctionalMethod => "L003"
  | .unboundVariable => "L004"
  | .renamedCaptureField => "W001"
  | .evaluationError => "E001"

def severity : Code → Severity
  | .renamedCaptureField => .warning
  | _ => .error

end Code

structure Diagnostic where
  code : Code
  severity : Severity
  message : String
  help : Option String
  span : Span
  notes : List String
  deriving DecidableEq

namespace Diagnostic

/-- A diagnostic of the severity that its code usually has, without place, notes or help. -/
def new (code : Code) (message : String) : Diagnostic :=
  ⟨code, code.severity, message, none, .dummy, []⟩

def errors (ds : List Diagnostic) : Nat := ds.countP (·.severity == .error)

def warnings (ds : List Diagnostic) : Nat := ds.countP (·.severity == .warning)

end Diagnostic

end ClosureLift
