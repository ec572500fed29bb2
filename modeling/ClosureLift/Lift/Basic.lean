import ClosureLift.Diagnostic.Basic
import ClosureLift.Json.Record
import ClosureLift.Scope.Basic

/-!
What a user may choose about lifting, and why a unit cannot be lifted. An error takes the innermost
place that is known.
-/
namespace ClosureLift

structure LiftOptions where
  selfFieldName : String
  temporaryName : String
  deriving DecidableEq

namespace LiftOptions

def standard : LiftOptions := ⟨"_this", "_cassis_tmp_"⟩

def fieldNames : List String := ["self_field_name", "temporary_prefix"]

def toJson (options : LiftOptions) : Json :=
  .obj [("self_field_name", .str options.selfFieldName),
    ("temporary_prefix", .str options.temporaryName)]

/-- Members that are no options are refused, not ignored. -/
def onlyKnown : Json → Bool
  | .obj members => members.all fun m => fieldNames.contains m.1
  | _ => true

def ofJson? (v : Json) : Option LiftOptions := do
  guard (onlyKnown v)
  match ← v.fields? fieldNames with
  | [selfFieldName, temporaryName] =>
    return ⟨← Json.optional standard.selfFieldName Json.text? selfFieldName,
      ← Json.optional standard.temporaryName Json.text? temporaryName⟩
  | _ => none

end LiftOptions

inductive LiftCause where
  | invalidState (cause : ScopeError)
  | unsupportedConstruct (construct : String)
  | missingFunctionalMethod
  deriving DecidableEq

structure LiftError where
  cause : LiftCause
  span : Span
  deriving DecidableEq

namespace LiftCause

def message : LiftCause → String
  | .invalidState cause => s!"invalid scope state: {cause.message}"
  | .unsupportedConstruct construct => s!"unsupported construct in closure body: {construct}"
  | .missingFunctionalMethod => "closure does not name the method it implements"

def code : LiftCause → Code
  | .invalidState (.unbound _) => .unboundVariable
  | .invalidState _ => .invalidScopeState
  | .unsupportedConstruct _ => .unsupportedConstruct
  | .missingFunctionalMethod => .missingFunctionalMethod

def help : LiftCause → Option String
  | .invalidState (.unbound _) =>
    some "declare the key in this scope or an enclosing one before referencing it"
  | .invalidState _ => some "each source key and identifier may be declared only once per scope"
  | .unsupportedConstruct _ => none
  | .missingFunctionalMethod => some "resolve the functional interface method before lifting"

def notes : LiftCause → List String
  | .unsupportedConstruct _ => ["closures nested in a lifted body must be lifted first"]
  | _ => []

end LiftCause

namespace LiftError

def ofScope (cause : ScopeError) : LiftError := ⟨.invalidState cause, .dummy⟩

/-- Gives the error a place unless it has one. -/
def locate (error : LiftError) (span : Span) : LiftError :=
  { error with span := error.span.orElse span }

def toDiagnostic (error : LiftError) : Diagnostic :=
  { Diagnostic.new error.cause.code error.cause.message with
    help := error.cause.help
    span := error.span
    notes := error.cause.notes }

end LiftError

end ClosureLift
