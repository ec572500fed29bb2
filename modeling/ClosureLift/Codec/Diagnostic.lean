import ClosureLift.Codec.Basic
import ClosureLift.Diagnostic.Basic

/-!
The JSON form of diagnostics, which unlike the printed line keeps the place as a span.
-/
namespace ClosureLift

namespace Code

def name : Code → String
  | .malformedInput => "MalformedInput"
  | .invalidScopeState => "InvalidScopeState"
  | .unsupportedConstruct => "UnsupportedConstruct"
  | .missingFunctionalMethod => "MissingFunctionalMethod"
  | .unboundVariable => "UnboundVariable"
  | .renamedCaptureField => "RenamedCaptureField"
  | .evaluationError => "EvaluationError"

def all : List Code :=
  [.malformedInput, .invalidScopeState, .unsupportedConstruct, .missingFunctionalMethod,
    .unboundVariable, .renamedCaptureField, .evaluationError]

def toJson (code : Code) : Json := .str code.name

def ofJson? (v : Json) : Option Code := do
  let name ← v.name?
  all.find? (·.name == name)

end Code

namespace Severity

def toJson (severity : Severity) : Json := .str severity.label

def ofJson? (v : Json) : Option Severity := do
  let name ← v.name?
  [Severity.warning, .error].find? (·.label == name)

end Severity

namespace Diagnostic

def toJson (d : Diagnostic) : Json :=
  .obj [("code", d.code.toJson), ("severity", d.severity.toJson), ("message", .str d.message),
    ("help", .ofOption .str d.help), ("span", d.span.toJson), ("notes", .ofTexts d.notes)]

def ofJson? (v : Json) : Option Diagnostic := do
  match ← v.fields? ["code", "severity", "message", "help", "span", "notes"] with
  | [code, severity, message, help, span, notes] =>
    return ⟨← Json.needed Code.ofJson? code, ← Json.needed Severity.ofJson? severity,
      ← Json.needed Json.text? message, ← Json.optional none (Json.nullable Json.text?) help,
      ← Json.needed Span.ofJson? span, ← Json.needed (Json.list? Json.text?) notes⟩
  | _ => none

end Diagnostic

end ClosureLift
