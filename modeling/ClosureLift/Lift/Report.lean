import ClosureLift.Codec.Basic
import ClosureLift.Lift.Closure

/-!
The account of one lifted closure.
-/
namespace ClosureLift

inductive ClosureForm where
  | lambda
  | methodReference
  | anonymousClass
  deriving DecidableEq

def ClosureForm.label : ClosureForm → String
  | .lambda => "lambda"
  | .methodReference => "method_reference"
  | .anonymousClass => "anonymous_class"

structure LiftReport where
  className : TypeName
  form : ClosureForm
  enclosing : TypeName
  captures : List String
  /-- Preferred and actual name of the fields that could not have the former. -/
  renamed : List (String × String)
  span : Span
  deriving DecidableEq

namespace LiftReport

def ofLifted (lifted : Lifted) (form : ClosureForm) (enclosing : TypeName) (span : Span) :
    LiftReport where
  className := lifted.cls.name
  form := form
  enclosing := enclosing.origin
  captures := lifted.slots.map (·.field)
  renamed := (lifted.slots.filter (·.isRenamed)).map fun slot => (slot.preferred, slot.field)
  span := span

def warnings (report : LiftReport) : List Diagnostic :=
  report.renamed.map fun (preferred, actual) =>
    { Diagnostic.new .renamedCaptureField
        s!"capture field `{preferred}` of {report.className.qualified} renamed to `{actual}`" with
      span := report.span
      notes := ["the preferred name is already a field of the lifted class"] }

def toJson (report : LiftReport) : Json :=
  .obj [("captures", .ofTexts report.captures), ("class_name", report.className.toJson),
    ("enclosing", report.enclosing.toJson), ("form", .str report.form.label),
    ("renamed", .arr (report.renamed.map fun (preferred, actual) => .ofTexts [preferred, actual])),
    ("span", .obj [("end", .ofUInt32 report.span.stop), ("file_id", .ofUInt32 report.span.file),
      ("start", .ofUInt32 report.span.start)])]

end LiftReport

end ClosureLift
