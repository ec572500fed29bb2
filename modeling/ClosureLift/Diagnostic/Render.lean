import ClosureLift.Diagnostic.Basic
import ClosureLift.Json.Record
import ClosureLift.Json.Writer

/-!
Three ways to print diagnostics: a block of lines for a terminal, with or without colour, one JSON
object per line for tools, and one plain line each. Every way also has a closing summary.
-/
namespace ClosureLift

inductive Style where
  | failure
  | success
  | caution
  | accent

namespace Style

def codes : Style → String
  | .failure => "\x1b[31m\x1b[1m"
  | .success => "\x1b[32m"
  | .caution => "\x1b[33m\x1b[1m"
  | .accent => "\x1b[36m"

def apply (style : Style) (colored : Bool) (text : String) : String :=
  if colored then style.codes ++ text ++ "\x1b[0m" else text

def ofSeverity : Severity → Style
  | .error => .failure
  | .warning => .caution

end Style

inductive Layout where
  | terminal (colored : Bool)
  | json
  | simple

def counted (n : Nat) (noun : String) : String :=
  s!"{n} {noun}" ++ (if n = 1 then "" else "s")

namespace Diagnostic

def terminal (colored : Bool) (files : SourceFiles) (d : Diagnostic) : String :=
  let header := (Style.ofSeverity d.severity).apply colored s!"{d.severity.label}[{d.code.label}]"
  let entry (label text : String) := "  " ++ Style.accent.apply colored label ++ " " ++ text ++ "\n"
  let place := match files.location? d.span with
    | some location => entry "-->" location.display
    | none => ""
  let notes := String.join (d.notes.map (entry "= note:"))
  let help := match d.help with
    | some text => entry "= help:" text
    | none => ""
  header ++ ": " ++ d.message ++ "\n" ++ place ++ notes ++ help ++ "\n"

def toLine (files : SourceFiles) (d : Diagnostic) : Json :=
  let place (l : Location) : Json :=
    .obj [("end", .ofUInt32 l.stop), ("file", .str l.file), ("start", .ofUInt32 l.start)]
  .obj [("code", .str d.code.label), ("help", .ofOption .str d.help),
    ("location", .ofOption place (files.location? d.span)), ("message", .str d.message),
    ("notes", .ofTexts d.notes), ("severity", .str d.severity.label)]

def simple (files : SourceFiles) (d : Diagnostic) : String :=
  let place := match files.location? d.span with
    | some location => location.display ++ ": "
    | none => ""
  place ++ s!"{d.severity.label}: {d.message} [{d.code.label}]\n"

def render (layout : Layout) (files : SourceFiles) (d : Diagnostic) : String :=
  match layout with
  | .terminal colored => d.terminal colored files
  | .json => (d.toLine files).compact ++ "\n"
  | .simple => d.simple files

def renderAll (layout : Layout) (files : SourceFiles) (ds : List Diagnostic) : String :=
  String.join (ds.map (render layout files))

def summaryLine (ds : List Diagnostic) : Json :=
  .obj [("errors", .int (errors ds)), ("total", .int ds.length), ("type", .str "summary"),
    ("warnings", .int (warnings ds))]

/-- The closing line. On a terminal there is none when there is nothing to count. -/
def summary (layout : Layout) (ds : List Diagnostic) : String :=
  let (e, w) := (errors ds, warnings ds)
  match layout with
  | .terminal colored =>
    let parts := (if e = 0 then [] else [counted e "error"]) ++
      (if w = 0 then [] else [counted w "warning"])
    if parts = [] then ""
    else
      let style := Style.ofSeverity (if e = 0 then .warning else .error)
      style.apply colored (" and ".intercalate parts ++ " emitted") ++ "\n"
  | .json => (summaryLine ds).compact ++ "\n"
  | .simple => s!"{e} error(s), {w} warning(s)\n"

end Diagnostic

end ClosureLift
