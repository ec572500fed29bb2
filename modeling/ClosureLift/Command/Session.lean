import ClosureLift.Codec.Diagnostic
import ClosureLift.Command.FileTree
import ClosureLift.Command.Invocation
import ClosureLift.Diagnostic.Render
import ClosureLift.Lift.Conversion
import ClosureLift.Machine.Eval
import ClosureLift.Program.Outline
import ClosureLift.Settings.Basic

/-!
The commands. A session is what a command can see and change: the files, and what it printed so
far. Each unit is read when its turn comes and one that cannot be lifted does not keep the others
from being lifted; a file that cannot be read or written ends the command.
-/
namespace ClosureLift

structure Session where
  tree : FileTree
  out : String
  err : String

structure Failure where
  message : String
  causes : List String

namespace Failure

def causeLines : List String → List String
  | [cause] => ["    " ++ cause]
  | causes => causes.mapIdx fun k cause => s!"    {k}: {cause}"

def render (failure : Failure) : String :=
  let causes :=
    if failure.causes = [] then ""
    else "\n\nCaused by:\n" ++ "\n".intercalate (causeLines failure.causes)
  s!"Error: {failure.message}{causes}\n"

end Failure

structure Surroundings where
  wording : Wording
  settingsReason : String
  terminal : Bool

abbrev CommandM := ReaderT Surroundings (ExceptT Failure (StateM Session))

namespace CommandM

def print (text : String) : CommandM Unit := modify fun s => { s with out := s.out ++ text }

def report (text : String) : CommandM Unit := modify fun s => { s with err := s.err ++ text }

def fail (message : String) (causes : List String) : CommandM α := throw ⟨message, causes⟩

def access (doing : String) (result : Except FileError α) : CommandM α :=
  match result with
  | .ok a => return a
  | .error e => fail doing [e.message]

def readFile (path : String) : CommandM String := do
  access s!"failed to read {path}" ((← get).tree.read path)

def settingsBeside (tree : FileTree) (input : String) : String :=
  let root := if tree.leadsToDir input then input else (Path.parent? input).getD "."
  Path.join root Settings.fileName

/-- The options from a named settings file, or from the one next to the input if there is one. -/
def loadOptions (config : Option String) (input : String) : CommandM LiftOptions := do
  let tree := (← get).tree
  let path := config.getD (settingsBeside tree input)
  if tree.leadsToFile path then
    match Settings.read? (← readFile path) with
    | some options => return options
    | none => fail s!"in {path}" ["invalid configuration", (← read).settingsReason]
  else if config.isSome then fail s!"configuration file {path} does not exist" []
  else return .standard

end CommandM

namespace OutputOptions

def layout (output : OutputOptions) (terminal : Bool) : Layout :=
  match output.format with
  | .json => .json
  | .text => if output.quiet then .simple else .terminal (terminal && output.color)

/-- What is shown of diagnostics: in quiet text only the errors. -/
def visible (output : OutputOptions) (ds : List Diagnostic) : List Diagnostic :=
  if output.quiet && output.format == .text then ds.filter (·.severity == .error) else ds

end OutputOptions

open CommandM

def CommandM.emit (output : OutputOptions) (ds : List Diagnostic) (files : SourceFiles) :
    CommandM Unit := do
  report (Diagnostic.renderAll (output.layout (← read).terminal) files (output.visible ds))

structure UnitFile where
  path : String
  inside : Option Place

def isUnitName (place : Place) : Bool := (place.getLast?.map (Path.hasEnding "json")).getD false

def collectUnits (input : String) : CommandM (List UnitFile) := do
  let tree := (← get).tree
  if tree.leadsToFile input then return [⟨input, none⟩]
  match tree.resolve input with
  | .error _ => fail s!"{input} does not exist" []
  | .ok place =>
    if tree.isDir place then
      return ((tree.under place).filter isUnitName).map fun p => ⟨p.foldl Path.join input, some p⟩
    else fail s!"{input} does not exist" []

/-- Where a lifted unit goes; without an output it is printed. -/
def destination (output : Option String) (unit : UnitFile) : Option String :=
  output.map fun base => (unit.inside.getD []).foldl Path.join base

def writeUnit (program : Program) : Option String → CommandM Unit
  | none => print (program.toJson.pretty ++ "\n")
  | some path => do
    match Path.parent? path with
    | none | some "" => pure ()
    | some parent =>
      let tree ← access s!"failed to create {parent}" ((← get).tree.createDir parent)
      modify fun s => { s with tree }
    let tree ← access s!"failed to write {path}" ((← get).tree.write path program.toJson.pretty)
    modify fun s => { s with tree }

structure Tally where
  diagnostics : List Diagnostic
  reports : List LiftReport
  failed : Nat

def liftUnit (args : LiftCommand) (output : OutputOptions) (options : LiftOptions) (unit : UnitFile)
    (tally : Tally) : CommandM Tally := do
  let text ← readFile unit.path
  match liftText (← read).wording options text with
  | .error ⟨diagnostic, files⟩ =>
    emit output [diagnostic] files
    return { tally with
      diagnostics := tally.diagnostics ++ [diagnostic], failed := tally.failed + 1 }
  | .ok conversion =>
    emit output conversion.warnings conversion.program.files
    if args.outline then report conversion.program.outline
    writeUnit conversion.program (destination args.output unit)
    return { tally with
      diagnostics := tally.diagnostics ++ conversion.warnings
      reports := tally.reports ++ conversion.reports }

def liftUnits (args : LiftCommand) (output : OutputOptions) (options : LiftOptions) :
    List UnitFile → Tally → CommandM Tally
  | [], tally => return tally
  | unit :: rest, tally => do
    liftUnits args output options rest (← liftUnit args output options unit tally)

def closing (output : OutputOptions) (terminal : Bool) (units : Nat) (tally : Tally) : String :=
  let summary := Diagnostic.summary (output.layout terminal) tally.diagnostics
  match output.format with
  | .text =>
    let colored := terminal && output.color
    let message :=
      s!"{tally.reports.length} closure(s) lifted in {units - tally.failed} unit(s)"
    summary ++
      (if tally.failed = 0 then Style.success.apply colored message
        else Style.failure.apply colored "Lift failed" ++ ": " ++ message) ++ "\n"
  | .json =>
    let line : Json :=
      .obj [("closures", .arr (tally.reports.map LiftReport.toJson)), ("failed", .int tally.failed),
        ("lifted", .int tally.reports.length), ("success", .bool (tally.failed == 0)),
        ("units", .int units)]
    summary ++ line.compact ++ "\n"

def nothingFound : OutputFormat → String
  | .text => "No programs found.\n"
  | .json =>
    (Json.obj [("lifted", .int 0), ("success", .bool true), ("units", .int 0)]).compact ++ "\n"

def finishLift (output : OutputOptions) (units : Nat) (tally : Tally) : CommandM Unit := do
  unless output.quiet do report (closing output (← read).terminal units tally)
  if tally.failed ≠ 0 then fail s!"{tally.failed} of {units} unit(s) could not be lifted" []

def LiftCommand.perform (args : LiftCommand) (output : OutputOptions) : CommandM Unit := do
  let options ← loadOptions args.config args.input
  let units ← collectUnits args.input
  if units.isEmpty then
    unless output.quiet do report (nothingFound output.format)
  else
    if !output.quiet && output.format = .text then report s!"Lifting {units.length} unit(s)...\n"
    finishLift output units.length (← liftUnits args output options units ⟨[], [], 0⟩)

def evaluationFailure (cls : TypeName) (method message : String) : Diagnostic :=
  { Diagnostic.new .evaluationError message with
    notes := [s!"while running {cls.qualified}.{method}()"] }

def RunCommand.perform (args : RunCommand) (output : OutputOptions) : CommandM Unit := do
  let options ← loadOptions args.config args.input
  let text ← readFile args.input
  match liftText (← read).wording options text with
  | .error ⟨diagnostic, files⟩ =>
    emit output [diagnostic] files
    fail s!"{args.input} could not be lifted" []
  | .ok conversion =>
    let cls : TypeName := ⟨args.cls⟩
    let (result, heap) :=
      conversion.program.callStatic .standard cls args.method [] .empty
    let failed (message : String) : CommandM Unit := do
      emit output [evaluationFailure cls args.method message] conversion.program.files
      fail s!"evaluation of {args.cls}.{args.method} failed" []
    match result with
    | .error (.fault e) => failed e.message
    | .error .outOfTurns => failed "a loop took too many turns"
    | .ok value =>
      match output.format with
      | .text => print (value.display heap ++ "\n")
      | .json =>
        let line : Json :=
          .obj [("class", .str args.cls), ("lifted", .int conversion.reports.length),
            ("method", .str args.method), ("type", .str (value.typeName heap)),
            ("value", .str (value.display heap))]
        print (line.compact ++ "\n")

def Command.perform (command : Command) (output : OutputOptions) : CommandM Unit :=
  match command with
  | .lift args => args.perform output
  | .run args => args.perform output

def helpText : String :=
  "Lift closures into top-level classes\n\n" ++
  "Usage: cassis [OPTIONS] [COMMAND]\n\n" ++
  "Commands:\n" ++
  "  lift INPUT [-o OUTPUT] [--print-hir] [--config FILE]\n" ++
  "  run INPUT --class CLASS --method METHOD [--config FILE]\n\n" ++
  "Options:\n" ++
  "  --format text|json, -v, --verbose, -q, --quiet, --no-color\n"

structure Outcome where
  code : Nat
  out : String
  err : String
  tree : FileTree

def runCommandLine (surroundings : Surroundings) (args : List String) (tree : FileTree) : Outcome :=
  match readArguments args with
  | .error .usage => ⟨2, "", "error: unexpected arguments\n\n" ++ helpText, tree⟩
  | .error .help => ⟨0, helpText, "", tree⟩
  | .ok (command, output) =>
    match ((command.perform output).run surroundings).run.run ⟨tree, "", ""⟩ with
    | (.ok (), s) => ⟨0, s.out, s.err, s.tree⟩
    | (.error failure, s) => ⟨1, s.out, s.err ++ failure.render, s.tree⟩

end ClosureLift
