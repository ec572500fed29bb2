import ClosureLift.Command.Arguments

/-!
What the command line asks for. Options about output are understood before and after the name of the
command; after it they win.
-/
namespace ClosureLift

inductive OutputFormat where
  | text
  | json
  deriving DecidableEq

structure OutputOptions where
  format : OutputFormat
  quiet : Bool
  color : Bool
  deriving DecidableEq

structure LiftCommand where
  input : String
  output : Option String
  outline : Bool
  config : Option String
  deriving DecidableEq

structure RunCommand where
  input : String
  cls : String
  method : String
  config : Option String
  deriving DecidableEq

inductive Command where
  | lift (args : LiftCommand)
  | run (args : RunCommand)
  deriving DecidableEq

def sharedOptions : List OptionSpec :=
  [⟨"format", none, .value⟩, ⟨"verbose", some 'v', .count⟩, ⟨"quiet", some 'q', .flag⟩,
    ⟨"no-color", none, .flag⟩]

def LiftCommand.options : List OptionSpec :=
  [⟨"output", some 'o', .value⟩, ⟨"print-hir", none, .flag⟩, ⟨"config", none, .value⟩]

def RunCommand.options : List OptionSpec :=
  [⟨"class", none, .value⟩, ⟨"method", none, .value⟩, ⟨"config", none, .value⟩]

namespace Scan

def level (specs : List OptionSpec) (toWord : Bool) (args : List String) : Except Halt Scan := do
  let found ← scan specs toWord args
  if found.isOnce specs then return found else .error .usage

def format (found : Scan) : Except Halt (Option OutputFormat) :=
  match found.get? "format" with
  | none => .ok none
  | some "text" => .ok (some .text)
  | some "json" => .ok (some .json)
  | some _ => .error .usage

def needed (found : Scan) (name : String) : Except Halt String :=
  match found.get? name with
  | none => .error .usage
  | some text => .ok text

def path (found : Scan) (name : String) : Except Halt (Option String) :=
  match found.get? name with
  | none => .ok none
  | some "" => .error .usage
  | some text => .ok (some text)

def input (found : Scan) : Except Halt String :=
  match found.words with
  | [""] => .error .usage
  | [word] => .ok word
  | _ => .error .usage

end Scan

def LiftCommand.ofScan (found : Scan) : Except Halt LiftCommand := do
  return ⟨← found.input, ← found.path "output", found.isGiven "print-hir", ← found.path "config"⟩

def RunCommand.ofScan (found : Scan) : Except Halt RunCommand := do
  return ⟨← found.input, ← found.needed "class", ← found.needed "method", ← found.path "config"⟩

def isHelpTopic : List String → Bool
  | [] => true
  | [name] => ["lift", "run", "help"].contains name
  | _ => false

/-- The command and how to show its results. Without a command there is only help. -/
def readArguments (args : List String) : Except Halt (Command × OutputOptions) := do
  let outer ← Scan.level sharedOptions true args
  let outerFormat ← outer.format
  match outer.words with
  | [] => .error .help
  | name :: rest =>
    let output (inner : Scan) : Except Halt OutputOptions := do
      let given (name : String) := outer.isGiven name || inner.isGiven name
      return ⟨((← inner.format).or outerFormat).getD .text, given "quiet", !given "no-color"⟩
    match name with
    | "lift" =>
      let inner ← Scan.level (LiftCommand.options ++ sharedOptions) false rest
      return (.lift (← LiftCommand.ofScan inner), ← output inner)
    | "run" =>
      let inner ← Scan.level (RunCommand.options ++ sharedOptions) false rest
      return (.run (← RunCommand.ofScan inner), ← output inner)
    | "help" => .error (if isHelpTopic rest then .help else .usage)
    | _ => .error .usage

end ClosureLift
