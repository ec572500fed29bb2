/-!
The command line as words and options. An option is written `--long`, `--long value`, `--long=value`
or, if it has a short form, `-s`, `-s value` and `-svalue`; short options without a value may share
one dash. After `--` everything is a word.
-/
namespace ClosureLift

inductive OptionKind where
  | flag
  | count
  | value
  deriving DecidableEq

structure OptionSpec where
  long : String
  short : Option Char
  kind : OptionKind

inductive Halt where
  | usage
  | help
  deriving DecidableEq

structure Scan where
  options : List (String × String)
  words : List String

namespace Scan

def addWord (scan : Scan) (word : String) : Scan := { scan with words := word :: scan.words }

def count (scan : Scan) (name : String) : Nat := scan.options.countP (·.1 == name)

def isGiven (scan : Scan) (name : String) : Bool := scan.count name != 0

def get? (scan : Scan) (name : String) : Option String := scan.options.lookup name

end Scan

def isValue (arg : String) : Bool := !arg.startsWith "-" || arg == "-"

def isHelp (name : String) : Bool := name == "help" || name == "version"

def isShortHelp (c : Char) : Bool := c == 'h' || c == 'V'

/-- The options that share one dash, and the one that takes its value from the next argument. -/
def readShorts (specs : List OptionSpec) :
    List Char → Except Halt (List (String × String) × Option String)
  | [] => .ok ([], none)
  | c :: rest =>
    if isShortHelp c then .error .help
    else
      match specs.find? (·.short == some c) with
      | none => .error .usage
      | some ⟨long, _, .value⟩ =>
        match rest with
        | [] => .ok ([], some long)
        | '=' :: value => .ok ([(long, String.ofList value)], none)
        | value => .ok ([(long, String.ofList value)], none)
      | some ⟨long, _, _⟩ => do
        let (options, pending) ← readShorts specs rest
        return ((long, "") :: options, pending)

def splitLong (arg : String) : String × Option String :=
  let cs := arg.toList
  match cs.dropWhile (· != '=') with
  | [] => (arg, none)
  | _ :: value => (String.ofList (cs.takeWhile (· != '=')), some (String.ofList value))

def readOption (specs : List OptionSpec) (arg : String) :
    Except Halt (List (String × String) × Option String) :=
  match arg.toList with
  | '-' :: '-' :: long =>
    let (name, value) := splitLong (String.ofList long)
    match specs.find? (·.long == name), value with
    | some ⟨_, _, .value⟩, some value => .ok ([(name, value)], none)
    | some ⟨_, _, .value⟩, none => .ok ([], some name)
    | some _, none => .ok ([(name, "")], none)
    | some _, some _ => .error .usage
    | none, none => .error (if isHelp name then .help else .usage)
    | none, some _ => .error .usage
  | '-' :: shorts => readShorts specs shorts
  | _ => .error .usage

/-- Reads arguments, up to the first word if `toWord` is set. -/
def scan (specs : List OptionSpec) (toWord : Bool) : List String → Except Halt Scan
  | [] => .ok ⟨[], []⟩
  | "--" :: rest => if toWord && !rest.isEmpty then .error .usage else .ok ⟨[], rest⟩
  | arg :: rest =>
    if isValue arg then
      if toWord then .ok ⟨[], arg :: rest⟩ else do return (← scan specs toWord rest).addWord arg
    else
      match readOption specs arg, rest with
      | .error halt, _ => .error halt
      | .ok (options, none), rest => do
        let later ← scan specs toWord rest
        return { later with options := options ++ later.options }
      | .ok (_, some _), [] => .error .usage
      | .ok (options, some name), value :: rest =>
        if isValue value then do
          let later ← scan specs toWord rest
          return { later with options := options ++ (name, value) :: later.options }
        else .error .usage

def Scan.isOnce (scan : Scan) (specs : List OptionSpec) : Bool :=
  specs.all fun spec => spec.kind == .count || scan.count spec.long ≤ 1

end ClosureLift
