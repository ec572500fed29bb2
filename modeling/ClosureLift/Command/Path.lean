/-!
Paths as text. They are joined and cut like text, so that messages show what the user wrote; only
the file tree knows which place a path leads to.
-/
namespace ClosureLift

namespace Path

def join (base path : String) : String :=
  if path.startsWith '/' || base = "" then path
  else if base.endsWith '/' then base ++ path
  else base ++ "/" ++ path

def cut (mark : Char) (text : String) : List String := (text.toList.splitOn mark).map String.ofList

def steps (path : String) : List String := cut '/' path

def isIdle (step : String) : Bool := step == "" || step == "."

/-- Drops idle steps at the end, but never the first step. -/
def trimSteps (steps : List String) : List String :=
  match steps with
  | [] => []
  | first :: rest => first :: (rest.reverse.dropWhile isIdle).reverse

/-- The path without its last step. Neither the root nor the empty path has one. -/
def parent? (path : String) : Option String :=
  match trimSteps (steps path) with
  | [] | [""] => none
  | steps =>
    match trimSteps steps.dropLast with
    | [""] => some "/"
    | outer => some ("/".intercalate outer)

def ancestors (path : String) : List String := outwards (steps path).length path
where
  outwards : Nat → String → List String
    | 0, _ => []
    | n + 1, path =>
      match parent? path with
      | none | some "" => []
      | some outer => outer :: outwards n outer

def stepsToEnd (path : String) : List String :=
  ((steps path).reverse.dropWhile (· == "")).reverse

/-- Whether the last step is a name with the given ending after its last dot. A name that only
starts with a dot has no ending. -/
def hasEnding (ending name : String) : Bool :=
  match (cut '.' name).reverse with
  | last :: stem => last == ending && ".".intercalate stem.reverse != ""
  | [] => false

end Path

end ClosureLift
