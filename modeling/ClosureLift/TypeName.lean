/-!
Qualified class names. A class made from a closure is called `Origin_Anonymous_k`, where `k` counts
and `Origin` is a name that somebody wrote; `origin` recovers it from any chain of such endings.
-/
namespace ClosureLift

structure TypeName where
  qualified : String
  deriving DecidableEq

namespace TypeName

def mark : List Char := "_Anonymous_".toList

/-- The characters before and after the last mark. -/
def lastMark? : List Char → Option (List Char × List Char)
  | [] => none
  | c :: rest =>
    match lastMark? rest with
    | some (before, after) => some (c :: before, after)
    | none => (mark.isPrefixOf? (c :: rest)).map fun after => ([], after)

/-- The characters before the last mark, if it is followed by a counter and nothing else. -/
def base? (name : List Char) : Option (List Char) :=
  match lastMark? name with
  | some (before, counter) =>
    if counter ≠ [] ∧ counter.all Char.isDigit then some before else none
  | none => none

def stripped : Nat → List Char → List Char
  | 0, name => name
  | n + 1, name =>
    match base? name with
    | some rest => stripped n rest
    | none => name

def isSynthesized (name : TypeName) : Bool :=
  (base? name.qualified.toList).isSome

/-- The nearest name that was not synthesized. Each ending has several characters, so a name has
fewer endings than characters. -/
def origin (name : TypeName) : TypeName :=
  ⟨String.ofList (stripped name.qualified.length name.qualified.toList)⟩

def own (name : TypeName) : String :=
  String.ofList (name.qualified.toList.reverse.takeWhile (· != '.')).reverse

def package? (name : TypeName) : Option String :=
  match name.qualified.toList.reverse.dropWhile (· != '.') with
  | [] => none
  | _ :: rest => some (String.ofList rest.reverse)

/-- The name of the `k`-th class synthesized in the unit, for a closure inside `enclosing`. -/
def synthesized (enclosing : TypeName) (k : Nat) : TypeName :=
  ⟨enclosing.origin.qualified ++ String.ofList mark ++ toString k⟩

end TypeName

end ClosureLift
