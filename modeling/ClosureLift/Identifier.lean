import ClosureLift.TypeName

/-!
Identifiers are paths from the root of a unit down to a declaration. Whether two variables are the
same is decided by their identifiers alone, never by their display names.
-/
namespace ClosureLift

inductive Segment where
  | type (name : String)
  | constructor
  | method (name : String)
  | variable (name : String)
  | this
  deriving DecidableEq

structure Identifier where
  segments : List Segment
  deriving DecidableEq

namespace Segment

def rank : Segment → Nat
  | .type _ => 0
  | .constructor => 1
  | .method _ => 2
  | .variable _ => 3
  | .this => 4

def name : Segment → String
  | .type name | .method name | .variable name => name
  | .constructor | .this => ""

def order (a b : Segment) : Ordering :=
  (compare a.rank b.rank).then (compare a.name b.name)

def display : Segment → String
  | .type name => name
  | .constructor => "<init>"
  | .method name => name ++ "()"
  | .variable name => name
  | .this => "this"

end Segment

namespace Identifier

def top : Identifier := ⟨[]⟩

def child (id : Identifier) (segment : Segment) : Identifier :=
  ⟨id.segments ++ [segment]⟩

def type (id : Identifier) (cls : TypeName) : Identifier := id.child (.type cls.qualified)
def constructor (id : Identifier) : Identifier := id.child .constructor
def method (id : Identifier) (name : String) : Identifier := id.child (.method name)
def var (id : Identifier) (name : String) : Identifier := id.child (.variable name)

def thisOf (cls : TypeName) : Identifier := (top.type cls).child .this

def parent? (id : Identifier) : Option Identifier :=
  if id.segments = [] then none else some ⟨id.segments.dropLast⟩

def selfAndAncestors (id : Identifier) : List Identifier :=
  (List.range (id.segments.length + 1)).reverse.map fun k => ⟨id.segments.take k⟩

def startsWith (id other : Identifier) : Bool :=
  other.segments.isPrefixOf id.segments

def order (a b : Identifier) : Ordering :=
  List.compareLex Segment.order a.segments b.segments

def display (id : Identifier) : String :=
  if id.segments = [] then "<top>" else "/".intercalate (id.segments.map Segment.display)

end Identifier

end ClosureLift
