import ClosureLift.Program.Node
import ClosureLift.Sorted

/-!
What a piece of a program takes from outside. A variable is free unless some part of the piece
declares it, be it a closure inside; the instance of a class is free unless the piece is the body of
that class. A type parameter is free unless some part of the piece binds it.
-/
namespace ClosureLift

/-- Keeps the first of the elements with equal keys, and none whose key was seen before. -/
def distinct [BEq κ] (key : α → κ) (seen : List κ) : List α → List α
  | [] => []
  | a :: rest =>
    if seen.contains (key a) then distinct key seen rest
    else a :: distinct key (key a :: seen) rest

namespace Reference

def isFree (declared : List Identifier) (own : Option TypeName) : Reference → Bool
  | .variable decl => !declared.contains decl.id
  | .this cls => own != some cls

def decl? : Reference → Option Variable
  | .variable decl => some decl
  | .this _ => none

end Reference

namespace TypeParameter

def order (p q : TypeParameter) : Ordering :=
  (compare p.declaration.qualified q.declaration.qualified).then (compare p.name q.name)

end TypeParameter

/-- The references that leave the piece, each once, in the order of first occurrence. -/
def freeReferences (own : Option TypeName) (nodes : List Node) : List Reference :=
  let parts := Node.preorderAll nodes
  let declared := (parts.flatMap Node.declares).map (·.id)
  distinct Reference.key [] ((parts.filterMap Node.reference?).filter (·.isFree declared own))

def freeVariables (nodes : List Node) : List Variable :=
  (freeReferences none nodes).filterMap Reference.decl?

/-- The type parameters that the piece mentions without binding them, in ascending order. -/
def freeTypeParameters (nodes : List Node) : List TypeParameter :=
  let parts := Node.preorderAll nodes
  let bound := parts.flatMap Node.binds
  let mentioned := (parts.flatMap Node.types).flatMap Ty.parameters
  sorted TypeParameter.order (mentioned.filter fun p => !bound.contains p)

end ClosureLift
