import ClosureLift.Program.Basic

/-!
A uniform view of the parts of a program. Children stand in the order of the text, so `preorder`
lists the parts in the order of first occurrence; every analysis is a fold over that list.
-/
namespace ClosureLift

inductive Node where
  | cls (value : Class)
  | field (value : Field)
  | constructor (value : Constructor)
  | method (value : Method)
  | stmt (value : Stmt)
  | expr (value : Expr)

namespace Node

def ofStmt : Stmt → List Node
  | .expr value => [.expr value]
  | .ret value => (value.map Node.expr).toList
  | .decl _ init => [.expr init]
  | .cond condition thenBranch elseBranch =>
    .expr condition :: (thenBranch.map .stmt ++ elseBranch.map .stmt)
  | .loop condition body => .expr condition :: body.map .stmt

def ofExpr : Expr → List Node
  | .literal _ | .reference _ => []
  | .assign target value => [.expr target, .expr value]
  | .fieldAccess receiver _ _ => [.expr receiver]
  | .methodCall receiver _ args _ _ => .expr receiver :: args.map .expr
  | .staticCall _ _ args _ _ | .construct _ args | .operation _ args _ => args.map .expr
  | .conditional condition ifTrue ifFalse _ => [.expr condition, .expr ifTrue, .expr ifFalse]
  | .lambda closure => closure.body.map .stmt
  | .methodReference closure =>
    match closure.target with
    | .static _ => []
    | .instance receiver => [.expr receiver]
  | .anonymousClass closure => closure.fields.map .field ++ closure.methods.map .method

def children : Node → List Node
  | .cls c => c.fields.map .field ++ .constructor c.constructor :: c.methods.map .method
  | .field _ => []
  | .constructor c => c.body.map .stmt
  | .method m => m.body.map .stmt
  | .stmt s => ofStmt s
  | .expr e => ofExpr e

/-- The variables that a part introduces for the parts under it. -/
def declares : Node → List Variable
  | .constructor c => c.params
  | .method m => m.params
  | .stmt (.decl x _) => [x]
  | .expr (.lambda closure) => closure.params
  | _ => []

def binds : Node → List TypeParameter
  | .cls c => c.typeParams
  | .method m => m.typeParams
  | _ => []

/-- The types written at a part itself: declared types, signatures, instantiated types and explicit
type arguments. -/
def types : Node → List Ty
  | .constructor c => c.params.map (·.ty)
  | .field f => [f.ty]
  | .method m => m.params.map (·.ty) ++ [m.returnType]
  | .stmt (.decl x _) => [x.ty]
  | .expr (.reference (.variable decl)) => [decl.ty]
  | .expr (.methodCall _ _ _ typeArgs _) | .expr (.staticCall _ _ _ typeArgs _) => typeArgs
  | .expr (.construct ty _) => [ty]
  | .expr (.lambda closure) => closure.params.map (·.ty) ++ [closure.returnType]
  | .expr (.methodReference closure) => closure.paramTypes ++ [closure.returnType]
  | _ => []

def reference? : Node → Option Reference
  | .expr (.reference ref) => some ref
  | _ => none

end Node

mutual

def Expr.nodes : Expr → List Node
  | .literal value => [.expr (.literal value)]
  | .reference ref => [.expr (.reference ref)]
  | .assign target value => .expr (.assign target value) :: (target.nodes ++ value.nodes)
  | .fieldAccess receiver field ty => .expr (.fieldAccess receiver field ty) :: receiver.nodes
  | .methodCall receiver method args typeArgs ty =>
    .expr (.methodCall receiver method args typeArgs ty) :: (receiver.nodes ++ Expr.nodesAll args)
  | .staticCall cls method args typeArgs ty =>
    .expr (.staticCall cls method args typeArgs ty) :: Expr.nodesAll args
  | .construct ty args => .expr (.construct ty args) :: Expr.nodesAll args
  | .operation op args ty => .expr (.operation op args ty) :: Expr.nodesAll args
  | .conditional condition ifTrue ifFalse ty =>
    .expr (.conditional condition ifTrue ifFalse ty) ::
      (condition.nodes ++ (ifTrue.nodes ++ ifFalse.nodes))
  | .lambda closure => .expr (.lambda closure) :: closure.bodyNodes
  | .methodReference closure => .expr (.methodReference closure) :: closure.receiverNodes
  | .anonymousClass closure => .expr (.anonymousClass closure) :: closure.memberNodes

def Expr.nodesAll : List Expr → List Node
  | [] => []
  | e :: rest => e.nodes ++ Expr.nodesAll rest

def Lambda.bodyNodes : Lambda → List Node
  | ⟨_, _, _, _, body, _⟩ => Stmt.nodesAll body

def MethodReference.receiverNodes : MethodReference → List Node
  | ⟨_, _, _, _, target, _, _⟩ => target.nodes

def Target.nodes : Target → List Node
  | .static _ => []
  | .instance receiver => receiver.nodes

def AnonymousClass.memberNodes : AnonymousClass → List Node
  | ⟨_, _, fields, methods, _⟩ => fields.map .field ++ Method.nodesAll methods

def Method.nodes : Method → List Node
  | ⟨name, isStatic, typeParams, params, returnType, body⟩ =>
    .method ⟨name, isStatic, typeParams, params, returnType, body⟩ :: Stmt.nodesAll body

def Method.nodesAll : List Method → List Node
  | [] => []
  | m :: rest => m.nodes ++ Method.nodesAll rest

def Stmt.nodes : Stmt → List Node
  | .expr value => .stmt (.expr value) :: value.nodes
  | .ret none => [.stmt (.ret none)]
  | .ret (some value) => .stmt (.ret (some value)) :: value.nodes
  | .decl x init => .stmt (.decl x init) :: init.nodes
  | .cond condition thenBranch elseBranch =>
    .stmt (.cond condition thenBranch elseBranch) ::
      (condition.nodes ++ (Stmt.nodesAll thenBranch ++ Stmt.nodesAll elseBranch))
  | .loop condition body =>
    .stmt (.loop condition body) :: (condition.nodes ++ Stmt.nodesAll body)

def Stmt.nodesAll : List Stmt → List Node
  | [] => []
  | s :: rest => s.nodes ++ Stmt.nodesAll rest

end

def Constructor.nodes (c : Constructor) : List Node :=
  .constructor c :: Stmt.nodesAll c.body

def Class.nodes (c : Class) : List Node :=
  .cls c :: (c.fields.map .field ++ c.constructor.nodes ++ Method.nodesAll c.methods)

namespace Node

def preorder : Node → List Node
  | .cls c => c.nodes
  | .field f => [.field f]
  | .constructor c => c.nodes
  | .method m => m.nodes
  | .stmt s => s.nodes
  | .expr e => e.nodes

def preorderAll (nodes : List Node) : List Node := nodes.flatMap preorder

end Node

/-- The class names and variables that a program declares, in the order of the text. A class counts
with its name before its members, an anonymous class likewise. -/
def Node.declaredIds : Node → List Identifier
  | .expr (.anonymousClass closure) => [Identifier.top.type closure.name]
  | node => node.declares.map (·.id)

def Class.declaredIds (c : Class) : List Identifier :=
  Identifier.top.type c.name :: c.nodes.flatMap Node.declaredIds

def Program.declaredIds (program : Program) : List Identifier :=
  program.classes.flatMap Class.declaredIds

end ClosureLift
