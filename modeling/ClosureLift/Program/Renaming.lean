import ClosureLift.Program.Basic

/-!
Giving classes other names. Every mention of a class follows: `this`, types, static targets,
interfaces, supertypes and the declarations of type parameters. Identifiers and display names stay,
and so does the name under which the front end filed an anonymous class.
-/
namespace ClosureLift

def TypeName.replace (source target name : TypeName) : TypeName :=
  if name = source then target else name

variable (σ : TypeName → TypeName)

def TypeParameter.rename (p : TypeParameter) : TypeParameter :=
  { p with declaration := σ p.declaration }

mutual

def Ty.rename : Ty → Ty
  | .scalar name => .scalar (σ name)
  | .parameter p => .parameter (p.rename σ)
  | .bound p value => .bound (p.rename σ) value.rename
  | .parameterized raw args => .parameterized (σ raw) (Ty.renameAll args)

def Ty.renameAll : List Ty → List Ty
  | [] => []
  | ty :: rest => ty.rename :: Ty.renameAll rest

end

def Variable.rename (x : Variable) : Variable := { x with ty := x.ty.rename σ }

def Field.rename (f : Field) : Field := { f with ty := f.ty.rename σ }

def Reference.rename : Reference → Reference
  | .variable decl => .variable (decl.rename σ)
  | .this cls => .this (σ cls)

mutual

def Expr.rename : Expr → Expr
  | .literal value => .literal value
  | .reference ref => .reference (ref.rename σ)
  | .assign target value => .assign target.rename value.rename
  | .fieldAccess receiver field ty => .fieldAccess receiver.rename field (ty.rename σ)
  | .methodCall receiver method args typeArgs ty =>
    .methodCall receiver.rename method (Expr.renameAll args) (Ty.renameAll σ typeArgs) (ty.rename σ)
  | .staticCall cls method args typeArgs ty =>
    .staticCall (σ cls) method (Expr.renameAll args) (Ty.renameAll σ typeArgs) (ty.rename σ)
  | .construct ty args => .construct (ty.rename σ) (Expr.renameAll args)
  | .operation op args ty => .operation op (Expr.renameAll args) (ty.rename σ)
  | .conditional condition ifTrue ifFalse ty =>
    .conditional condition.rename ifTrue.rename ifFalse.rename (ty.rename σ)
  | .lambda closure => .lambda closure.rename
  | .methodReference closure => .methodReference closure.rename
  | .anonymousClass closure => .anonymousClass closure.rename

def Expr.renameAll : List Expr → List Expr
  | [] => []
  | e :: rest => e.rename :: Expr.renameAll rest

def Lambda.rename : Lambda → Lambda
  | ⟨interface, method, params, returnType, body, span⟩ =>
    ⟨σ interface, method, params.map (·.rename σ), returnType.rename σ, Stmt.renameAll body, span⟩

def Target.rename : Target → Target
  | .static cls => .static (σ cls)
  | .instance receiver => .instance receiver.rename

def MethodReference.rename : MethodReference → MethodReference
  | ⟨interface, method, paramTypes, returnType, target, targetMethod, span⟩ =>
    ⟨σ interface, method, Ty.renameAll σ paramTypes, returnType.rename σ, target.rename,
      targetMethod, span⟩

def AnonymousClass.rename : AnonymousClass → AnonymousClass
  | ⟨name, superTypes, fields, methods, span⟩ =>
    ⟨name, superTypes.map σ, fields.map (·.rename σ), Method.renameAll methods, span⟩

def Method.rename : Method → Method
  | ⟨name, isStatic, typeParams, params, returnType, body⟩ =>
    ⟨name, isStatic, typeParams.map (·.rename σ), params.map (·.rename σ), returnType.rename σ,
      Stmt.renameAll body⟩

def Method.renameAll : List Method → List Method
  | [] => []
  | m :: rest => m.rename :: Method.renameAll rest

def Stmt.rename : Stmt → Stmt
  | .expr value => .expr value.rename
  | .ret none => .ret none
  | .ret (some value) => .ret (some value.rename)
  | .decl x init => .decl (x.rename σ) init.rename
  | .cond condition thenBranch elseBranch =>
    .cond condition.rename (Stmt.renameAll thenBranch) (Stmt.renameAll elseBranch)
  | .loop condition body => .loop condition.rename (Stmt.renameAll body)

def Stmt.renameAll : List Stmt → List Stmt
  | [] => []
  | s :: rest => s.rename :: Stmt.renameAll rest

end

def Constructor.rename (c : Constructor) : Constructor :=
  ⟨c.params.map (·.rename σ), Stmt.renameAll σ c.body⟩

def Class.rename (c : Class) : Class where
  name := σ c.name
  typeParams := c.typeParams.map (·.rename σ)
  superTypes := c.superTypes.map σ
  fields := c.fields.map (·.rename σ)
  constructor := c.constructor.rename σ
  methods := Method.renameAll σ c.methods
  span := c.span

end ClosureLift
