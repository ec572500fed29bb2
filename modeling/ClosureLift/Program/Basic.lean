import ClosureLift.Identifier
import ClosureLift.Source
import ClosureLift.Ty

/-!
Programs: classes with fields, a constructor and methods, and the statements and expressions of
their bodies. A closure literal is a lambda, a method reference or an anonymous class; lifting
removes all three.
-/
namespace ClosureLift

structure Variable where
  id : Identifier
  name : String
  ty : Ty
  deriving DecidableEq

structure Field where
  name : String
  ty : Ty
  isStatic : Bool
  deriving DecidableEq

inductive Reference where
  | variable (decl : Variable)
  | this (cls : TypeName)
  deriving DecidableEq

inductive Literal where
  | unit
  | boolean (value : Bool)
  | integer (value : Int64)
  | string (value : String)
  deriving DecidableEq

inductive Operator where
  | add | subtract | multiply | divide | modulus
  | equals | notEquals | greater | greaterOrEqual | less | lessOrEqual
  | booleanNot | booleanAnd | booleanOr
  deriving DecidableEq

mutual

inductive Expr where
  | literal (value : Literal)
  | reference (ref : Reference)
  | assign (target value : Expr)
  | fieldAccess (receiver : Expr) (field : String) (ty : Ty)
  | methodCall (receiver : Expr) (method : String) (args : List Expr) (typeArgs : List Ty) (ty : Ty)
  | staticCall (cls : TypeName) (method : String) (args : List Expr) (typeArgs : List Ty) (ty : Ty)
  | construct (ty : Ty) (args : List Expr)
  | operation (op : Operator) (args : List Expr) (ty : Ty)
  | conditional (condition ifTrue ifFalse : Expr) (ty : Ty)
  | lambda (closure : Lambda)
  | methodReference (closure : MethodReference)
  | anonymousClass (closure : AnonymousClass)

inductive Stmt where
  | expr (value : Expr)
  | ret (value : Option Expr)
  | decl (x : Variable) (init : Expr)
  | cond (condition : Expr) (thenBranch elseBranch : List Stmt)
  | loop (condition : Expr) (body : List Stmt)

structure Lambda where
  interface : TypeName
  method : String
  params : List Variable
  returnType : Ty
  body : List Stmt
  span : Span

/-- What a method reference calls: a static method of a class, or a method of a receiver that is
evaluated once, where the reference is created. -/
inductive Target where
  | static (cls : TypeName)
  | instance (receiver : Expr)

structure MethodReference where
  interface : TypeName
  method : String
  paramTypes : List Ty
  returnType : Ty
  target : Target
  targetMethod : String
  span : Span

/-- A class body in place of an expression, under the name that the front end gave it. -/
structure AnonymousClass where
  name : TypeName
  superTypes : List TypeName
  fields : List Field
  methods : List Method
  span : Span

structure Method where
  name : String
  isStatic : Bool
  typeParams : List TypeParameter
  params : List Variable
  returnType : Ty
  body : List Stmt

end

structure Constructor where
  params : List Variable
  body : List Stmt

structure Class where
  name : TypeName
  typeParams : List TypeParameter
  superTypes : List TypeName
  fields : List Field
  constructor : Constructor
  methods : List Method
  span : Span

/-- A compilation unit. Classes made from closures go to the end of `classes`. -/
structure Program where
  name : String
  files : SourceFiles
  classes : List Class

namespace Reference

/-- What is read: a variable by its identifier, an instance by its class. -/
def key : Reference → Identifier
  | .variable decl => decl.id
  | .this cls => .thisOf cls

def ty : Reference → Ty
  | .variable decl => decl.ty
  | .this cls => .scalar cls

end Reference

def Literal.ty : Literal → Ty
  | .unit => .unit
  | .boolean _ => .boolean
  | .integer _ => .integer
  | .string _ => .string

namespace Operator

def symbol : Operator → String
  | .add => "+"
  | .subtract => "-"
  | .multiply => "*"
  | .divide => "/"
  | .modulus => "%"
  | .equals => "=="
  | .notEquals => "!="
  | .greater => ">"
  | .greaterOrEqual => ">="
  | .less => "<"
  | .lessOrEqual => "<="
  | .booleanNot => "!"
  | .booleanAnd => "&&"
  | .booleanOr => "||"

end Operator

namespace Expr

def var (decl : Variable) : Expr := .reference (.variable decl)

def this (cls : TypeName) : Expr := .reference (.this cls)

/-- The static type; an assignment has the type of its value. -/
def ty : Expr → Ty
  | .literal value => value.ty
  | .reference ref => ref.ty
  | .assign _ value => value.ty
  | .fieldAccess _ _ ty | .methodCall _ _ _ _ ty | .staticCall _ _ _ _ ty | .construct ty _
  | .operation _ _ ty | .conditional _ _ _ ty => ty
  | .lambda closure => .scalar closure.interface
  | .methodReference closure => .scalar closure.interface
  | .anonymousClass closure => .scalar closure.name

def closureSpan? : Expr → Option Span
  | .lambda closure => some closure.span
  | .methodReference closure => some closure.span
  | .anonymousClass closure => some closure.span
  | _ => none

def isClosure (e : Expr) : Bool := e.closureSpan?.isSome

end Expr

namespace Class

/-- The first method of that name with that many parameters. -/
def method? (cls : Class) (name : String) (arity : Nat) : Option Method :=
  cls.methods.find? fun m => m.name == name && m.params.length == arity

def field? (cls : Class) (name : String) : Option Field :=
  cls.fields.find? (·.name == name)

end Class

def Program.class? (program : Program) (name : TypeName) : Option Class :=
  program.classes.find? (·.name == name)

end ClosureLift
