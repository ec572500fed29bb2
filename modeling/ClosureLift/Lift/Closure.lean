import ClosureLift.Lift.Substitution
import ClosureLift.Program.Free
import ClosureLift.Program.Renaming

/-!
Making a class from a closure. The class has one field for each thing that the body captures, in the
order of first occurrence, a constructor that stores them, and the methods of the body with every
captured reference turned into a read of its field. Where the closure stood, an instance is built
from the captured values.
-/
namespace ClosureLift

/-- Lifting mints names in the table of the unit. A failed lift keeps the names it minted. -/
abbrev LiftM := ExceptT LiftError (StateM ScopeTable)

inductive Capture where
  | variable (decl : Variable)
  | this (cls : TypeName)
  /-- A value computed once, where the closure is created; the body knows it as `temporary`. -/
  | value (temporary : Variable) (init : Expr)

namespace Capture

def ofReference (values : List (Variable × Expr)) : Reference → Capture
  | .variable decl =>
    match values.find? fun v => v.1.id == decl.id with
    | some (temporary, init) => .value temporary init
    | none => .variable decl
  | .this cls => .this cls

def declaration : Capture → Variable
  | .variable decl => decl
  | .this cls => ⟨.thisOf cls, "this", .scalar cls⟩
  | .value temporary _ => temporary

def key (c : Capture) : Identifier := c.declaration.id

def ty (c : Capture) : Ty := c.declaration.ty

/-- The name that the field of a capture gets when nothing clashes with it. -/
def preferred (options : LiftOptions) : Capture → String
  | .variable decl => decl.name
  | .this _ => options.selfFieldName
  | .value temporary _ => temporary.name

def argument : Capture → Expr
  | .variable decl => .var decl
  | .this cls => .this cls
  | .value _ init => init

end Capture

structure Slot where
  capture : Capture
  preferred : String
  field : String

namespace Slot

/-- Gives each capture a field that neither the class nor an earlier capture has. -/
def assign (options : LiftOptions) : List String → List Capture → List Slot
  | _, [] => []
  | taken, c :: rest =>
    let preferred := c.preferred options
    let field := freshName taken.contains taken.length preferred
    ⟨c, preferred, field⟩ :: assign options (field :: taken) rest

def isRenamed (slot : Slot) : Bool := slot.preferred != slot.field

def access (slot : Slot) (owner : TypeName) : Expr :=
  .fieldAccess (.this owner) slot.field slot.capture.ty

def toField (slot : Slot) : Field := ⟨slot.field, slot.capture.ty, false⟩

end Slot

structure Lifted where
  cls : Class
  slots : List Slot

namespace Lifted

def capturedVariables (lifted : Lifted) : List Variable :=
  lifted.slots.map (·.capture.declaration)

def type (lifted : Lifted) : Ty :=
  let params := lifted.cls.typeParams
  if params = [] then .scalar lifted.cls.name
  else .parameterized lifted.cls.name (params.map .parameter)

def construction (lifted : Lifted) : Expr :=
  .construct lifted.type (lifted.slots.map (·.capture.argument))

end Lifted

/-- A class that is to be lifted, before its captures are known. `own` is the class whose instance
stays bound inside the body. -/
structure Shape where
  name : TypeName
  superTypes : List TypeName
  fields : List Field
  methods : List Method
  own : Option TypeName
  span : Span

namespace Shape

def nodes (shape : Shape) : List Node := shape.fields.map .field ++ shape.methods.map .method

def slots (shape : Shape) (values : List (Variable × Expr)) (options : LiftOptions) : List Slot :=
  Slot.assign options (shape.fields.map (·.name))
    ((freeReferences shape.own shape.nodes).map (Capture.ofReference values))

def substitution (shape : Shape) (slots : List Slot) : Substitution :=
  slots.map fun slot => (slot.capture.key, slot.access shape.name)

def liftedMethods (shape : Shape) (slots : List Slot) : Except LiftError (List Method) :=
  shape.methods.mapM fun m =>
    match Stmt.substituteAll (shape.substitution slots) m.body with
    | .ok body => .ok { m with body }
    | .error e => .error (e.locate shape.span)

def mintParams (scope : Identifier) : List Slot → StateM ScopeTable (List Variable)
  | [] => return []
  | slot :: rest => do
    let x ← modifyGet fun table => table.freshVariable scope slot.preferred slot.capture.ty
    return x :: (← mintParams scope rest)

def storing (shape : Shape) (slots : List Slot) (params : List Variable) : List Stmt :=
  List.zipWith (fun slot x => .expr (.assign (slot.access shape.name) (.var x))) slots params

def lift (shape : Shape) (scope : Identifier) (values : List (Variable × Expr))
    (options : LiftOptions) : LiftM Lifted := do
  let slots := shape.slots values options
  let methods ← liftExcept (shape.liftedMethods slots)
  let params ← mintParams (scope.type shape.name).constructor slots
  let cls : Class :=
    { name := shape.name
      typeParams := freeTypeParameters shape.nodes
      superTypes := shape.superTypes
      fields := shape.fields ++ slots.map Slot.toField
      constructor := ⟨params, shape.storing slots params⟩
      methods
      span := shape.span }
  return ⟨cls, slots⟩
where
  liftExcept {α : Type} : Except LiftError α → LiftM α
    | .ok a => return a
    | .error e => throw e

end Shape

structure ClosureBody where
  interface : TypeName
  method : String
  params : List Variable
  returnType : Ty
  body : List Stmt
  fields : List Field
  span : Span

def Lambda.toBody (closure : Lambda) : ClosureBody :=
  { closure with fields := [] }

namespace ClosureBody

def shape (closure : ClosureBody) (name : TypeName) : Shape where
  name := name
  superTypes := [closure.interface]
  fields := closure.fields
  methods := [⟨closure.method, false, [], closure.params, closure.returnType, closure.body⟩]
  own := none
  span := closure.span

def lift (closure : ClosureBody) (scope : Identifier) (enclosing : TypeName)
    (options : LiftOptions) : LiftM Lifted := do
  if closure.method = "" then throw ⟨.missingFunctionalMethod, closure.span⟩
  let name ← modifyGet (·.freshClassName enclosing)
  (closure.shape name).lift scope [] options

end ClosureBody

namespace AnonymousClass

/-- The class under its new name; its mentions of itself follow. -/
def shape (closure : AnonymousClass) (name : TypeName) : Shape where
  name := name
  superTypes := closure.superTypes
  fields := closure.fields.map (·.rename (closure.name.replace name))
  methods := Method.renameAll (closure.name.replace name) closure.methods
  own := some name
  span := closure.span

def lift (closure : AnonymousClass) (scope : Identifier) (enclosing : TypeName)
    (options : LiftOptions) : LiftM Lifted := do
  let name ← modifyGet (·.freshClassName enclosing)
  (closure.shape name).lift scope [] options

end AnonymousClass

namespace MethodReference

def mintArguments (scope : Identifier) : Nat → List Ty → StateM ScopeTable (List Variable)
  | _, [] => return []
  | k, ty :: rest => do
    let x ← modifyGet fun table => table.freshVariable scope s!"arg{k}" ty
    return x :: (← mintArguments scope (k + 1) rest)

/-- The forwarding call. A receiver that is not a plain reference is computed where the reference is
created, and the call reads it from a temporary. -/
def call (closure : MethodReference) (scope : Identifier) (args : List Expr) :
    StateM ScopeTable (Expr × List (Variable × Expr)) := do
  match closure.target with
  | .static cls => return (.staticCall cls closure.targetMethod args [] closure.returnType, [])
  | .instance (.reference ref) =>
    return (.methodCall (.reference ref) closure.targetMethod args [] closure.returnType, [])
  | .instance receiver =>
    let temporary ← modifyGet fun table => table.freshTemporary scope receiver.ty
    return (.methodCall (.var temporary) closure.targetMethod args [] closure.returnType,
      [(temporary, receiver)])

def forwarding (closure : MethodReference) (call : Expr) : List Stmt :=
  if closure.returnType = .unit then [.expr call, .ret none] else [.ret (some call)]

def toBody (closure : MethodReference) (params : List Variable) (call : Expr) : ClosureBody where
  interface := closure.interface
  method := closure.method
  params := params
  returnType := closure.returnType
  body := closure.forwarding call
  fields := []
  span := closure.span

def lift (closure : MethodReference) (scope : Identifier) (enclosing : TypeName)
    (options : LiftOptions) : LiftM Lifted := do
  if closure.method = "" then throw ⟨.missingFunctionalMethod, closure.span⟩
  let name ← modifyGet (·.freshClassName enclosing)
  let inner := (scope.type name).method closure.method
  let params ← mintArguments inner 0 closure.paramTypes
  let (call, values) ← closure.call inner (params.map .var)
  ((closure.toBody params call).shape name).lift scope values options

end MethodReference

end ClosureLift
