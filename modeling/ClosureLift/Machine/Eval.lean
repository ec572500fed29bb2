import ClosureLift.Machine.Operation

/-!
Running a program without closures. Statements and expressions are evaluated by recursion on
themselves; a call hands its callee to `Context.invoke`, which is the same evaluator with one level
of nesting less to spend. Only loops need a further bound, on the turns each of them may take.
-/
namespace ClosureLift

structure Limits where
  depth : Nat
  turns : Nat

structure Invocation where
  params : List Variable
  body : List Stmt
  this : Option Nat
  args : List Value

abbrev Locals := List (Identifier × Value)

namespace Locals

def get? (locals : Locals) (id : Identifier) : Option Value := locals.lookup id

def set : Locals → Identifier → Value → Locals
  | [], id, v => [(id, v)]
  | (k, w) :: rest, id, v => if k = id then (id, v) :: rest else (k, w) :: set rest id v

/-- The locals a body starts with. Of two parameters with one identifier the last counts. -/
def ofArguments (params : List Variable) (args : List Value) : Locals :=
  (params.zip args).foldl (fun locals (x, v) => locals.set x.id v) []

end Locals

/-- What a running body can change. Changes last, also if the body fails later. -/
structure Frame where
  heap : Heap
  locals : Locals

abbrev Eval := ExceptT Stop (StateM Frame)

namespace Eval

def fault (error : EvalError) : Eval α := throw (.fault error)

def ofExcept : Except EvalError α → Eval α
  | .ok a => return a
  | .error e => fault e

end Eval

open Eval

inductive Flow where
  | normal
  | returned (value : Value)

structure Context where
  program : Program
  limits : Limits
  this : Option Nat
  invoke : Invocation → Heap → Except Stop Value × Heap

namespace Program

/-- The class that a name means at run time: the last of that name. -/
def runtimeClass (program : Program) (name : TypeName) : Except EvalError Class :=
  match program.classes.reverse.find? (·.name == name) with
  | some cls => .ok cls
  | none => .error (.unknownClass name)

end Program

def Class.callee (cls : Class) (method : String) (args : List Value) : Except EvalError Method :=
  match cls.method? method args.length with
  | some m => .ok m
  | none => .error (.unknownMethod cls.name method args.length)

namespace Context

def call (ctx : Context) (invocation : Invocation) : Eval Value := do
  let frame ← get
  let (result, heap) := ctx.invoke invocation frame.heap
  set { frame with heap }
  MonadExcept.ofExcept result

def callStatic (ctx : Context) (cls : TypeName) (method : String) (args : List Value) :
    Eval Value := do
  let cls ← ofExcept (ctx.program.runtimeClass cls)
  let m ← ofExcept (cls.callee method args)
  ctx.call ⟨m.params, m.body, none, args⟩

def callMethod (ctx : Context) (receiver : Value) (method : String) (args : List Value) :
    Eval Value := do
  let heap := (← get).heap
  match receiver with
  | .object address =>
    let cls ← ofExcept (ctx.program.runtimeClass (heap.className address))
    let m ← ofExcept (cls.callee method args)
    ctx.call ⟨m.params, m.body, some address, args⟩
  | other => fault (.notAnObject (other.typeName heap))

def construct (ctx : Context) (ty : Ty) (args : List Value) : Eval Value := do
  match ty.erasure? with
  | none => fault (.notInstantiable ty)
  | some name =>
    let cls ← ofExcept (ctx.program.runtimeClass name)
    if cls.constructor.params.length ≠ args.length then
      fault (.unknownMethod cls.name "<init>" args.length)
    else
      let address ← modifyGet fun frame =>
        let (address, heap) := frame.heap.alloc (.new cls)
        (address, { frame with heap })
      discard (ctx.call ⟨cls.constructor.params, cls.constructor.body, some address, args⟩)
      return .object address

def self (ctx : Context) (cls : TypeName) : Eval Value := do
  let heap := (← get).heap
  match ctx.this with
  | some address =>
    if heap.className address = cls then return .object address else fault (.missingThis cls)
  | none => fault (.missingThis cls)

end Context

namespace Eval

def readVariable (x : Variable) : Eval Value := do
  match (← get).locals.get? x.id with
  | some v => return v
  | none => fault (.unboundVariable x.name)

def writeVariable (x : Variable) (v : Value) : Eval Unit :=
  modify fun frame => { frame with locals := frame.locals.set x.id v }

def objectOf (v : Value) : Eval (Nat × Object) := do
  let heap := (← get).heap
  match v with
  | .object address => return (address, (heap.object? address).getD ⟨heap.className address, []⟩)
  | other => fault (.notAnObject (other.typeName heap))

def readField (receiver : Value) (field : String) : Eval Value := do
  let (_, object) ← objectOf receiver
  match object.fields.lookup field with
  | some v => return v
  | none => fault (.unknownField object.cls field)

def writeField (receiver : Value) (field : String) (v : Value) : Eval Unit := do
  let (address, object) ← objectOf receiver
  match object.fields.lookup field with
  | some _ =>
    modify fun frame => { frame with
      heap := frame.heap.set address { object with fields := setField object.fields field v } }
  | none => fault (.unknownField object.cls field)

def truth (v : Value) : Eval Bool := do
  match v with
  | .boolean b => return b
  | other => fault (.conditionNotBoolean (other.typeName (← get).heap))

def operate (op : Operator) (operands : List Value) : Eval Value := do
  ofExcept (op.apply (← get).heap operands)

def iterate : Nat → Eval Bool → Eval Flow → Eval Flow
  | 0, _, _ => throw .outOfTurns
  | n + 1, condition, body => do
    if ← condition then
      match ← body with
      | .returned v => return .returned v
      | .normal => iterate n condition body
    else return .normal

end Eval

mutual

/-- The value of an expression. The operators for both and either look at their second operand only
if the first leaves the answer open, and an assignment computes its value before its target. -/
def Expr.eval (ctx : Context) : Expr → Eval Value
  | .literal value => return .ofLiteral value
  | .reference (.variable x) => readVariable x
  | .reference (.this cls) => ctx.self cls
  | .assign (.reference (.variable x)) value => do
    let v ← value.eval ctx
    writeVariable x v
    return v
  | .assign (.fieldAccess receiver field _) value => do
    let v ← value.eval ctx
    let receiver ← receiver.eval ctx
    writeField receiver field v
    return v
  | .assign _ value => do
    discard (value.eval ctx)
    fault .invalidAssignmentTarget
  | .fieldAccess receiver field _ => do
    let receiver ← receiver.eval ctx
    readField receiver field
  | .methodCall receiver method args _ _ => do
    let receiver ← receiver.eval ctx
    let args ← Expr.evalAll ctx args
    ctx.callMethod receiver method args
  | .staticCall cls method args _ _ => do
    let args ← Expr.evalAll ctx args
    ctx.callStatic cls method args
  | .construct ty args => do
    let args ← Expr.evalAll ctx args
    ctx.construct ty args
  | .operation .booleanAnd [left, right] _ => do
    if ← left.eval ctx >>= truth then
      return .boolean (← right.eval ctx >>= truth)
    else return .boolean false
  | .operation .booleanOr [left, right] _ => do
    if ← left.eval ctx >>= truth then return .boolean true
    else return .boolean (← right.eval ctx >>= truth)
  | .operation op args _ => do
    let operands ← Expr.evalAll ctx args
    operate op operands
  | .conditional condition ifTrue ifFalse _ => do
    if ← condition.eval ctx >>= truth then ifTrue.eval ctx else ifFalse.eval ctx
  | .lambda _ | .methodReference _ | .anonymousClass _ => fault .unliftedClosure

def Expr.evalAll (ctx : Context) : List Expr → Eval (List Value)
  | [] => return []
  | e :: rest => return (← e.eval ctx) :: (← Expr.evalAll ctx rest)

end

mutual

def Stmt.exec (ctx : Context) : Stmt → Eval Flow
  | .expr value => do
    discard (value.eval ctx)
    return .normal
  | .ret none => return .returned .unit
  | .ret (some value) => return .returned (← value.eval ctx)
  | .decl x init => do
    writeVariable x (← init.eval ctx)
    return .normal
  | .cond condition thenBranch elseBranch => do
    if ← condition.eval ctx >>= truth then Stmt.execAll ctx thenBranch
    else Stmt.execAll ctx elseBranch
  | .loop condition body =>
    iterate ctx.limits.turns (condition.eval ctx >>= truth) (Stmt.execAll ctx body)

def Stmt.execAll (ctx : Context) : List Stmt → Eval Flow
  | [] => return .normal
  | s :: rest => do
    match ← s.exec ctx with
    | .returned v => return .returned v
    | .normal => Stmt.execAll ctx rest

end

namespace Program

variable (program : Program) (limits : Limits)

/-- Runs a body with `n` levels of nesting left for it and the calls it makes. -/
def invoke : Nat → Invocation → Heap → Except Stop Value × Heap
  | 0, _, heap => (.error (.fault (.stackOverflow limits.depth)), heap)
  | n + 1, call, heap =>
    let ctx : Context := ⟨program, limits, call.this, invoke n⟩
    match (Stmt.execAll ctx call.body).run.run ⟨heap, .ofArguments call.params call.args⟩ with
    | (.ok (.returned v), frame) => (.ok v, frame.heap)
    | (.ok .normal, frame) => (.ok .unit, frame.heap)
    | (.error stop, frame) => (.error stop, frame.heap)

def outside : Context := ⟨program, limits, none, program.invoke limits limits.depth⟩

def perform (action : Context → Eval α) (heap : Heap) : Except Stop α × Heap :=
  let (result, frame) := (action (program.outside limits)).run.run ⟨heap, []⟩
  (result, frame.heap)

def callStatic (cls : TypeName) (method : String) (args : List Value) :=
  program.perform limits (·.callStatic cls method args)

def callMethod (receiver : Value) (method : String) (args : List Value) :=
  program.perform limits (·.callMethod receiver method args)

def construct (ty : Ty) (args : List Value) :=
  program.perform limits (·.construct ty args)

end Program

/-- The nesting that calls are granted, and turns beyond what any run can take in practice. -/
def Limits.standard : Limits := ⟨64, Nat.pow 2 62⟩

end ClosureLift
