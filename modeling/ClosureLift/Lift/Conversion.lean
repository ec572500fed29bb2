import ClosureLift.Codec.Program
import ClosureLift.Lift.Report

/-!
Lifting every closure of a program. The parts of a class are visited in the order of the text and
inner closures are lifted before the closure around them, so a body that is being lifted holds none.
Each visit gives the part without closures and the closures lifted out of it, in that order. A
program can also be given as text.
-/
namespace ClosureLift

structure Extract where
  cls : Class
  report : LiftReport

namespace Extract

def rename (σ : TypeName → TypeName) (extract : Extract) : Extract :=
  { extract with cls := extract.cls.rename σ }

end Extract

def locating (span : Span) (step : LiftM α) : LiftM α :=
  tryCatch step fun e => throw (e.locate span)

/-- Replaces a closure by the construction of its class. What was lifted out of its body, which may
depend on the name of the class, comes before the class. -/
def extracted (inner : TypeName → List Extract) (form : ClosureForm) (enclosing : TypeName)
    (span : Span) (step : LiftM Lifted) : LiftM (Expr × List Extract) := do
  let lifted ← locating span step
  return (lifted.construction,
    inner lifted.cls.name ++ [⟨lifted.cls, .ofLifted lifted form enclosing span⟩])

section

variable (options : LiftOptions) (enclosing : TypeName)

mutual

def Expr.convert (scope : Identifier) : Expr → LiftM (Expr × List Extract)
  | .literal value => return (.literal value, [])
  | .reference ref => return (.reference ref, [])
  | .assign target value => do
    let (target, first) ← target.convert scope
    let (value, second) ← value.convert scope
    return (.assign target value, first ++ second)
  | .fieldAccess receiver field ty => do
    let (receiver, inner) ← receiver.convert scope
    return (.fieldAccess receiver field ty, inner)
  | .methodCall receiver method args typeArgs ty => do
    let (receiver, first) ← receiver.convert scope
    let (args, second) ← Expr.convertAll scope args
    return (.methodCall receiver method args typeArgs ty, first ++ second)
  | .staticCall cls method args typeArgs ty => do
    let (args, inner) ← Expr.convertAll scope args
    return (.staticCall cls method args typeArgs ty, inner)
  | .construct ty args => do
    let (args, inner) ← Expr.convertAll scope args
    return (.construct ty args, inner)
  | .operation op args ty => do
    let (args, inner) ← Expr.convertAll scope args
    return (.operation op args ty, inner)
  | .conditional condition ifTrue ifFalse ty => do
    let (condition, first) ← condition.convert scope
    let (ifTrue, second) ← ifTrue.convert scope
    let (ifFalse, third) ← ifFalse.convert scope
    return (.conditional condition ifTrue ifFalse ty, first ++ second ++ third)
  | .lambda closure => closure.convert scope
  | .methodReference closure => closure.convert scope
  | .anonymousClass closure => closure.convert scope

def Expr.convertAll (scope : Identifier) : List Expr → LiftM (List Expr × List Extract)
  | [] => return ([], [])
  | e :: rest => do
    let (e, first) ← e.convert scope
    let (rest, second) ← Expr.convertAll scope rest
    return (e :: rest, first ++ second)

def Lambda.convert (scope : Identifier) : Lambda → LiftM (Expr × List Extract)
  | ⟨interface, method, params, returnType, body, span⟩ => do
    let (body, inner) ← Stmt.convertAll scope body
    let closure : Lambda := ⟨interface, method, params, returnType, body, span⟩
    extracted (fun _ => inner) .lambda enclosing span (closure.toBody.lift scope enclosing options)

def Target.convert (scope : Identifier) : Target → LiftM (Target × List Extract)
  | .static cls => return (.static cls, [])
  | .instance receiver => do
    let (receiver, inner) ← receiver.convert scope
    return (.instance receiver, inner)

def MethodReference.convert (scope : Identifier) : MethodReference → LiftM (Expr × List Extract)
  | ⟨interface, method, paramTypes, returnType, target, targetMethod, span⟩ => do
    let (target, inner) ← target.convert scope
    let closure : MethodReference :=
      ⟨interface, method, paramTypes, returnType, target, targetMethod, span⟩
    extracted (fun _ => inner) .methodReference enclosing span
      (closure.lift scope enclosing options)

/-- Closures in the body are named after the class around the anonymous one, and what they say about
the latter follows it to its new name. -/
def AnonymousClass.convert (scope : Identifier) : AnonymousClass → LiftM (Expr × List Extract)
  | ⟨name, superTypes, fields, methods, span⟩ => do
    let (methods, inner) ← Method.convertAll (scope.type name) methods
    let closure : AnonymousClass := ⟨name, superTypes, fields, methods, span⟩
    extracted (fun lifted => inner.map (·.rename (name.replace lifted))) .anonymousClass enclosing
      span (closure.lift scope enclosing options)

def Method.convert (scope : Identifier) : Method → LiftM (Method × List Extract)
  | ⟨name, isStatic, typeParams, params, returnType, body⟩ => do
    let (body, inner) ← Stmt.convertAll (scope.method name) body
    return (⟨name, isStatic, typeParams, params, returnType, body⟩, inner)

def Method.convertAll (scope : Identifier) : List Method → LiftM (List Method × List Extract)
  | [] => return ([], [])
  | m :: rest => do
    let (m, first) ← m.convert scope
    let (rest, second) ← Method.convertAll scope rest
    return (m :: rest, first ++ second)

def Stmt.convert (scope : Identifier) : Stmt → LiftM (Stmt × List Extract)
  | .expr value => do
    let (value, inner) ← value.convert scope
    return (.expr value, inner)
  | .ret none => return (.ret none, [])
  | .ret (some value) => do
    let (value, inner) ← value.convert scope
    return (.ret (some value), inner)
  | .decl x init => do
    let (init, inner) ← init.convert scope
    return (.decl x init, inner)
  | .cond condition thenBranch elseBranch => do
    let (condition, first) ← condition.convert scope
    let (thenBranch, second) ← Stmt.convertAll scope thenBranch
    let (elseBranch, third) ← Stmt.convertAll scope elseBranch
    return (.cond condition thenBranch elseBranch, first ++ second ++ third)
  | .loop condition body => do
    let (condition, first) ← condition.convert scope
    let (body, second) ← Stmt.convertAll scope body
    return (.loop condition body, first ++ second)

def Stmt.convertAll (scope : Identifier) : List Stmt → LiftM (List Stmt × List Extract)
  | [] => return ([], [])
  | s :: rest => do
    let (s, first) ← s.convert scope
    let (rest, second) ← Stmt.convertAll scope rest
    return (s :: rest, first ++ second)

end

end

def Class.convert (options : LiftOptions) (c : Class) : LiftM (Class × List Extract) := do
  let scope := Identifier.top.type c.name
  let (body, first) ← Stmt.convertAll options c.name scope.constructor c.constructor.body
  let (methods, second) ← Method.convertAll options c.name scope c.methods
  return ({ c with constructor := { c.constructor with body }, methods }, first ++ second)

def Class.convertAll (options : LiftOptions) : List Class → LiftM (List Class × List Extract)
  | [] => return ([], [])
  | c :: rest => do
    let (c, first) ← locating c.span (c.convert options)
    let (rest, second) ← Class.convertAll options rest
    return (c :: rest, first ++ second)

structure Conversion where
  program : Program
  reports : List LiftReport

namespace Conversion

def warnings (c : Conversion) : List Diagnostic := c.reports.flatMap LiftReport.warnings

end Conversion

def Program.convert (program : Program) (options : LiftOptions) : Except LiftError Conversion :=
  match (ScopeTable.empty options.temporaryName).reserveProgram program with
  | (.error e, _) => .error (.ofScope e)
  | (.ok (), table) =>
    match (Class.convertAll options program.classes).run.run table with
    | (.error e, _) => .error e
    | (.ok (classes, extracts), _) =>
      .ok { program := { program with classes := classes ++ extracts.map (·.cls) }
            reports := extracts.map (·.report) }

structure Wording where
  reason : String
  place : String

def Wording.standard : Wording := ⟨"not the JSON form of a program", "in the given text"⟩

structure Rejection where
  diagnostic : Diagnostic
  files : SourceFiles

def Wording.rejection (wording : Wording) : Rejection where
  diagnostic :=
    { Diagnostic.new .malformedInput s!"malformed program: {wording.reason}" with
      notes := [wording.place] }
  files := ⟨[]⟩

def Program.ofText? (text : String) : Option Program := decodeText? (Program.ofJson? .listed) text

def liftText (wording : Wording) (options : LiftOptions) (text : String) :
    Except Rejection Conversion :=
  match Program.ofText? text with
  | none => .error wording.rejection
  | some program =>
    match program.convert options with
    | .ok conversion => .ok conversion
    | .error e => .error ⟨e.toDiagnostic, program.files⟩

end ClosureLift
