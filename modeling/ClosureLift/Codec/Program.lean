import ClosureLift.Codec.Basic
import ClosureLift.Json.Reader

/-!
The JSON form of programs. Writing gives every field in its declared order; reading takes fields in
any order and fills in those that have a default. Decoders of nested parts count down the depth of
the value they are given.
-/
namespace ClosureLift

mutual

def Expr.toJson : Expr → Json
  | .literal value => .obj [("literal", value.toJson)]
  | .reference ref => .obj [("reference", ref.toJson)]
  | .assign target value =>
    .obj [("assign", .obj [("target", target.toJson), ("value", value.toJson)])]
  | .fieldAccess receiver field ty =>
    .obj [("field_access", .obj [("receiver", receiver.toJson), ("field", .str field),
      ("ty", ty.toJson)])]
  | .methodCall receiver method args typeArgs ty =>
    .obj [("method_call", .obj [("receiver", receiver.toJson), ("method", .str method),
      ("args", .arr (Expr.toJsonAll args)), ("type_args", .arr (typeArgs.map Ty.toJson)),
      ("ty", ty.toJson)])]
  | .staticCall cls method args typeArgs ty =>
    .obj [("static_method_call", .obj [("class", cls.toJson), ("method", .str method),
      ("args", .arr (Expr.toJsonAll args)), ("type_args", .arr (typeArgs.map Ty.toJson)),
      ("ty", ty.toJson)])]
  | .construct ty args =>
    .obj [("constructor_call", .obj [("ty", ty.toJson), ("args", .arr (Expr.toJsonAll args))])]
  | .operation op args ty =>
    .obj [("operation", .obj [("operator", op.toJson), ("args", .arr (Expr.toJsonAll args)),
      ("ty", ty.toJson)])]
  | .conditional condition ifTrue ifFalse ty =>
    .obj [("conditional", .obj [("condition", condition.toJson), ("if_true", ifTrue.toJson),
      ("if_false", ifFalse.toJson), ("ty", ty.toJson)])]
  | .lambda closure => .obj [("lambda", closure.toJson)]
  | .methodReference closure => .obj [("method_reference", closure.toJson)]
  | .anonymousClass closure => .obj [("anonymous_class", closure.toJson)]

def Expr.toJsonAll : List Expr → List Json
  | [] => []
  | e :: rest => e.toJson :: Expr.toJsonAll rest

def Lambda.toJson : Lambda → Json
  | ⟨interface, method, params, returnType, body, span⟩ =>
    .obj [("interface", interface.toJson), ("method", .str method),
      ("params", .arr (params.map Variable.toJson)), ("return_type", returnType.toJson),
      ("body", .arr (Stmt.toJsonAll body)), ("span", span.toJson)]

def Target.toJson : Target → Json
  | .static cls => .obj [("static", cls.toJson)]
  | .instance receiver => .obj [("instance", receiver.toJson)]

def MethodReference.toJson : MethodReference → Json
  | ⟨interface, method, paramTypes, returnType, target, targetMethod, span⟩ =>
    .obj [("interface", interface.toJson), ("method", .str method),
      ("param_types", .arr (paramTypes.map Ty.toJson)), ("return_type", returnType.toJson),
      ("target", target.toJson), ("target_method", .str targetMethod), ("span", span.toJson)]

def AnonymousClass.toJson : AnonymousClass → Json
  | ⟨name, superTypes, fields, methods, span⟩ =>
    .obj [("class", name.toJson), ("super_types", .arr (superTypes.map TypeName.toJson)),
      ("fields", .arr (fields.map Field.toJson)), ("methods", .arr (Method.toJsonAll methods)),
      ("span", span.toJson)]

def Method.toJson : Method → Json
  | ⟨name, isStatic, typeParams, params, returnType, body⟩ =>
    .obj [("name", .str name), ("is_static", .bool isStatic),
      ("type_params", .arr (typeParams.map TypeParameter.toJson)),
      ("params", .arr (params.map Variable.toJson)), ("return_type", returnType.toJson),
      ("body", .arr (Stmt.toJsonAll body))]

def Method.toJsonAll : List Method → List Json
  | [] => []
  | m :: rest => m.toJson :: Method.toJsonAll rest

def Stmt.toJson : Stmt → Json
  | .expr value => .obj [("expr", value.toJson)]
  | .ret none => .obj [("return", .null)]
  | .ret (some value) => .obj [("return", value.toJson)]
  | .decl x init => .obj [("local", .obj [("declaration", x.toJson), ("init", init.toJson)])]
  | .cond condition thenBranch elseBranch =>
    .obj [("if", .obj [("condition", condition.toJson),
      ("then_branch", .arr (Stmt.toJsonAll thenBranch)),
      ("else_branch", .arr (Stmt.toJsonAll elseBranch))])]
  | .loop condition body =>
    .obj [("while", .obj [("condition", condition.toJson), ("body", .arr (Stmt.toJsonAll body))])]

def Stmt.toJsonAll : List Stmt → List Json
  | [] => []
  | s :: rest => s.toJson :: Stmt.toJsonAll rest

end

def Constructor.toJson (c : Constructor) : Json :=
  .obj [("params", .arr (c.params.map Variable.toJson)), ("body", .arr (Stmt.toJsonAll c.body))]

def Class.toJson (c : Class) : Json :=
  .obj [("name", c.name.toJson), ("type_params", .arr (c.typeParams.map TypeParameter.toJson)),
    ("super_types", .arr (c.superTypes.map TypeName.toJson)),
    ("fields", .arr (c.fields.map Field.toJson)), ("constructor", c.constructor.toJson),
    ("methods", .arr (Method.toJsonAll c.methods)), ("span", c.span.toJson)]

def Program.toJson (p : Program) : Json :=
  .obj [("name", .str p.name), ("files", p.files.toJson),
    ("classes", .arr (p.classes.map Class.toJson))]

open Json (needed optional list? nullable)

section

variable (form : Json.PayloadForm)

mutual

def Expr.ofJsonWithin : Nat → Json → Option Expr
  | 0, _ => none
  | n + 1, v => do
    match ← v.case? with
    | ("literal", some payload) => return .literal (← Literal.ofJson? payload)
    | ("reference", some payload) => return .reference (← Reference.ofJson? payload)
    | ("assign", some payload) =>
      match ← payload.payload? form ["target", "value"] with
      | [target, value] =>
        return .assign (← needed (Expr.ofJsonWithin n) target)
          (← needed (Expr.ofJsonWithin n) value)
      | _ => none
    | ("field_access", some payload) =>
      match ← payload.payload? form ["receiver", "field", "ty"] with
      | [receiver, field, ty] =>
        return .fieldAccess (← needed (Expr.ofJsonWithin n) receiver) (← needed Json.text? field)
          (← needed Ty.ofJson? ty)
      | _ => none
    | ("method_call", some payload) =>
      match ← payload.payload? form ["receiver", "method", "args", "type_args", "ty"] with
      | [receiver, method, args, typeArgs, ty] =>
        return .methodCall (← needed (Expr.ofJsonWithin n) receiver) (← needed Json.text? method)
          (← needed (list? (Expr.ofJsonWithin n)) args) (← optional [] (list? Ty.ofJson?) typeArgs)
          (← needed Ty.ofJson? ty)
      | _ => none
    | ("static_method_call", some payload) =>
      match ← payload.payload? form ["class", "method", "args", "type_args", "ty"] with
      | [cls, method, args, typeArgs, ty] =>
        return .staticCall (← needed TypeName.ofJson? cls) (← needed Json.text? method)
          (← needed (list? (Expr.ofJsonWithin n)) args) (← optional [] (list? Ty.ofJson?) typeArgs)
          (← needed Ty.ofJson? ty)
      | _ => none
    | ("constructor_call", some payload) =>
      match ← payload.payload? form ["ty", "args"] with
      | [ty, args] =>
        return .construct (← needed Ty.ofJson? ty) (← needed (list? (Expr.ofJsonWithin n)) args)
      | _ => none
    | ("operation", some payload) =>
      match ← payload.payload? form ["operator", "args", "ty"] with
      | [op, args, ty] =>
        return .operation (← needed Operator.ofJson? op)
          (← needed (list? (Expr.ofJsonWithin n)) args) (← needed Ty.ofJson? ty)
      | _ => none
    | ("conditional", some payload) =>
      match ← payload.payload? form ["condition", "if_true", "if_false", "ty"] with
      | [condition, ifTrue, ifFalse, ty] =>
        return .conditional (← needed (Expr.ofJsonWithin n) condition)
          (← needed (Expr.ofJsonWithin n) ifTrue) (← needed (Expr.ofJsonWithin n) ifFalse)
          (← needed Ty.ofJson? ty)
      | _ => none
    | ("lambda", some payload) => return .lambda (← Lambda.ofJsonWithin n payload)
    | ("method_reference", some payload) =>
      return .methodReference (← MethodReference.ofJsonWithin n payload)
    | ("anonymous_class", some payload) =>
      return .anonymousClass (← AnonymousClass.ofJsonWithin n payload)
    | _ => none

def Lambda.ofJsonWithin : Nat → Json → Option Lambda
  | 0, _ => none
  | n + 1, v => do
    match ← v.fields? ["interface", "method", "params", "return_type", "body", "span"] with
    | [interface, method, params, returnType, body, span] =>
      return ⟨← needed TypeName.ofJson? interface, ← needed Json.text? method,
        ← needed (list? Variable.ofJson?) params, ← needed Ty.ofJson? returnType,
        ← needed (list? (Stmt.ofJsonWithin n)) body, ← optional .dummy Span.ofJson? span⟩
    | _ => none

def Target.ofJsonWithin : Nat → Json → Option Target
  | 0, _ => none
  | n + 1, v => do
    match ← v.case? with
    | ("static", some cls) => return .static (← TypeName.ofJson? cls)
    | ("instance", some receiver) => return .instance (← Expr.ofJsonWithin n receiver)
    | _ => none

def MethodReference.ofJsonWithin : Nat → Json → Option MethodReference
  | 0, _ => none
  | n + 1, v => do
    match ← v.fields? ["interface", "method", "param_types", "return_type", "target",
      "target_method", "span"] with
    | [interface, method, paramTypes, returnType, target, targetMethod, span] =>
      return ⟨← needed TypeName.ofJson? interface, ← needed Json.text? method,
        ← needed (list? Ty.ofJson?) paramTypes, ← needed Ty.ofJson? returnType,
        ← needed (Target.ofJsonWithin n) target, ← needed Json.text? targetMethod,
        ← optional .dummy Span.ofJson? span⟩
    | _ => none

def AnonymousClass.ofJsonWithin : Nat → Json → Option AnonymousClass
  | 0, _ => none
  | n + 1, v => do
    match ← v.fields? ["class", "super_types", "fields", "methods", "span"] with
    | [name, superTypes, fields, methods, span] =>
      return ⟨← needed TypeName.ofJson? name, ← needed (list? TypeName.ofJson?) superTypes,
        ← optional [] (list? Field.ofJson?) fields,
        ← needed (list? (Method.ofJsonWithin n)) methods, ← optional .dummy Span.ofJson? span⟩
    | _ => none

def Method.ofJsonWithin : Nat → Json → Option Method
  | 0, _ => none
  | n + 1, v => do
    match ← v.fields? ["name", "is_static", "type_params", "params", "return_type", "body"] with
    | [name, isStatic, typeParams, params, returnType, body] =>
      return ⟨← needed Json.text? name, ← optional false Json.bool? isStatic,
        ← optional [] (list? TypeParameter.ofJson?) typeParams,
        ← needed (list? Variable.ofJson?) params, ← needed Ty.ofJson? returnType,
        ← needed (list? (Stmt.ofJsonWithin n)) body⟩
    | _ => none

def Stmt.ofJsonWithin : Nat → Json → Option Stmt
  | 0, _ => none
  | n + 1, v => do
    match ← v.case? with
    | ("expr", some payload) => return .expr (← Expr.ofJsonWithin n payload)
    | ("return", some payload) => return .ret (← nullable (Expr.ofJsonWithin n) payload)
    | ("local", some payload) =>
      match ← payload.payload? form ["declaration", "init"] with
      | [decl, init] =>
        return .decl (← needed Variable.ofJson? decl) (← needed (Expr.ofJsonWithin n) init)
      | _ => none
    | ("if", some payload) =>
      match ← payload.payload? form ["condition", "then_branch", "else_branch"] with
      | [condition, thenBranch, elseBranch] =>
        return .cond (← needed (Expr.ofJsonWithin n) condition)
          (← needed (list? (Stmt.ofJsonWithin n)) thenBranch)
          (← optional [] (list? (Stmt.ofJsonWithin n)) elseBranch)
      | _ => none
    | ("while", some payload) =>
      match ← payload.payload? form ["condition", "body"] with
      | [condition, body] =>
        return .loop (← needed (Expr.ofJsonWithin n) condition)
          (← needed (list? (Stmt.ofJsonWithin n)) body)
      | _ => none
    | _ => none

end

def Expr.ofJson? (v : Json) : Option Expr := Expr.ofJsonWithin form v.depth v
def Stmt.ofJson? (v : Json) : Option Stmt := Stmt.ofJsonWithin form v.depth v
def Method.ofJson? (v : Json) : Option Method := Method.ofJsonWithin form v.depth v
def Lambda.ofJson? (v : Json) : Option Lambda := Lambda.ofJsonWithin form v.depth v

def MethodReference.ofJson? (v : Json) : Option MethodReference :=
  MethodReference.ofJsonWithin form v.depth v

def AnonymousClass.ofJson? (v : Json) : Option AnonymousClass :=
  AnonymousClass.ofJsonWithin form v.depth v

def Constructor.ofJson? (v : Json) : Option Constructor := do
  match ← v.fields? ["params", "body"] with
  | [params, body] =>
    return ⟨← needed (list? Variable.ofJson?) params, ← needed (list? (Stmt.ofJson? form)) body⟩
  | _ => none

def Class.ofJson? (v : Json) : Option Class := do
  match ← v.fields? ["name", "type_params", "super_types", "fields", "constructor", "methods",
    "span"] with
  | [name, typeParams, superTypes, fields, constructor, methods, span] =>
    return ⟨← needed TypeName.ofJson? name, ← optional [] (list? TypeParameter.ofJson?) typeParams,
      ← optional [] (list? TypeName.ofJson?) superTypes, ← optional [] (list? Field.ofJson?) fields,
      ← optional ⟨[], []⟩ (Constructor.ofJson? form) constructor,
      ← optional [] (list? (Method.ofJson? form)) methods, ← optional .dummy Span.ofJson? span⟩
  | _ => none

def Program.ofJson? (v : Json) : Option Program := do
  match ← v.fields? ["name", "files", "classes"] with
  | [name, files, classes] =>
    return ⟨← needed Json.text? name, ← optional ⟨[]⟩ SourceFiles.ofJson? files,
      ← needed (list? (Class.ofJson? form)) classes⟩
  | _ => none

end

def nestingLimit : Nat := 127

def decodeText? (decode : Json → Option α) (text : String) : Option α := do
  decode (← Json.read? nestingLimit text)

end ClosureLift
