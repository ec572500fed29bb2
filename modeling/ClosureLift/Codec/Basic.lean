import ClosureLift.Json.Record
import ClosureLift.Program.Basic

/-!
JSON forms of names, types, identifiers and places. A type says its kind inside the object, a
segment says it beside its name.
-/
namespace ClosureLift

def TypeName.toJson (name : TypeName) : Json := .str name.qualified

def TypeName.ofJson? (v : Json) : Option TypeName := v.text?.map TypeName.mk

namespace TypeParameter

def toJson (p : TypeParameter) : Json :=
  .obj [("declaration", p.declaration.toJson), ("name", .str p.name)]

def ofJson? (v : Json) : Option TypeParameter := do
  match ← v.fields? ["declaration", "name"] with
  | [declaration, name] =>
    return ⟨← Json.needed TypeName.ofJson? declaration, ← Json.needed Json.text? name⟩
  | _ => none

end TypeParameter

namespace Ty

mutual

def toJson : Ty → Json
  | .scalar name => .obj [("kind", .str "scalar"), ("name", name.toJson)]
  | .parameter p => .obj [("kind", .str "parameter"), ("parameter", p.toJson)]
  | .bound p value =>
    .obj [("kind", .str "bound"), ("parameter", p.toJson), ("value", value.toJson)]
  | .parameterized raw args =>
    .obj [("kind", .str "parameterized"), ("raw", raw.toJson),
      ("parameters", .arr (toJsonAll args))]

def toJsonAll : List Ty → List Json
  | [] => []
  | ty :: rest => ty.toJson :: toJsonAll rest

end

def kinds : List String := ["scalar", "parameter", "bound", "parameterized"]

def kindName? (inner : Bool) : Json → Option String
  | .str kind => some kind
  | .int n => if inner ∧ 0 ≤ n then kinds[n.toNat]? else none
  | _ => none

def kind? (inner : Bool) : Json → Option (String × Json)
  | .obj members => do
    return (← Json.needed (kindName? inner) (← Json.member? "kind" members), .obj members)
  | .arr (kind :: rest) => do return (← kindName? inner kind, .arr rest)
  | _ => none

def ofJsonWithin (inner : Bool) : Nat → Json → Option Ty
  | 0, _ => none
  | n + 1, v => do
    match ← kind? inner v with
    | ("scalar", body) =>
      match ← body.fields? ["name"] with
      | [name] => return .scalar (← Json.needed TypeName.ofJson? name)
      | _ => none
    | ("parameter", body) =>
      match ← body.fields? ["parameter"] with
      | [param] => return .parameter (← Json.needed TypeParameter.ofJson? param)
      | _ => none
    | ("bound", body) =>
      match ← body.fields? ["parameter", "value"] with
      | [param, value] =>
        return .bound (← Json.needed TypeParameter.ofJson? param)
          (← Json.needed (ofJsonWithin true n) value)
      | _ => none
    | ("parameterized", body) =>
      match ← body.fields? ["raw", "parameters"] with
      | [raw, args] =>
        return .parameterized (← Json.needed TypeName.ofJson? raw)
          (← Json.needed (Json.list? (ofJsonWithin true n)) args)
      | _ => none
    | _ => none

/-- Decodes a type. Its kind may come after the other fields, so all of them must have a value, also
those that turn out not to belong to it. -/
def ofJson? (v : Json) : Option Ty :=
  if v.isReadable then ofJsonWithin false v.depth v else none

end Ty

namespace Segment

def toJson : Segment → Json
  | .type name => .obj [("kind", .str "type"), ("name", .str name)]
  | .constructor => .obj [("kind", .str "constructor")]
  | .method name => .obj [("kind", .str "method"), ("name", .str name)]
  | .variable name => .obj [("kind", .str "variable"), ("name", .str name)]
  | .this => .obj [("kind", .str "this")]

/-- A segment from its kind and name. The two kinds without a name take `null` for it. -/
def ofKind? : String → Option Json → Option Segment
  | "type", some (.str name) => some (.type name)
  | "constructor", none | "constructor", some .null => some .constructor
  | "method", some (.str name) => some (.method name)
  | "variable", some (.str name) => some (.variable name)
  | "this", none | "this", some .null => some .this
  | _, _ => none

def ofJson? : Json → Option Segment
  | .obj members => do
    let kind ← Json.needed Json.name? (← Json.member? "kind" members)
    ofKind? kind (← Json.member? "name" members)
  | .arr [.str kind, name] => ofKind? kind (some name)
  | _ => none

end Segment

def Identifier.toJson (id : Identifier) : Json := .arr (id.segments.map Segment.toJson)

def Identifier.ofJson? (v : Json) : Option Identifier :=
  (v.list? Segment.ofJson?).map Identifier.mk

namespace Span

def toJson (span : Span) : Json :=
  .obj [("file_id", .ofUInt32 span.file), ("start", .ofUInt32 span.start),
    ("end", .ofUInt32 span.stop)]

def ofJson? (v : Json) : Option Span := do
  match ← v.fields? ["file_id", "start", "end"] with
  | [file, start, stop] =>
    return ⟨← Json.needed Json.uint32? file, ← Json.needed Json.uint32? start,
      ← Json.needed Json.uint32? stop⟩
  | _ => none

end Span

def SourceFiles.toJson (files : SourceFiles) : Json := .ofTexts files.paths

def SourceFiles.ofJson? (v : Json) : Option SourceFiles :=
  (v.list? Json.text?).map SourceFiles.mk

namespace Variable

def toJson (x : Variable) : Json :=
  .obj [("id", x.id.toJson), ("name", .str x.name), ("ty", x.ty.toJson)]

def ofJson? (v : Json) : Option Variable := do
  match ← v.fields? ["id", "name", "ty"] with
  | [id, name, ty] =>
    return ⟨← Json.needed Identifier.ofJson? id, ← Json.needed Json.text? name,
      ← Json.needed Ty.ofJson? ty⟩
  | _ => none

end Variable

namespace Field

def toJson (f : Field) : Json :=
  .obj [("name", .str f.name), ("ty", f.ty.toJson), ("is_static", .bool f.isStatic)]

def ofJson? (v : Json) : Option Field := do
  match ← v.fields? ["name", "ty", "is_static"] with
  | [name, ty, isStatic] =>
    return ⟨← Json.needed Json.text? name, ← Json.needed Ty.ofJson? ty,
      ← Json.optional false Json.bool? isStatic⟩
  | _ => none

end Field

namespace Reference

def toJson : Reference → Json
  | .variable decl => .obj [("variable", decl.toJson)]
  | .this cls => .obj [("this", cls.toJson)]

def ofJson? (v : Json) : Option Reference := do
  match ← v.case? with
  | ("variable", some decl) => return .variable (← Variable.ofJson? decl)
  | ("this", some cls) => return .this (← TypeName.ofJson? cls)
  | _ => none

end Reference

namespace Literal

def toJson : Literal → Json
  | .unit => .str "unit"
  | .boolean b => .obj [("boolean", .bool b)]
  | .integer n => .obj [("integer", .int n.toInt)]
  | .string s => .obj [("string", .str s)]

def ofJson? (v : Json) : Option Literal := do
  match ← v.case? with
  | ("unit", none) | ("unit", some .null) => return .unit
  | ("boolean", some b) => return .boolean (← b.bool?)
  | ("integer", some n) => return .integer (← n.int64?)
  | ("string", some s) => return .string (← s.text?)
  | _ => none

end Literal

namespace Operator

def name : Operator → String
  | .add => "add"
  | .subtract => "subtract"
  | .multiply => "multiply"
  | .divide => "divide"
  | .modulus => "modulus"
  | .equals => "equals"
  | .notEquals => "not_equals"
  | .greater => "greater"
  | .greaterOrEqual => "greater_or_equal"
  | .less => "less"
  | .lessOrEqual => "less_or_equal"
  | .booleanNot => "boolean_not"
  | .booleanAnd => "boolean_and"
  | .booleanOr => "boolean_or"

def all : List Operator :=
  [.add, .subtract, .multiply, .divide, .modulus, .equals, .notEquals, .greater, .greaterOrEqual,
    .less, .lessOrEqual, .booleanNot, .booleanAnd, .booleanOr]

def toJson (op : Operator) : Json := .str op.name

def ofJson? (v : Json) : Option Operator := do
  let name ← v.name?
  all.find? (·.name == name)

end Operator

end ClosureLift
