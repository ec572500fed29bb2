import ClosureLift.Program.Basic

/-!
An outline of a program: its classes with their members, one line each, bodies only by their length.
-/
namespace ClosureLift

def Variable.outline (x : Variable) : String := s!"{x.name}: {x.ty.display}"

def outlineParams (params : List Variable) : String :=
  ", ".intercalate (params.map Variable.outline)

def staticMark (isStatic : Bool) : String := if isStatic then "static " else ""

def Field.outline (f : Field) : String :=
  s!"    {staticMark f.isStatic}field {f.name}: {f.ty.display}\n"

/-- A constructor that does nothing has no line. -/
def Constructor.outline (c : Constructor) : String :=
  if c.params.isEmpty && c.body.isEmpty then ""
  else s!"    constructor({outlineParams c.params}) [{c.body.length} stmt(s)]\n"

def Method.outline (m : Method) : String :=
  s!"    {staticMark m.isStatic}method {m.name}({outlineParams m.params}): " ++
    s!"{m.returnType.display} [{m.body.length} stmt(s)]\n"

def Class.outline (c : Class) : String :=
  let params :=
    if c.typeParams = [] then "" else "<" ++ ", ".intercalate (c.typeParams.map (·.name)) ++ ">"
  let supers :=
    if c.superTypes = [] then "" else " : " ++ ", ".intercalate (c.superTypes.map (·.qualified))
  s!"  class {c.name.qualified}{params}{supers}\n" ++ String.join (c.fields.map Field.outline) ++
    c.constructor.outline ++ String.join (c.methods.map Method.outline)

def Program.outline (p : Program) : String :=
  s!"=== HIR: {p.name} ===\nClasses: {p.classes.length}\n" ++
    String.join (p.classes.map Class.outline)

end ClosureLift
