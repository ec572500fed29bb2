import ClosureLift.Program.Basic
import ClosureLift.Sorted

/-!
Values and objects. An object lives at an address of the heap for good; two object values are equal
when their addresses are. The fields of an object are fixed when it is created, all holding unit.
-/
namespace ClosureLift

inductive Value where
  | unit
  | boolean (value : Bool)
  | integer (value : Int64)
  | string (value : String)
  | object (address : Nat)
  deriving DecidableEq

structure Object where
  cls : TypeName
  /-- Fields in ascending order of their names. -/
  fields : List (String × Value)

structure Heap where
  objects : Array Object

def setField (fields : List (String × Value)) (name : String) (v : Value) : List (String × Value) :=
  fields.map fun f => if f.1 = name then (name, v) else f

namespace Object

def new (cls : Class) : Object where
  cls := cls.name
  fields := (sorted compare ((cls.fields.filter (!·.isStatic)).map (·.name))).map (·, .unit)

end Object

namespace Heap

def empty : Heap := ⟨#[]⟩

def alloc (heap : Heap) (object : Object) : Nat × Heap :=
  (heap.objects.size, ⟨heap.objects.push object⟩)

def object? (heap : Heap) (address : Nat) : Option Object := heap.objects[address]?

def set (heap : Heap) (address : Nat) (object : Object) : Heap :=
  ⟨heap.objects.setIfInBounds address object⟩

def className (heap : Heap) (address : Nat) : TypeName :=
  match heap.object? address with
  | some object => object.cls
  | none => ⟨""⟩

end Heap

namespace Value

def ofLiteral : Literal → Value
  | .unit => .unit
  | .boolean b => .boolean b
  | .integer n => .integer n
  | .string s => .string s

def typeName (heap : Heap) : Value → String
  | .unit => "unit"
  | .boolean _ => "boolean"
  | .integer _ => "integer"
  | .string _ => "string"
  | .object address => (heap.className address).qualified

def display (heap : Heap) : Value → String
  | .unit => "()"
  | .boolean true => "true"
  | .boolean false => "false"
  | .integer n => toString n.toInt
  | .string s => s
  | .object address => s!"<{(heap.className address).qualified}>"

end Value

end ClosureLift
