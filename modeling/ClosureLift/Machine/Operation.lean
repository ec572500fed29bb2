import ClosureLift.Machine.Value

/-!
Why an evaluation fails, and the built-in operators on values. Integers are 64 bits wide and wrap;
division goes toward zero.
-/
namespace ClosureLift

inductive EvalError where
  | unknownClass (cls : TypeName)
  | unknownMethod (cls : TypeName) (method : String) (arity : Nat)
  | unknownField (cls : TypeName) (field : String)
  | unboundVariable (name : String)
  | missingThis (cls : TypeName)
  | notAnObject (found : String)
  | typeMismatch (op : Operator) (found : List String)
  | conditionNotBoolean (found : String)
  | invalidAssignmentTarget
  | divisionByZero
  | notInstantiable (ty : Ty)
  | unliftedClosure
  | stackOverflow (limit : Nat)
  deriving DecidableEq

def EvalError.message : EvalError → String
  | .unknownClass cls => s!"unknown class {cls.qualified}"
  | .unknownMethod cls method arity =>
    s!"no method {cls.qualified}.{method} taking {arity} argument(s)"
  | .unknownField cls field => s!"{cls.qualified} has no field `{field}`"
  | .unboundVariable name => s!"variable `{name}` read before assignment"
  | .missingThis cls => s!"`this` of {cls.qualified} is not available here"
  | .notAnObject found => s!"expected an object, found {found}"
  | .typeMismatch op found =>
    s!"operator `{op.symbol}` cannot be applied to " ++ ", ".intercalate found
  | .conditionNotBoolean found => s!"condition must be a boolean, found {found}"
  | .invalidAssignmentTarget => "expression cannot be assigned to"
  | .divisionByZero => "division by zero"
  | .notInstantiable ty => s!"type {ty.display} cannot be instantiated"
  | .unliftedClosure => "closure literal reached the evaluator; run closure conversion first"
  | .stackOverflow limit => s!"call depth exceeded {limit}"

/-- Why a run ends without a value: an error of the program, or a loop that took more turns than
the run was given. -/
inductive Stop where
  | fault (error : EvalError)
  | outOfTurns
  deriving DecidableEq

def Operator.onIntegers (op : Operator) (a b : Int64) : Option (Except EvalError Value) :=
  match op with
  | .add => some (.ok (.integer (a + b)))
  | .subtract => some (.ok (.integer (a - b)))
  | .multiply => some (.ok (.integer (a * b)))
  | .divide => some (if b = 0 then .error .divisionByZero else .ok (.integer (a / b)))
  | .modulus => some (if b = 0 then .error .divisionByZero else .ok (.integer (a % b)))
  | .greater => some (.ok (.boolean (b < a)))
  | .greaterOrEqual => some (.ok (.boolean (b ≤ a)))
  | .less => some (.ok (.boolean (a < b)))
  | .lessOrEqual => some (.ok (.boolean (a ≤ b)))
  | _ => none

/-- The value of an operator on operands that are all evaluated. Addition with a string on either
side joins the texts of both. -/
def Operator.apply (heap : Heap) (op : Operator) (operands : List Value) : Except EvalError Value :=
  let mismatch := .error (.typeMismatch op (operands.map (·.typeName heap)))
  match op, operands with
  | .equals, [a, b] => .ok (.boolean (a == b))
  | .notEquals, [a, b] => .ok (.boolean (a != b))
  | .booleanNot, [.boolean b] => .ok (.boolean (!b))
  | .add, [.string a, b] => .ok (.string (a ++ b.display heap))
  | .add, [a, .string b] => .ok (.string (a.display heap ++ b))
  | op, [.integer a, .integer b] => (op.onIntegers a b).getD mismatch
  | _, _ => mismatch

end ClosureLift
