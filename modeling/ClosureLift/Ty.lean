import ClosureLift.TypeName

/-!
Types as the front end resolved them: nothing here infers a type. A bound parameter carries the type
it stands for at that use and otherwise behaves like that type.
-/
namespace ClosureLift

/-- A type parameter, told apart from others of its name by the declaration that introduces it. -/
structure TypeParameter where
  declaration : TypeName
  name : String
  deriving DecidableEq

inductive Ty where
  | scalar (name : TypeName)
  | parameter (param : TypeParameter)
  | bound (param : TypeParameter) (value : Ty)
  | parameterized (raw : TypeName) (args : List Ty)

namespace Ty

mutual

def decEq : (a b : Ty) → Decidable (a = b)
  | .scalar a, .scalar b => decidable_of_iff (a = b) (by simp)
  | .parameter p, .parameter q => decidable_of_iff (p = q) (by simp)
  | .bound p a, .bound q b =>
    have := decEq a b
    decidable_of_iff (p = q ∧ a = b) (by simp)
  | .parameterized r as, .parameterized s bs =>
    have := decEqAll as bs
    decidable_of_iff (r = s ∧ as = bs) (by simp)
  | .scalar _, .parameter _ | .scalar _, .bound .. | .scalar _, .parameterized ..
  | .parameter _, .scalar _ | .parameter _, .bound .. | .parameter _, .parameterized ..
  | .bound .., .scalar _ | .bound .., .parameter _ | .bound .., .parameterized ..
  | .parameterized .., .scalar _ | .parameterized .., .parameter _
  | .parameterized .., .bound .. => isFalse (by simp)

def decEqAll : (as bs : List Ty) → Decidable (as = bs)
  | [], [] => isTrue rfl
  | a :: as, b :: bs =>
    have := decEq a b
    have := decEqAll as bs
    decidable_of_iff (a = b ∧ as = bs) (by simp)
  | [], _ :: _ | _ :: _, [] => isFalse (by simp)

end

instance : DecidableEq Ty := decEq

def unit : Ty := .scalar ⟨"cassis.Unit"⟩
def boolean : Ty := .scalar ⟨"cassis.Boolean"⟩
def integer : Ty := .scalar ⟨"cassis.Integer"⟩
def string : Ty := .scalar ⟨"cassis.String"⟩

/-- The class a type refers to once its arguments are forgotten. A free parameter has none. -/
def erasure? : Ty → Option TypeName
  | .scalar name => some name
  | .parameter _ => none
  | .bound _ value => value.erasure?
  | .parameterized raw _ => some raw

mutual

def parameters : Ty → List TypeParameter
  | .scalar _ => []
  | .parameter p => [p]
  | .bound _ value => value.parameters
  | .parameterized _ args => parametersAll args

def parametersAll : List Ty → List TypeParameter
  | [] => []
  | ty :: rest => ty.parameters ++ parametersAll rest

end

mutual

def display : Ty → String
  | .scalar name => name.qualified
  | .parameter p => p.name
  | .bound _ value => value.display
  | .parameterized raw args => raw.qualified ++ "<" ++ ", ".intercalate (displayAll args) ++ ">"

def displayAll : List Ty → List String
  | [] => []
  | ty :: rest => ty.display :: displayAll rest

end

end Ty

end ClosureLift
