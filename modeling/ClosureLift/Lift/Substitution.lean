import ClosureLift.Lift.Basic

/-!
Replacing what a body captures. A reference whose key is in the substitution becomes the expression
given for it, and everything else is copied. A body that still holds a closure literal is refused,
because the literal may capture the same things in its own way.
-/
namespace ClosureLift

/-- What to put for a reference, by the key of what it reads. A later entry overrides an earlier. -/
abbrev Substitution := List (Identifier × Expr)

namespace Substitution

def get? (σ : Substitution) (key : Identifier) : Option Expr := σ.reverse.lookup key

def reference (σ : Substitution) (ref : Reference) : Expr :=
  (σ.get? ref.key).getD (.reference ref)

end Substitution

def unsupported (construct : String) (span : Span) : Except LiftError α :=
  .error ⟨.unsupportedConstruct construct, span⟩

def Target.construct : Target → String
  | .static _ => "static method reference"
  | .instance _ => "bound method reference"

mutual

def Expr.substitute (σ : Substitution) : Expr → Except LiftError Expr
  | .literal value => return .literal value
  | .reference ref => return σ.reference ref
  | .assign target value => return .assign (← target.substitute σ) (← value.substitute σ)
  | .fieldAccess receiver field ty => return .fieldAccess (← receiver.substitute σ) field ty
  | .methodCall receiver method args typeArgs ty =>
    return .methodCall (← receiver.substitute σ) method (← Expr.substituteAll σ args) typeArgs ty
  | .staticCall cls method args typeArgs ty =>
    return .staticCall cls method (← Expr.substituteAll σ args) typeArgs ty
  | .construct ty args => return .construct ty (← Expr.substituteAll σ args)
  | .operation op args ty => return .operation op (← Expr.substituteAll σ args) ty
  | .conditional condition ifTrue ifFalse ty =>
    return .conditional (← condition.substitute σ) (← ifTrue.substitute σ)
      (← ifFalse.substitute σ) ty
  | .lambda closure => unsupported "lambda" closure.span
  | .methodReference closure => unsupported closure.target.construct closure.span
  | .anonymousClass closure => unsupported s!"anonymous class {closure.name.qualified}" closure.span

def Expr.substituteAll (σ : Substitution) : List Expr → Except LiftError (List Expr)
  | [] => return []
  | e :: rest => return (← e.substitute σ) :: (← Expr.substituteAll σ rest)

end

mutual

def Stmt.substitute (σ : Substitution) : Stmt → Except LiftError Stmt
  | .expr value => return .expr (← value.substitute σ)
  | .ret none => return .ret none
  | .ret (some value) => return .ret (some (← value.substitute σ))
  | .decl x init => return .decl x (← init.substitute σ)
  | .cond condition thenBranch elseBranch =>
    return .cond (← condition.substitute σ) (← Stmt.substituteAll σ thenBranch)
      (← Stmt.substituteAll σ elseBranch)
  | .loop condition body => return .loop (← condition.substitute σ) (← Stmt.substituteAll σ body)

def Stmt.substituteAll (σ : Substitution) : List Stmt → Except LiftError (List Stmt)
  | [] => return []
  | s :: rest => return (← s.substitute σ) :: (← Stmt.substituteAll σ rest)

end

end ClosureLift
