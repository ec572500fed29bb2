import ClosureLift.Proofs.Machine.Simulation
import Mathlib.Data.List.Forall2

/-!
Relations that evaluation respects. A relation between evaluations that holds of the single steps of
a machine, and of steps in a row, holds of all statements and expressions: one induction for
whatever is said about two runs of corresponding bodies, or about one run.
-/
namespace ClosureLift

open Eval

/-- The relation holds of each step in the first context and the same step in the second, and of
steps in a row. -/
structure Congruence (related : (α : Type) → Eval α → Eval α → Prop) (first second : Context) :
    Prop where
  pure {α : Type} (a : α) : related α (pure a) (pure a)
  bind {α β : Type} {m n : Eval α} {next next' : α → Eval β} (head : related α m n)
    (tail : ∀ a, related β (next a) (next' a)) : related β (m >>= next) (n >>= next')
  target : related Value (fault .invalidAssignmentTarget) (fault .invalidAssignmentTarget)
  self (cls : TypeName) : related Value (first.self cls) (second.self cls)
  readVariable (x : Variable) : related Value (readVariable x) (readVariable x)
  writeVariable (x : Variable) (v : Value) : related Unit (writeVariable x v) (writeVariable x v)
  readField (v : Value) (name : String) : related Value (readField v name) (readField v name)
  writeField (v : Value) (name : String) (w : Value) :
    related Unit (writeField v name w) (writeField v name w)
  truth (v : Value) : related Bool (truth v) (truth v)
  operate (op : Operator) (operands : List Value) :
    related Value (operate op operands) (operate op operands)
  callStatic (cls : TypeName) (method : String) (args : List Value) :
    related Value (first.callStatic cls method args) (second.callStatic cls method args)
  callMethod (receiver : Value) (method : String) (args : List Value) :
    related Value (first.callMethod receiver method args) (second.callMethod receiver method args)
  construct (ty : Ty) (args : List Value) :
    related Value (first.construct ty args) (second.construct ty args)

def Node.Related (related : (α : Type) → Eval α → Eval α → Prop) (first second : Context) :
    Node → Node → Prop
  | .expr e, .expr e' => related Value (e.eval first) (e'.eval second)
  | .stmt s, .stmt s' => related Flow (s.exec first) (s'.exec second)
  | _, _ => True

/-- Parts that correspond are alike, and so are the parts under them. Closures may correspond to
anything that is related to their failure and cannot be assigned to either. Loops that correspond
are related if their turns are. -/
structure Correspondence (related : (α : Type) → Eval α → Eval α → Prop) (first second : Context)
    (link : Node → Node → Prop) : Prop where
  parts {n n' : Node} (linked : link n n') (plain : n.isClosure = false) :
    n'.bare = n.bare ∧ List.Forall₂ link n.children n'.children
  closures {e : Expr} {n' : Node} (linked : link (.expr e) n') (literal : e.isClosure = true) :
    ∃ e', n' = .expr e' ∧ related Value (fault .unliftedClosure) (e'.eval second) ∧
      ∀ v, assignTo second e' v = fault .invalidAssignmentTarget
  loops {condition : Expr} {body : List Stmt} {n' : Node}
    (linked : link (.stmt (.loop condition body)) n') {test test' : Eval Bool}
    {turn turn' : Eval Flow} (tests : related Bool test test') (turns : related Flow turn turn') :
    related Flow (iterate first.limits.turns test turn)
      (iterate second.limits.turns test' turn')

theorem closure_eval (ctx : Context) {e : Expr} (literal : e.isClosure = true) :
    e.eval ctx = fault .unliftedClosure := by
  cases e with
  | lambda | methodReference | anonymousClass => rw [Expr.eval]
  | _ => cases literal

theorem closure_not_target (ctx : Context) {e : Expr} (literal : e.isClosure = true) (v : Value) :
    assignTo ctx e v = fault .invalidAssignmentTarget := by
  cases e with
  | lambda | methodReference | anonymousClass => rfl
  | _ => cases literal

namespace Congruence

variable {related : (α : Type) → Eval α → Eval α → Prop} {first second : Context}
  (congruence : Congruence related first second)
include congruence

theorem discard {α : Type} {m n : Eval α} (same : related α m n) :
    related PUnit (Functor.discard m) (Functor.discard n) := by
  rw [discard_eq, discard_eq]
  exact congruence.bind same fun _ => congruence.pure _

theorem condition {m n : Eval Value} (same : related Value m n) :
    related Bool (m >>= Eval.truth) (n >>= Eval.truth) :=
  congruence.bind same congruence.truth

theorem iterate {condition condition' : Eval Bool} {body body' : Eval Flow}
    (last : related Flow (throw .outOfTurns) (throw .outOfTurns))
    (test : related Bool condition condition') (turn : related Flow body body') (turns : Nat) :
    related Flow (Eval.iterate turns condition body) (Eval.iterate turns condition' body') := by
  induction turns with
  | zero => exact last
  | succ turns ih =>
    refine congruence.bind test ?_
    intro again
    cases again with
    | false => exact congruence.pure _
    | true =>
      refine congruence.bind turn ?_
      intro flow
      cases flow with
      | normal => exact ih
      | returned v => exact congruence.pure _

theorem expression_list {es es' : List Expr}
    (each : List.Forall₂ (Node.Related related first second) (es.map .expr) (es'.map .expr)) :
    related (List Value) (Expr.evalAll first es) (Expr.evalAll second es') := by
  rw [List.forall₂_map_left_iff, List.forall₂_map_right_iff] at each
  induction each with
  | nil => exact congruence.pure _
  | cons head tail ih =>
    rw [Expr.evalAll, Expr.evalAll]
    exact congruence.bind head fun v => congruence.bind ih fun vs => congruence.pure _

theorem statement_list {ss ss' : List Stmt}
    (each : List.Forall₂ (Node.Related related first second) (ss.map .stmt) (ss'.map .stmt)) :
    related Flow (Stmt.execAll first ss) (Stmt.execAll second ss') := by
  rw [List.forall₂_map_left_iff, List.forall₂_map_right_iff] at each
  induction each with
  | nil => exact congruence.pure _
  | cons head tail ih =>
    rw [Stmt.execAll, Stmt.execAll]
    refine congruence.bind head ?_
    intro flow
    cases flow with
    | normal => exact ih
    | returned v => exact congruence.pure _

theorem operation (op : Operator) {args args' : List Expr} (ty : Ty)
    (each : List.Forall₂ (Node.Related related first second) (args.map .expr) (args'.map .expr)) :
    related Value ((Expr.operation op args ty).eval first)
      ((Expr.operation op args' ty).eval second) := by
  have operands := congruence.expression_list each
  rw [List.forall₂_map_left_iff, List.forall₂_map_right_iff] at each
  rcases operation_cases op args with ⟨left, right, rfl, which⟩ | strict
  · cases each with
    | @cons _ left' _ _ leftSame tail =>
    cases tail with
    | @cons _ right' _ _ rightSame tail =>
    cases tail
    rcases which with rfl | rfl
    · rw [Expr.eval, Expr.eval]
      refine congruence.bind (congruence.condition leftSame) ?_
      intro holds
      cases holds with
      | false => exact congruence.pure _
      | true => exact congruence.bind (congruence.condition rightSame) fun _ => congruence.pure _
    · rw [Expr.eval, Expr.eval]
      refine congruence.bind (congruence.condition leftSame) ?_
      intro holds
      cases holds with
      | true => exact congruence.pure _
      | false => exact congruence.bind (congruence.condition rightSame) fun _ => congruence.pure _
  · rw [operation_eval first op args ty strict, operation_eval second op args' ty]
    · exact congruence.bind operands (congruence.operate op)
    · rw [← each.length_eq]
      exact strict

theorem assignment {target target' value value' : Expr}
    (computed : related Value (value.eval first) (value'.eval second))
    (stored : ∀ v, related Value (assignTo first target v) (assignTo second target' v)) :
    related Value ((Expr.assign target value).eval first)
      ((Expr.assign target' value').eval second) := by
  rw [assign_eval, assign_eval]
  exact congruence.bind computed stored

theorem alike_target {target target' : Expr}
    (alike : Node.bareExpr target' = Node.bareExpr target)
    (under : List.Forall₂ (Node.Related related first second) (Node.ofExpr target)
      (Node.ofExpr target')) (v : Value) :
    related Value (assignTo first target v) (assignTo second target' v) := by
  cases target with
  | reference ref =>
    cases target' with
    | reference ref' =>
      cases alike
      cases ref with
      | «variable» x =>
        exact congruence.bind (congruence.writeVariable x v) fun _ => congruence.pure v
      | this cls => exact congruence.target
    | _ => cases alike
  | fieldAccess receiver name ty =>
    cases target' with
    | fieldAccess receiver' name' ty' =>
      cases alike
      simp only [Node.ofExpr, List.forall₂_cons] at under
      refine congruence.bind under.1 ?_
      intro object
      exact congruence.bind (congruence.writeField object name v) fun _ => congruence.pure v
    | _ => cases alike
  | _ =>
    cases target' with
    | reference | fieldAccess => cases alike
    | _ => exact congruence.target

theorem expression {e e' : Expr} (alike : Node.bareExpr e' = Node.bareExpr e)
    (plain : e.isClosure = false)
    (stored : ∀ target value target' value', e = .assign target value →
      e' = .assign target' value' → ∀ v,
      related Value (assignTo first target v) (assignTo second target' v))
    (under : List.Forall₂ (Node.Related related first second) (Node.ofExpr e) (Node.ofExpr e')) :
    related Value (e.eval first) (e'.eval second) := by
  cases e with
  | literal value =>
    cases e' with
    | literal => cases alike; exact congruence.pure _
    | _ => cases alike
  | reference ref =>
    cases e' with
    | reference =>
      cases alike
      cases ref with
      | «variable» x => exact congruence.readVariable x
      | this cls => exact congruence.self cls
    | _ => cases alike
  | assign target value =>
    cases e' with
    | assign target' value' =>
      simp only [Node.ofExpr, List.forall₂_cons] at under
      exact congruence.assignment under.2.1 (stored target value target' value' rfl rfl)
    | _ => cases alike
  | fieldAccess receiver name ty =>
    cases e' with
    | fieldAccess =>
      cases alike
      simp only [Node.ofExpr, List.forall₂_cons] at under
      rw [Expr.eval, Expr.eval]
      exact congruence.bind under.1 fun object => congruence.readField object name
    | _ => cases alike
  | methodCall receiver name args typeArgs ty =>
    cases e' with
    | methodCall receiver' name' args' typeArgs' ty' =>
      obtain ⟨_, rfl, _, rfl, rfl⟩ := Expr.methodCall.inj alike
      simp only [Node.ofExpr, List.forall₂_cons] at under
      rw [Expr.eval, Expr.eval]
      refine congruence.bind under.1 ?_
      intro object
      exact congruence.bind (congruence.expression_list under.2) fun values =>
        congruence.callMethod object _ values
    | _ => cases alike
  | staticCall owner name args typeArgs ty =>
    cases e' with
    | staticCall owner' name' args' typeArgs' ty' =>
      obtain ⟨rfl, rfl, _, rfl, rfl⟩ := Expr.staticCall.inj alike
      rw [Expr.eval, Expr.eval]
      exact congruence.bind (congruence.expression_list under) fun values =>
        congruence.callStatic _ _ values
    | _ => cases alike
  | construct ty args =>
    cases e' with
    | construct ty' args' =>
      obtain ⟨rfl, _⟩ := Expr.construct.inj alike
      rw [Expr.eval, Expr.eval]
      exact congruence.bind (congruence.expression_list under) fun values =>
        congruence.construct _ values
    | _ => cases alike
  | operation op args ty =>
    cases e' with
    | operation op' args' ty' =>
      obtain ⟨rfl, _, rfl⟩ := Expr.operation.inj alike
      exact congruence.operation _ _ under
    | _ => cases alike
  | conditional condition ifTrue ifFalse ty =>
    cases e' with
    | conditional =>
      simp only [Node.ofExpr, List.forall₂_cons] at under
      rw [Expr.eval, Expr.eval]
      refine congruence.bind (congruence.condition under.1) ?_
      intro holds
      cases holds with
      | true => exact under.2.1
      | false => exact under.2.2.1
    | _ => cases alike
  | lambda | methodReference | anonymousClass => cases plain

theorem statement {s s' : Stmt} (alike : Node.bareStmt s' = Node.bareStmt s)
    (looped : ∀ condition body, s = .loop condition body → ∀ {test test' : Eval Bool}
      {turn turn' : Eval Flow}, related Bool test test' → related Flow turn turn' →
      related Flow (Eval.iterate first.limits.turns test turn)
        (Eval.iterate second.limits.turns test' turn'))
    (under : List.Forall₂ (Node.Related related first second) (Node.ofStmt s) (Node.ofStmt s')) :
    related Flow (s.exec first) (s'.exec second) := by
  cases s with
  | expr value =>
    cases s' with
    | expr value' =>
      simp only [Node.ofStmt, List.forall₂_cons] at under
      rw [Stmt.exec, Stmt.exec]
      exact congruence.bind (congruence.discard under.1) fun _ => congruence.pure _
    | _ => cases alike
  | ret value =>
    cases s' with
    | ret value' =>
      cases value with
      | none =>
        cases value' with
        | none => exact congruence.pure _
        | some => cases alike
      | some value =>
        cases value' with
        | none => cases alike
        | some value' =>
          cases under with
          | cons here _ =>
          rw [Stmt.exec, Stmt.exec]
          exact congruence.bind here fun _ => congruence.pure _
    | _ => cases alike
  | decl x init =>
    cases s' with
    | decl =>
      cases alike
      simp only [Node.ofStmt, List.forall₂_cons] at under
      rw [Stmt.exec, Stmt.exec]
      exact congruence.bind under.1 fun v =>
        congruence.bind (congruence.writeVariable x v) fun _ => congruence.pure _
    | _ => cases alike
  | cond condition thenBranch elseBranch =>
    cases s' with
    | cond condition' thenBranch' elseBranch' =>
      obtain ⟨_, thenSame, _⟩ := Stmt.cond.inj alike
      have length : (thenBranch.map Node.stmt).length = (thenBranch'.map Node.stmt).length := by
        simpa using (congrArg List.length thenSame).symm
      cases under with
      | cons test branches =>
      rw [Stmt.exec, Stmt.exec]
      refine congruence.bind (congruence.condition test) ?_
      intro holds
      have chosen := List.forall₂_take_append _ _ _ branches
      have other := List.forall₂_drop_append _ _ _ branches
      rw [← length, List.take_left] at chosen
      rw [← length, List.drop_left] at other
      cases holds with
      | true => exact congruence.statement_list chosen
      | false => exact congruence.statement_list other
    | _ => cases alike
  | loop condition body =>
    cases s' with
    | loop condition' body' =>
      cases under with
      | cons test turn =>
      rw [Stmt.exec, Stmt.exec]
      exact looped _ _ rfl (congruence.condition test) (congruence.statement_list turn)
    | _ => cases alike

theorem stored {link : Node → Node → Prop}
    (correspondence : Correspondence related first second link) {target target' : Expr}
    (linked : link (.expr target) (.expr target'))
    (under : target.isClosure = false →
      List.Forall₂ (Node.Related related first second) (Node.ofExpr target) (Node.ofExpr target'))
    (v : Value) : related Value (assignTo first target v) (assignTo second target' v) := by
  cases literal : target.isClosure with
  | true =>
    obtain ⟨_, same, _, refused⟩ := correspondence.closures linked literal
    cases same
    rw [closure_not_target first literal, refused]
    exact congruence.target
  | false =>
    obtain ⟨alike, _⟩ := correspondence.parts linked literal
    exact congruence.alike_target (Node.expr.inj alike) (under literal) v

theorem parts {link : Node → Node → Prop}
    (correspondence : Correspondence related first second link) (n : Node) :
    ∀ n', link n n' → n.Related related first second n' ∧ (n.isClosure = false →
      List.Forall₂ (Node.Related related first second) n.children n'.children) := by
  induction n using Node.by_children with
  | step n ih =>
    intro n' linked
    have each : n.isClosure = false →
        List.Forall₂ (Node.Related related first second) n.children n'.children := by
      intro plain
      have linkedEach := (correspondence.parts linked plain).2
      refine ((List.forall₂_and_left _ _).mpr ⟨ih, linkedEach⟩).imp ?_
      intro c c' both
      exact (both.1 c' both.2).1
    refine ⟨?_, each⟩
    cases n with
    | expr e =>
      cases literal : e.isClosure with
      | true =>
        obtain ⟨e', rfl, same, _⟩ := correspondence.closures linked literal
        rw [Node.Related, closure_eval first literal]
        exact same
      | false =>
        obtain ⟨alike, linkedEach⟩ := correspondence.parts linked literal
        cases n' with
        | expr e' =>
          refine congruence.expression (Node.expr.inj alike) literal ?_ (each literal)
          intro target value target' value' here there
          subst here there
          simp only [Node.children, Node.ofExpr, List.forall₂_cons] at linkedEach
          exact congruence.stored correspondence linkedEach.1
            (ih (.expr target) (by simp [Node.children, Node.ofExpr]) _ linkedEach.1).2
        | _ => cases alike
    | stmt s =>
      obtain ⟨alike, _⟩ := correspondence.parts linked rfl
      cases n' with
      | stmt s' =>
        refine congruence.statement (Node.stmt.inj alike) ?_ (each rfl)
        intro condition body same
        subst same
        exact correspondence.loops linked
      | _ => cases alike
    | _ => exact trivial

theorem bodies {link : Node → Node → Prop}
    (correspondence : Correspondence related first second link) {ss ss' : List Stmt}
    (linked : List.Forall₂ link (ss.map .stmt) (ss'.map .stmt)) :
    related Flow (Stmt.execAll first ss) (Stmt.execAll second ss') := by
  apply congruence.statement_list
  exact linked.imp fun n n' one => (congruence.parts correspondence n n' one).1

end Congruence

end ClosureLift
