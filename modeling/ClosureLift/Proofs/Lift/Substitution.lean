import ClosureLift.Lift.Substitution
import ClosureLift.Proofs.Program.Free
import Mathlib.Data.List.Basic

/-!
What a substitution does to a body. It refuses the first closure literal that it meets, and succeeds
on a body that holds none; the walk of the result is then the walk of the body with every reference
exchanged for the walk of the expression that stands for it.
-/
namespace ClosureLift

mutual

/-- The substitution without its refusals: closure literals are left as they are. -/
def Expr.replaced (σ : Substitution) : Expr → Expr
  | .literal value => .literal value
  | .reference ref => σ.reference ref
  | .assign target value => .assign (target.replaced σ) (value.replaced σ)
  | .fieldAccess receiver field ty => .fieldAccess (receiver.replaced σ) field ty
  | .methodCall receiver method args typeArgs ty =>
    .methodCall (receiver.replaced σ) method (Expr.replacedAll σ args) typeArgs ty
  | .staticCall cls method args typeArgs ty =>
    .staticCall cls method (Expr.replacedAll σ args) typeArgs ty
  | .construct ty args => .construct ty (Expr.replacedAll σ args)
  | .operation op args ty => .operation op (Expr.replacedAll σ args) ty
  | .conditional condition ifTrue ifFalse ty =>
    .conditional (condition.replaced σ) (ifTrue.replaced σ) (ifFalse.replaced σ) ty
  | .lambda closure => .lambda closure
  | .methodReference closure => .methodReference closure
  | .anonymousClass closure => .anonymousClass closure

def Expr.replacedAll (σ : Substitution) : List Expr → List Expr
  | [] => []
  | e :: rest => e.replaced σ :: Expr.replacedAll σ rest

end

mutual

def Stmt.replaced (σ : Substitution) : Stmt → Stmt
  | .expr value => .expr (value.replaced σ)
  | .ret none => .ret none
  | .ret (some value) => .ret (some (value.replaced σ))
  | .decl x init => .decl x (init.replaced σ)
  | .cond condition thenBranch elseBranch =>
    .cond (condition.replaced σ) (Stmt.replacedAll σ thenBranch) (Stmt.replacedAll σ elseBranch)
  | .loop condition body => .loop (condition.replaced σ) (Stmt.replacedAll σ body)

def Stmt.replacedAll (σ : Substitution) : List Stmt → List Stmt
  | [] => []
  | s :: rest => s.replaced σ :: Stmt.replacedAll σ rest

end

variable (σ : Substitution)

theorem expression_list_replaced (es : List Expr) :
    Expr.replacedAll σ es = es.map (Expr.replaced σ) := by
  induction es with
  | nil => rfl
  | cons e rest ih => rw [Expr.replacedAll, ih, List.map_cons]

theorem statement_list_replaced (ss : List Stmt) :
    Stmt.replacedAll σ ss = ss.map (Stmt.replaced σ) := by
  induction ss with
  | nil => rfl
  | cons s rest ih => rw [Stmt.replacedAll, ih, List.map_cons]

namespace Node

def refusal? : Node → Option LiftError
  | .expr (.lambda closure) => some ⟨.unsupportedConstruct "lambda", closure.span⟩
  | .expr (.methodReference closure) =>
    some ⟨.unsupportedConstruct closure.target.construct, closure.span⟩
  | .expr (.anonymousClass closure) =>
    some ⟨.unsupportedConstruct s!"anonymous class {closure.name.qualified}", closure.span⟩
  | _ => none

theorem refusal_eq_none {n : Node} : n.refusal? = none ↔ n.isClosure = false := by
  cases n with
  | expr e => cases e <;> simp [refusal?, isClosure, Expr.isClosure, Expr.closureSpan?]
  | _ => simp [refusal?, isClosure]

/-- What becomes of a result once the parts of a walk are looked at: the first refusal stands in for
it. -/
def verdict (parts : List Node) (result : α) : Except LiftError α :=
  match parts.findSome? refusal? with
  | some e => .error e
  | none => .ok result

theorem verdict_cons {n : Node} (plain : n.refusal? = none) (parts : List Node) (result : α) :
    verdict (n :: parts) result = verdict parts result := by
  rw [verdict, List.findSome?_cons, plain]
  rfl

theorem verdict_map (parts : List Node) (a : α) (f : α → β) :
    (verdict parts a >>= fun x => pure (f x)) = verdict parts (f a) := by
  unfold verdict
  cases parts.findSome? refusal? <;> rfl

theorem verdict_bind (parts later : List Node) (a : α) (f : α → β) :
    (verdict parts a >>= fun x => verdict later (f x)) = verdict (parts ++ later) (f a) := by
  simp only [verdict, List.findSome?_append]
  cases parts.findSome? refusal? <;> rfl

theorem verdict_ok {parts : List Node} {a b : α} :
    verdict parts a = .ok b ↔ (∀ n ∈ parts, n.isClosure = false) ∧ b = a := by
  have quiet : parts.findSome? refusal? = none ↔ ∀ n ∈ parts, n.isClosure = false := by
    simp only [List.findSome?_eq_none_iff, refusal_eq_none]
  rw [← quiet]
  unfold verdict
  cases parts.findSome? refusal? with
  | some e => simp
  | none => simp [eq_comm]

end Node

open Node (verdict verdict_cons verdict_map verdict_bind)

theorem substitute_expression_list {es : List Expr}
    (each : ∀ e ∈ es, e.substitute σ = verdict e.nodes (e.replaced σ)) :
    Expr.substituteAll σ es = verdict (Expr.nodesAll es) (Expr.replacedAll σ es) := by
  induction es with
  | nil => rfl
  | cons e rest ih =>
    rw [Expr.substituteAll, each e List.mem_cons_self,
      ih fun e member => each e (List.mem_cons_of_mem _ member)]
    simp only [verdict_map, verdict_bind, Expr.nodesAll, Expr.replacedAll]

theorem substitute_statement_list {ss : List Stmt}
    (each : ∀ s ∈ ss, s.substitute σ = verdict s.nodes (s.replaced σ)) :
    Stmt.substituteAll σ ss = verdict (Stmt.nodesAll ss) (Stmt.replacedAll σ ss) := by
  induction ss with
  | nil => rfl
  | cons s rest ih =>
    rw [Stmt.substituteAll, each s List.mem_cons_self,
      ih fun s member => each s (List.mem_cons_of_mem _ member)]
    simp only [verdict_map, verdict_bind, Stmt.nodesAll, Stmt.replacedAll]

namespace Node

def Substitutes : Node → Prop
  | .expr e => e.substitute σ = verdict e.nodes (e.replaced σ)
  | .stmt s => s.substitute σ = verdict s.nodes (s.replaced σ)
  | _ => True

theorem statement_substitutes (s : Stmt) (under : ∀ c ∈ ofStmt s, c.Substitutes σ) :
    Substitutes σ (.stmt s) := by
  have plain : refusal? (.stmt s) = none := rfl
  cases s with
  | ret value =>
    cases value with
    | none => rfl
    | some value =>
      simp only [ofStmt, Option.map_some, Option.toList_some, List.forall_mem_singleton,
        Substitutes] at under
      simp only [Substitutes, Stmt.substitute, under, Stmt.replaced, Stmt.nodes, verdict_map,
        verdict_cons plain]
  | cond condition thenBranch elseBranch =>
    simp only [ofStmt, List.forall_mem_cons, List.forall_mem_append, List.forall_mem_map,
      Substitutes] at under
    obtain ⟨first, second, third⟩ := under
    simp only [Substitutes, Stmt.substitute, first, substitute_statement_list σ second,
      substitute_statement_list σ third, Stmt.replaced, Stmt.nodes, verdict_map, verdict_bind,
      verdict_cons plain]
  | loop condition body =>
    simp only [ofStmt, List.forall_mem_cons, List.forall_mem_map, Substitutes] at under
    obtain ⟨first, second⟩ := under
    simp only [Substitutes, Stmt.substitute, first, substitute_statement_list σ second,
      Stmt.replaced, Stmt.nodes, verdict_map, verdict_bind, verdict_cons plain]
  | expr value =>
    simp only [ofStmt, List.forall_mem_singleton, Substitutes] at under
    simp only [Substitutes, Stmt.substitute, under, Stmt.replaced, Stmt.nodes, verdict_map,
      verdict_cons plain]
  | decl x init =>
    simp only [ofStmt, List.forall_mem_singleton, Substitutes] at under
    simp only [Substitutes, Stmt.substitute, under, Stmt.replaced, Stmt.nodes, verdict_map,
      verdict_cons plain]

theorem expression_substitutes (e : Expr) (under : ∀ c ∈ ofExpr e, c.Substitutes σ) :
    Substitutes σ (.expr e) := by
  cases e with
  | literal value => rfl
  | reference ref => rfl
  | lambda closure => rfl
  | methodReference closure => rfl
  | anonymousClass closure => rfl
  | assign target value =>
    simp only [ofExpr, List.forall_mem_cons, Substitutes] at under
    simp only [Substitutes, Expr.substitute, under, Expr.replaced, Expr.nodes, verdict_map,
      verdict_bind]
    exact (verdict_cons rfl _ _).symm
  | fieldAccess receiver name ty =>
    simp only [ofExpr, List.forall_mem_singleton, Substitutes] at under
    simp only [Substitutes, Expr.substitute, under, Expr.replaced, Expr.nodes, verdict_map]
    exact (verdict_cons rfl _ _).symm
  | methodCall receiver name args typeArgs ty =>
    simp only [ofExpr, List.forall_mem_cons, List.forall_mem_map, Substitutes] at under
    simp only [Substitutes, Expr.substitute, under.1, substitute_expression_list σ under.2,
      Expr.replaced, Expr.nodes, verdict_map, verdict_bind]
    exact (verdict_cons rfl _ _).symm
  | staticCall owner name args typeArgs ty =>
    simp only [ofExpr, List.forall_mem_map, Substitutes] at under
    simp only [Substitutes, Expr.substitute, substitute_expression_list σ under, Expr.replaced,
      Expr.nodes, verdict_map]
    exact (verdict_cons rfl _ _).symm
  | construct ty args =>
    simp only [ofExpr, List.forall_mem_map, Substitutes] at under
    simp only [Substitutes, Expr.substitute, substitute_expression_list σ under, Expr.replaced,
      Expr.nodes, verdict_map]
    exact (verdict_cons rfl _ _).symm
  | operation op args ty =>
    simp only [ofExpr, List.forall_mem_map, Substitutes] at under
    simp only [Substitutes, Expr.substitute, substitute_expression_list σ under, Expr.replaced,
      Expr.nodes, verdict_map]
    exact (verdict_cons rfl _ _).symm
  | conditional condition ifTrue ifFalse ty =>
    simp only [ofExpr, List.forall_mem_cons, Substitutes] at under
    simp only [Substitutes, Expr.substitute, under, Expr.replaced, Expr.nodes, verdict_map,
      verdict_bind]
    exact (verdict_cons rfl _ _).symm

theorem substitution_exact (n : Node) : n.Substitutes σ := by
  induction n using by_children with
  | step n ih =>
    cases n with
    | stmt s => exact statement_substitutes σ s ih
    | expr e => exact expression_substitutes σ e ih
    | _ => trivial

end Node

theorem substitute_body (ss : List Stmt) :
    Stmt.substituteAll σ ss = verdict (Stmt.nodesAll ss) (Stmt.replacedAll σ ss) :=
  substitute_statement_list σ fun s _ => Node.substitution_exact σ (.stmt s)

theorem substitute_body_ok {ss ss' : List Stmt} :
    Stmt.substituteAll σ ss = .ok ss' ↔
      Node.ClosureFree (ss.map .stmt) ∧ ss' = Stmt.replacedAll σ ss := by
  rw [substitute_body, Node.verdict_ok, statement_list_walk]
  rfl

namespace Node

def replaced : Node → Node
  | .cls c =>
    .cls { c with
      constructor := { c.constructor with body := Stmt.replacedAll σ c.constructor.body }
      methods := c.methods.map fun m => { m with body := Stmt.replacedAll σ m.body } }
  | .field f => .field f
  | .constructor c => .constructor { c with body := Stmt.replacedAll σ c.body }
  | .method m => .method { m with body := Stmt.replacedAll σ m.body }
  | .stmt s => .stmt (s.replaced σ)
  | .expr e => .expr (e.replaced σ)

theorem children_replaced (n : Node) (plain : n.isClosure = false) (other : n.reference? = none) :
    (n.replaced σ).children = n.children.map (replaced σ) := by
  cases n with
  | stmt s =>
    cases s with
    | ret value => cases value <;> rfl
    | _ =>
      simp [replaced, Node.children, Stmt.replaced, ofStmt, statement_list_replaced,
        Function.comp_def]
  | expr e =>
    cases e with
    | lambda closure => cases plain
    | methodReference closure => cases plain
    | anonymousClass closure => cases plain
    | reference ref => cases other
    | _ =>
      simp [replaced, Node.children, Expr.replaced, ofExpr, expression_list_replaced,
        Function.comp_def]
  | _ => simp [replaced, Node.children, statement_list_replaced, Function.comp_def]

theorem bare_replaced (n : Node) (plain : n.isClosure = false) (other : n.reference? = none) :
    (n.replaced σ).bare = n.bare := by
  cases n with
  | stmt s =>
    cases s with
    | ret value => cases value <;> rfl
    | _ =>
      simp [replaced, bare, Stmt.replaced, bareStmt, statement_list_replaced, Function.comp_def]
  | expr e =>
    cases e with
    | lambda closure => cases plain
    | methodReference closure => cases plain
    | anonymousClass closure => cases plain
    | reference ref => cases other
    | _ =>
      simp [replaced, bare, Expr.replaced, bareExpr, expression_list_replaced, Function.comp_def]
  | _ => rfl

def exchanged (f : Node → List α) (n : Node) : List α :=
  match n.reference? with
  | some ref => (σ.reference ref).nodes.flatMap f
  | none => f n

theorem walk_replaced_alike (f : Node → List α)
    (same : ∀ m n : Node, m.bare = n.bare → m.children.length = n.children.length → f m = f n)
    (n : Node) (free : ClosureFree [n]) :
    (n.replaced σ).preorder.flatMap f = n.preorder.flatMap (exchanged σ f) := by
  induction n using by_children with
  | step n ih =>
    have plain := free.self List.mem_cons_self
    cases other : n.reference? with
    | some ref =>
      cases n with
      | expr e =>
        cases e with
        | reference ref' =>
          simp [replaced, preorder, Expr.replaced, Expr.nodes, exchanged, reference?]
        | _ => cases other
      | _ => cases other
    | none =>
      have under := children_replaced σ n plain other
      have alone : f (n.replaced σ) = f n :=
        same _ _ (bare_replaced σ n plain other) (by rw [under, List.length_map])
      rw [preorder_eq, preorder_eq n, under]
      simp only [preorderAll, List.flatMap_cons, List.flatMap_map, List.flatMap_assoc, alone]
      congr 1
      · simp [exchanged, other]
      · apply List.flatMap_congr
        intro c child
        exact ih c child ((free.children List.mem_cons_self).one child)

theorem walk_replaced (f : Node → List α) (own : ∀ n, f n.bare = f n) (n : Node)
    (free : ClosureFree [n]) :
    (n.replaced σ).preorder.flatMap f = n.preorder.flatMap (exchanged σ f) := by
  apply walk_replaced_alike σ f _ n free
  intro m n alike _
  rw [← own, alike, own]

theorem reads_of_replaced {σ : Substitution} {n : Node} {ref : Reference} (free : ClosureFree [n])
    (reads : .expr (.reference ref) ∈ (n.replaced σ).preorder) :
    ∃ old, .expr (.reference old) ∈ n.preorder ∧
      .expr (.reference ref) ∈ (σ.reference old).nodes := by
  have walk := walk_replaced σ (fun m => m.reference?.toList)
    (fun m => by rw [(bare_same m).2.2.2]) n free
  have found : ref ∈ (n.replaced σ).preorder.flatMap fun m => m.reference?.toList :=
    List.mem_flatMap.mpr ⟨_, reads, by simp [reference?]⟩
  rw [walk, List.mem_flatMap] at found
  obtain ⟨part, inside, exchange⟩ := found
  unfold exchanged at exchange
  split at exchange
  · rename_i old same
    rw [reference_eq_some] at same
    obtain ⟨piece, member, read⟩ := List.mem_flatMap.mp exchange
    rw [Option.mem_toList, reference_eq_some] at read
    exact ⟨old, same ▸ inside, read ▸ member⟩
  · rename_i none
    simp [none] at exchange

end Node

end ClosureLift
