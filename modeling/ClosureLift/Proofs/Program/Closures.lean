import ClosureLift.Proofs.Program.Walk

/-!
The closure literals of a program in post-order: a literal comes after the literals inside it. These
are the literals of the walk, which visits them the other way round.
-/
namespace ClosureLift

mutual

def Expr.closures : Expr → List Expr
  | .literal _ | .reference _ => []
  | .assign target value => target.closures ++ value.closures
  | .fieldAccess receiver _ _ => receiver.closures
  | .methodCall receiver _ args _ _ => receiver.closures ++ Expr.closuresAll args
  | .staticCall _ _ args _ _ | .construct _ args | .operation _ args _ => Expr.closuresAll args
  | .conditional condition ifTrue ifFalse _ =>
    condition.closures ++ (ifTrue.closures ++ ifFalse.closures)
  | .lambda closure => closure.inner ++ [.lambda closure]
  | .methodReference closure => closure.inner ++ [.methodReference closure]
  | .anonymousClass closure => closure.inner ++ [.anonymousClass closure]

def Expr.closuresAll : List Expr → List Expr
  | [] => []
  | e :: rest => e.closures ++ Expr.closuresAll rest

def Lambda.inner : Lambda → List Expr
  | ⟨_, _, _, _, body, _⟩ => Stmt.closuresAll body

def MethodReference.inner : MethodReference → List Expr
  | ⟨_, _, _, _, target, _, _⟩ => target.closures

def Target.closures : Target → List Expr
  | .static _ => []
  | .instance receiver => receiver.closures

def AnonymousClass.inner : AnonymousClass → List Expr
  | ⟨_, _, _, methods, _⟩ => Method.closuresAll methods

def Method.closures : Method → List Expr
  | ⟨_, _, _, _, _, body⟩ => Stmt.closuresAll body

def Method.closuresAll : List Method → List Expr
  | [] => []
  | m :: rest => m.closures ++ Method.closuresAll rest

def Stmt.closures : Stmt → List Expr
  | .expr value => value.closures
  | .ret none => []
  | .ret (some value) => value.closures
  | .decl _ init => init.closures
  | .cond condition thenBranch elseBranch =>
    condition.closures ++ (Stmt.closuresAll thenBranch ++ Stmt.closuresAll elseBranch)
  | .loop condition body => condition.closures ++ Stmt.closuresAll body

def Stmt.closuresAll : List Stmt → List Expr
  | [] => []
  | s :: rest => s.closures ++ Stmt.closuresAll rest

end

def Class.closures (c : Class) : List Expr :=
  Stmt.closuresAll c.constructor.body ++ Method.closuresAll c.methods

/-- The closure literals of a program, each with the class that it was written in. -/
def Program.closures (program : Program) : List (Class × Expr) :=
  program.classes.flatMap fun c => c.closures.map (c, ·)

namespace Node

def closures : Node → List Expr
  | .cls c => c.closures
  | .field _ => []
  | .constructor c => Stmt.closuresAll c.body
  | .method m => m.closures
  | .stmt s => s.closures
  | .expr e => e.closures

def literal? : Node → Option Expr
  | .expr e => if e.isClosure then some e else none
  | _ => none

end Node

theorem expression_list_closures (es : List Expr) :
    Expr.closuresAll es = (es.map Node.expr).flatMap Node.closures := by
  induction es with
  | nil => rfl
  | cons e rest ih => simp [Expr.closuresAll, ih, Node.closures]

theorem statement_list_closures (ss : List Stmt) :
    Stmt.closuresAll ss = (ss.map Node.stmt).flatMap Node.closures := by
  induction ss with
  | nil => rfl
  | cons s rest ih => simp [Stmt.closuresAll, ih, Node.closures]

theorem method_list_closures (ms : List Method) :
    Method.closuresAll ms = (ms.map Node.method).flatMap Node.closures := by
  induction ms with
  | nil => rfl
  | cons m rest ih => simp [Method.closuresAll, ih, Node.closures]

theorem field_list_closures (fs : List Field) :
    (fs.map Node.field).flatMap Node.closures = [] := by
  induction fs with
  | nil => rfl
  | cons f rest ih => simp [ih, Node.closures]

theorem lambda_inner (closure : Lambda) : closure.inner = Stmt.closuresAll closure.body := by
  cases closure
  rfl

theorem anonymous_class_inner (closure : AnonymousClass) :
    closure.inner = Method.closuresAll closure.methods := by
  cases closure
  rfl

theorem method_closures (m : Method) : m.closures = Stmt.closuresAll m.body := by
  cases m
  rfl

namespace Node

theorem expression_closures (e : Expr) :
    e.closures = (ofExpr e).flatMap closures ++ (literal? (.expr e)).toList := by
  cases e with
  | lambda closure =>
    simp [Expr.closures, lambda_inner, ofExpr, statement_list_closures, literal?, Expr.isClosure,
      Expr.closureSpan?]
  | methodReference closure =>
    obtain ⟨_, _, _, _, target, _, _⟩ := closure
    cases target <;>
      simp [Expr.closures, MethodReference.inner, Target.closures, ofExpr, closures, literal?,
        Expr.isClosure, Expr.closureSpan?]
  | anonymousClass closure =>
    simp [Expr.closures, anonymous_class_inner, ofExpr, method_list_closures, field_list_closures,
      literal?, Expr.isClosure, Expr.closureSpan?]
  | _ =>
    simp [Expr.closures, ofExpr, closures, expression_list_closures, literal?, Expr.isClosure,
      Expr.closureSpan?]

theorem statement_closures (s : Stmt) : s.closures = (ofStmt s).flatMap closures := by
  cases s with
  | ret value => cases value <;> simp [Stmt.closures, ofStmt, closures]
  | _ => simp [Stmt.closures, ofStmt, closures, statement_list_closures]

theorem closures_eq (n : Node) : n.closures = n.children.flatMap closures ++ n.literal?.toList := by
  cases n with
  | cls c =>
    simp [closures, Class.closures, children, method_list_closures, field_list_closures,
      statement_list_closures, literal?]
  | field f => simp [closures, children, literal?]
  | constructor c => simp [closures, children, statement_list_closures, literal?]
  | method m => simp [closures, method_closures, children, statement_list_closures, literal?]
  | stmt s => simp [closures, children, literal?, statement_closures]
  | expr e => exact expression_closures e

theorem literal_eq_some {n : Node} {e : Expr} :
    n.literal? = some e ↔ n = .expr e ∧ e.isClosure = true := by
  cases n with
  | expr e' =>
    simp only [literal?, Node.expr.injEq]
    split
    · constructor
      · rintro ⟨⟩
        exact ⟨rfl, by assumption⟩
      · rintro ⟨rfl, _⟩
        rfl
    · constructor
      · rintro ⟨⟩
      · rintro ⟨rfl, literal⟩
        contradiction
  | _ => simp [literal?]

theorem mem_closures {n : Node} {e : Expr} :
    e ∈ n.closures ↔ .expr e ∈ n.preorder ∧ e.isClosure = true := by
  induction n using by_children with
  | step n ih =>
    rw [closures_eq, preorder_eq]
    simp only [List.mem_append, List.mem_flatMap, Option.mem_toList, List.mem_cons,
      mem_preorderAll, literal_eq_some]
    constructor
    · rintro (⟨c, child, member⟩ | ⟨rfl, literal⟩)
      · have found := (ih c child).mp member
        exact ⟨Or.inr ⟨c, child, found.1⟩, found.2⟩
      · exact ⟨Or.inl rfl, literal⟩
    · rintro ⟨rfl | ⟨c, child, under⟩, literal⟩
      · exact Or.inr ⟨rfl, literal⟩
      · exact Or.inl ⟨c, child, (ih c child).mpr ⟨under, literal⟩⟩

def ClosureFree (ns : List Node) : Prop := ∀ n ∈ preorderAll ns, n.isClosure = false

def closureMark (n : Node) : List Unit := if n.isClosure then [()] else []

theorem closure_free_iff_no_mark {ns : List Node} :
    ClosureFree ns ↔ (preorderAll ns).flatMap closureMark = [] := by
  simp [ClosureFree, closureMark, List.flatMap_eq_nil_iff]

theorem closure_mark_bare (n : Node) : closureMark n.bare = closureMark n := by
  rw [closureMark, (bare_same n).2.2.1]
  rfl

theorem closure_free_append {ms ns : List Node} :
    ClosureFree (ms ++ ns) ↔ ClosureFree ms ∧ ClosureFree ns := by
  simp only [ClosureFree, preorderAll_append, List.forall_mem_append]

theorem closure_free_cons {n : Node} {ns : List Node} :
    ClosureFree (n :: ns) ↔ n.isClosure = false ∧ ClosureFree n.children ∧ ClosureFree ns := by
  simp only [ClosureFree, preorderAll_cons, preorder_eq, List.cons_append, List.forall_mem_cons,
    List.forall_mem_append]

theorem closure_free_nil : ClosureFree [] := by
  simp [ClosureFree]

theorem ClosureFree.self {n : Node} {ns : List Node} (free : ClosureFree ns) (member : n ∈ ns) :
    n.isClosure = false :=
  free n (mem_preorderAll.mpr ⟨n, member, self_mem_preorder n⟩)

theorem ClosureFree.one {n : Node} {ns : List Node} (free : ClosureFree ns) (member : n ∈ ns) :
    ClosureFree [n] := by
  intro x under
  apply free x
  rw [mem_preorderAll] at under ⊢
  obtain ⟨m, same, inside⟩ := under
  rw [List.mem_singleton.mp same] at inside
  exact ⟨n, member, inside⟩

theorem ClosureFree.children {n : Node} {ns : List Node} (free : ClosureFree ns)
    (member : n ∈ ns) : ClosureFree n.children :=
  (closure_free_cons.mp (free.one member)).2.1

theorem closure_free_methods {ms : List Method} :
    ClosureFree (ms.map .method) ↔ ∀ m ∈ ms, ClosureFree (m.body.map .stmt) := by
  induction ms with
  | nil => simp [closure_free_nil]
  | cons m rest ih =>
    rw [List.map_cons, closure_free_cons, ih, List.forall_mem_cons]
    exact ⟨fun split => split.2, fun each => ⟨rfl, each⟩⟩

end Node

end ClosureLift
