import ClosureLift.Program.Node

/-!
The walk over a program, one step at a time. Every part is visited before the parts under it, so a
fact about all parts of a program can be proved by induction on the children of a part instead of
on the syntax.
-/
namespace ClosureLift

theorem expression_list_walk (es : List Expr) :
    Expr.nodesAll es = Node.preorderAll (es.map .expr) := by
  induction es with
  | nil => rfl
  | cons e rest ih => simp [Expr.nodesAll, ih, Node.preorderAll, Node.preorder]

theorem statement_list_walk (ss : List Stmt) :
    Stmt.nodesAll ss = Node.preorderAll (ss.map .stmt) := by
  induction ss with
  | nil => rfl
  | cons s rest ih => simp [Stmt.nodesAll, ih, Node.preorderAll, Node.preorder]

theorem method_list_walk (ms : List Method) :
    Method.nodesAll ms = Node.preorderAll (ms.map .method) := by
  induction ms with
  | nil => rfl
  | cons m rest ih => simp [Method.nodesAll, ih, Node.preorderAll, Node.preorder]

theorem lambda_walk (closure : Lambda) : closure.bodyNodes = Stmt.nodesAll closure.body := by
  cases closure
  rfl

theorem anonymous_class_walk (closure : AnonymousClass) :
    closure.memberNodes = closure.fields.map .field ++ Method.nodesAll closure.methods := by
  cases closure
  rfl

theorem method_walk (m : Method) : m.nodes = .method m :: Stmt.nodesAll m.body := by
  cases m
  rfl

namespace Node

@[simp] theorem preorderAll_nil : preorderAll [] = [] := rfl

@[simp] theorem preorderAll_cons (n : Node) (ns : List Node) :
    preorderAll (n :: ns) = n.preorder ++ preorderAll ns := rfl

@[simp] theorem preorderAll_append (ms ns : List Node) :
    preorderAll (ms ++ ns) = preorderAll ms ++ preorderAll ns := by
  simp [preorderAll]

theorem field_list_walk (fs : List Field) :
    preorderAll (fs.map .field) = fs.map .field := by
  induction fs with
  | nil => rfl
  | cons f rest ih => simp [preorder, ih]

theorem expression_walk (e : Expr) : e.nodes = .expr e :: preorderAll (ofExpr e) := by
  cases e with
  | lambda closure => simp [Expr.nodes, lambda_walk, ofExpr, statement_list_walk]
  | methodReference closure =>
    obtain ⟨_, _, _, _, target, _, _⟩ := closure
    cases target <;>
      simp [Expr.nodes, MethodReference.receiverNodes, Target.nodes, ofExpr, preorder]
  | anonymousClass closure =>
    simp [Expr.nodes, anonymous_class_walk, ofExpr, method_list_walk, field_list_walk]
  | _ => simp [Expr.nodes, ofExpr, preorder, expression_list_walk]

theorem statement_walk (s : Stmt) : s.nodes = .stmt s :: preorderAll (ofStmt s) := by
  cases s with
  | ret value => cases value <;> simp [Stmt.nodes, ofStmt, preorder]
  | _ => simp [Stmt.nodes, ofStmt, preorder, statement_list_walk]

theorem preorder_eq (n : Node) : n.preorder = n :: preorderAll n.children := by
  cases n with
  | cls c =>
    simp [preorder, Class.nodes, Constructor.nodes, children, field_list_walk, method_list_walk,
      statement_list_walk]
  | field f => rfl
  | constructor c => simp [preorder, Constructor.nodes, children, statement_list_walk]
  | method m => simp [preorder, method_walk, children, statement_list_walk]
  | stmt s => exact statement_walk s
  | expr e => exact expression_walk e

theorem mem_preorderAll {x : Node} {ns : List Node} :
    x ∈ preorderAll ns ↔ ∃ n ∈ ns, x ∈ n.preorder := by
  simp [preorderAll]

theorem self_mem_preorder (n : Node) : n ∈ n.preorder := by
  rw [preorder_eq]
  exact List.mem_cons_self

theorem mem_preorder_of_child {c n x : Node} (child : c ∈ n.children) (under : x ∈ c.preorder) :
    x ∈ n.preorder := by
  rw [preorder_eq]
  exact List.mem_cons_of_mem n (mem_preorderAll.mpr ⟨c, child, under⟩)

theorem statement_child_smaller {c : Node} {s : Stmt} (child : c ∈ ofStmt s) :
    sizeOf c < sizeOf (Node.stmt s) := by
  cases s with
  | expr value =>
    obtain rfl := List.mem_singleton.mp child
    simp only [expr.sizeOf_spec, stmt.sizeOf_spec, Stmt.expr.sizeOf_spec]
    omega
  | ret value =>
    cases value with
    | none => cases child
    | some value =>
      obtain rfl := List.mem_singleton.mp child
      simp only [expr.sizeOf_spec, stmt.sizeOf_spec, Stmt.ret.sizeOf_spec, Option.some.sizeOf_spec]
      omega
  | decl x init =>
    obtain rfl := List.mem_singleton.mp child
    simp only [expr.sizeOf_spec, stmt.sizeOf_spec, Stmt.decl.sizeOf_spec]
    omega
  | cond condition thenBranch elseBranch =>
    simp only [ofStmt, List.mem_cons, List.mem_append, List.mem_map] at child
    rcases child with rfl | ⟨s, member, rfl⟩ | ⟨s, member, rfl⟩
    · simp only [expr.sizeOf_spec, stmt.sizeOf_spec, Stmt.cond.sizeOf_spec]
      omega
    · have := List.sizeOf_lt_of_mem member
      simp only [stmt.sizeOf_spec, Stmt.cond.sizeOf_spec]
      omega
    · have := List.sizeOf_lt_of_mem member
      simp only [stmt.sizeOf_spec, Stmt.cond.sizeOf_spec]
      omega
  | loop condition body =>
    simp only [ofStmt, List.mem_cons, List.mem_map] at child
    rcases child with rfl | ⟨s, member, rfl⟩
    · simp only [expr.sizeOf_spec, stmt.sizeOf_spec, Stmt.loop.sizeOf_spec]
      omega
    · have := List.sizeOf_lt_of_mem member
      simp only [stmt.sizeOf_spec, Stmt.loop.sizeOf_spec]
      omega

theorem expression_child_smaller {c : Node} {e : Expr} (child : c ∈ ofExpr e) :
    sizeOf c < sizeOf (Node.expr e) := by
  cases e with
  | literal value => cases child
  | reference ref => cases child
  | assign target value =>
    simp only [ofExpr, List.mem_cons, List.not_mem_nil, or_false] at child
    rcases child with rfl | rfl
    all_goals
      simp only [expr.sizeOf_spec, Expr.assign.sizeOf_spec]
      omega
  | fieldAccess receiver name ty =>
    obtain rfl := List.mem_singleton.mp child
    simp only [expr.sizeOf_spec, Expr.fieldAccess.sizeOf_spec]
    omega
  | methodCall receiver name args typeArgs ty =>
    simp only [ofExpr, List.mem_cons, List.mem_map] at child
    rcases child with rfl | ⟨arg, member, rfl⟩
    · simp only [expr.sizeOf_spec, Expr.methodCall.sizeOf_spec]
      omega
    · have := List.sizeOf_lt_of_mem member
      simp only [expr.sizeOf_spec, Expr.methodCall.sizeOf_spec]
      omega
  | staticCall owner name args typeArgs ty =>
    obtain ⟨arg, member, rfl⟩ := List.mem_map.mp child
    have := List.sizeOf_lt_of_mem member
    simp only [expr.sizeOf_spec, Expr.staticCall.sizeOf_spec]
    omega
  | construct ty args =>
    obtain ⟨arg, member, rfl⟩ := List.mem_map.mp child
    have := List.sizeOf_lt_of_mem member
    simp only [expr.sizeOf_spec, Expr.construct.sizeOf_spec]
    omega
  | operation op args ty =>
    obtain ⟨arg, member, rfl⟩ := List.mem_map.mp child
    have := List.sizeOf_lt_of_mem member
    simp only [expr.sizeOf_spec, Expr.operation.sizeOf_spec]
    omega
  | conditional condition ifTrue ifFalse ty =>
    simp only [ofExpr, List.mem_cons, List.not_mem_nil, or_false] at child
    rcases child with rfl | rfl | rfl
    all_goals
      simp only [expr.sizeOf_spec, Expr.conditional.sizeOf_spec]
      omega
  | lambda closure =>
    cases closure
    simp only [ofExpr, List.mem_map] at child
    obtain ⟨s, member, rfl⟩ := child
    have := List.sizeOf_lt_of_mem member
    simp only [stmt.sizeOf_spec, expr.sizeOf_spec, Expr.lambda.sizeOf_spec, Lambda.mk.sizeOf_spec]
    omega
  | methodReference closure =>
    obtain ⟨_, _, _, _, target, _, _⟩ := closure
    cases target with
    | static owner => cases child
    | «instance» receiver =>
      obtain rfl := List.mem_singleton.mp child
      simp only [expr.sizeOf_spec, Expr.methodReference.sizeOf_spec, MethodReference.mk.sizeOf_spec,
        Target.instance.sizeOf_spec]
      omega
  | anonymousClass closure =>
    cases closure
    simp only [ofExpr, List.mem_append, List.mem_map] at child
    rcases child with ⟨f, member, rfl⟩ | ⟨m, member, rfl⟩
    all_goals
      have := List.sizeOf_lt_of_mem member
      simp only [field.sizeOf_spec, method.sizeOf_spec, expr.sizeOf_spec,
        Expr.anonymousClass.sizeOf_spec, AnonymousClass.mk.sizeOf_spec]
      omega

theorem child_smaller {c n : Node} (child : c ∈ n.children) : sizeOf c < sizeOf n := by
  cases n with
  | cls cl =>
    obtain ⟨_, _, _, fields, _, methods, _⟩ := cl
    simp only [children, List.mem_append, List.mem_cons, List.mem_map] at child
    rcases child with ⟨f, member, rfl⟩ | rfl | ⟨m, member, rfl⟩
    · have := List.sizeOf_lt_of_mem member
      simp only [field.sizeOf_spec, cls.sizeOf_spec, Class.mk.sizeOf_spec]
      omega
    · simp only [constructor.sizeOf_spec, cls.sizeOf_spec, Class.mk.sizeOf_spec]
      omega
    · have := List.sizeOf_lt_of_mem member
      simp only [method.sizeOf_spec, cls.sizeOf_spec, Class.mk.sizeOf_spec]
      omega
  | field f => cases child
  | constructor k =>
    cases k
    simp only [children, List.mem_map] at child
    obtain ⟨s, member, rfl⟩ := child
    have := List.sizeOf_lt_of_mem member
    simp only [stmt.sizeOf_spec, constructor.sizeOf_spec, Constructor.mk.sizeOf_spec]
    omega
  | method m =>
    cases m
    simp only [children, List.mem_map] at child
    obtain ⟨s, member, rfl⟩ := child
    have := List.sizeOf_lt_of_mem member
    simp only [stmt.sizeOf_spec, method.sizeOf_spec, Method.mk.sizeOf_spec]
    omega
  | stmt s => exact statement_child_smaller child
  | expr e => exact expression_child_smaller child

theorem by_children {motive : Node → Prop}
    (step : ∀ n, (∀ c ∈ n.children, motive c) → motive n) (n : Node) : motive n := by
  induction h : sizeOf n using Nat.strongRecOn generalizing n with
  | ind k ih =>
    apply step
    intro c child
    exact ih (sizeOf c) (by have := child_smaller child; omega) c rfl

theorem child_of_mem_preorder {c m n : Node} (member : m ∈ n.preorder) (child : c ∈ m.children) :
    c ∈ n.preorder := by
  induction n using by_children with
  | step n ih =>
    have split := member
    rw [preorder_eq, List.mem_cons, mem_preorderAll] at split
    rcases split with rfl | ⟨d, part, inside⟩
    · exact mem_preorder_of_child child (self_mem_preorder c)
    · exact mem_preorder_of_child part (ih d part inside)

theorem child_of_mem_preorderAll {c m : Node} {ns : List Node} (member : m ∈ preorderAll ns)
    (child : c ∈ m.children) : c ∈ preorderAll ns := by
  obtain ⟨n, among, inside⟩ := mem_preorderAll.mp member
  exact mem_preorderAll.mpr ⟨n, among, child_of_mem_preorder inside child⟩

def anyExpr : Expr := .literal .unit

def anyStmt : Stmt := .ret none

def bareTarget : Target → Target
  | .static owner => .static owner
  | .instance _ => .instance anyExpr

def bareExpr : Expr → Expr
  | .literal value => .literal value
  | .reference ref => .reference ref
  | .assign _ _ => .assign anyExpr anyExpr
  | .fieldAccess _ name ty => .fieldAccess anyExpr name ty
  | .methodCall _ name args typeArgs ty =>
    .methodCall anyExpr name (args.map fun _ => anyExpr) typeArgs ty
  | .staticCall owner name args typeArgs ty =>
    .staticCall owner name (args.map fun _ => anyExpr) typeArgs ty
  | .construct ty args => .construct ty (args.map fun _ => anyExpr)
  | .operation op args ty => .operation op (args.map fun _ => anyExpr) ty
  | .conditional _ _ _ ty => .conditional anyExpr anyExpr anyExpr ty
  | .lambda closure => .lambda { closure with body := [] }
  | .methodReference closure =>
    .methodReference { closure with target := bareTarget closure.target }
  | .anonymousClass closure => .anonymousClass { closure with methods := [] }

def bareStmt : Stmt → Stmt
  | .expr _ => .expr anyExpr
  | .ret value => .ret (value.map fun _ => anyExpr)
  | .decl x _ => .decl x anyExpr
  | .cond _ thenBranch elseBranch =>
    .cond anyExpr (thenBranch.map fun _ => anyStmt) (elseBranch.map fun _ => anyStmt)
  | .loop _ _ => .loop anyExpr []

/-- A part without the statements and expressions under it. Two parts with the same bare form are
the same construct and say the same of themselves. -/
def bare : Node → Node
  | .cls c => .cls { c with constructor := ⟨[], []⟩, methods := [] }
  | .field f => .field f
  | .constructor c => .constructor { c with body := [] }
  | .method m => .method { m with body := [] }
  | .stmt s => .stmt (bareStmt s)
  | .expr e => .expr (bareExpr e)

def introduces : Node → List Identifier
  | .cls c => [Identifier.top.type c.name]
  | n => n.declaredIds

def isClosure : Node → Bool
  | .expr e => e.isClosure
  | _ => false

theorem bare_same (n : Node) :
    n.bare.declares = n.declares ∧ n.bare.introduces = n.introduces ∧
      n.bare.isClosure = n.isClosure ∧ n.bare.reference? = n.reference? := by
  cases n with
  | stmt s => cases s <;> exact ⟨rfl, rfl, rfl, rfl⟩
  | expr e => cases e <;> exact ⟨rfl, rfl, rfl, rfl⟩
  | _ => exact ⟨rfl, rfl, rfl, rfl⟩

section

variable {m n : Node} (alike : m.bare = n.bare)
include alike

theorem alike_declares : m.declares = n.declares := by
  rw [← (bare_same m).1, alike, (bare_same n).1]

theorem alike_introduces : m.introduces = n.introduces := by
  rw [← (bare_same m).2.1, alike, (bare_same n).2.1]

theorem alike_isClosure : m.isClosure = n.isClosure := by
  rw [← (bare_same m).2.2.1, alike, (bare_same n).2.2.1]

theorem alike_reference : m.reference? = n.reference? := by
  rw [← (bare_same m).2.2.2, alike, (bare_same n).2.2.2]

end

theorem expression_list_same {ds es : List Expr} :
    ds.map Node.expr = es.map Node.expr ↔ ds = es :=
  List.map_inj_right fun _ _ same => Node.expr.inj same

theorem statement_list_same {rs ss : List Stmt} :
    rs.map Node.stmt = ss.map Node.stmt ↔ rs = ss :=
  List.map_inj_right fun _ _ same => Node.stmt.inj same

theorem method_list_same {ls ms : List Method} :
    ls.map Node.method = ms.map Node.method ↔ ls = ms :=
  List.map_inj_right fun _ _ same => Node.method.inj same

theorem alike_statement {r s : Stmt} (alike : bareStmt r = bareStmt s)
    (under : ofStmt r = ofStmt s) : r = s := by
  cases r with
  | cond condition yes no =>
    cases s with
    | cond condition' yes' no' =>
      obtain ⟨_, counted, _⟩ := Stmt.cond.inj alike
      obtain ⟨test, branches⟩ := List.cons.inj under
      have count : (yes.map Node.stmt).length = (yes'.map Node.stmt).length := by
        simpa using congrArg List.length counted
      obtain ⟨yesSame, noSame⟩ := List.append_inj branches count
      rw [Node.expr.inj test, statement_list_same.mp yesSame, statement_list_same.mp noSame]
    | _ => cases alike
  | ret value =>
    cases s with
    | ret other => cases value <;> cases other <;> simp_all [bareStmt, ofStmt]
    | _ => cases alike
  | _ => cases s <;> simp_all [bareStmt, ofStmt, statement_list_same]

theorem alike_expression {d e : Expr} (alike : bareExpr d = bareExpr e)
    (under : ofExpr d = ofExpr e) : d = e := by
  cases d <;> cases e <;> simp [bareExpr] at alike
  case lambda.lambda first second =>
    cases first
    cases second
    simp_all [ofExpr, statement_list_same]
  case methodReference.methodReference first second =>
    obtain ⟨_, _, _, _, target, _, _⟩ := first
    obtain ⟨_, _, _, _, target', _, _⟩ := second
    cases target <;> cases target' <;> simp_all [ofExpr, bareTarget]
  case anonymousClass.anonymousClass first second =>
    cases first
    cases second
    simp_all [ofExpr, method_list_same]
  all_goals simp_all [ofExpr, expression_list_same]

theorem alike_eq {m n : Node} (alike : m.bare = n.bare) (under : m.children = n.children) :
    m = n := by
  cases m <;> cases n <;> simp [bare] at alike
  case cls.cls c d =>
    obtain ⟨name, typeParams, superTypes, fields, span⟩ := alike
    simp [children, fields, method_list_same] at under
    cases c
    cases d
    simp_all
  case field.field => rw [alike]
  case constructor.constructor c d =>
    cases c
    cases d
    simp_all [children, statement_list_same]
  case method.method m n =>
    cases m
    cases n
    simp_all [children, statement_list_same]
  case stmt.stmt => rw [alike_statement alike under]
  case expr.expr => rw [alike_expression alike under]

end Node

end ClosureLift
