import ClosureLift.Proofs.Program.Renaming
import Mathlib.Data.List.Forall2

/-!
Places in a program. A place says which part to go down to, step by step, and every part of the walk
stands at one. At the place of an expression another one can be put. All else stays, and the walk
changes where it went through the expression and nowhere else.
-/
namespace ClosureLift

namespace Node

def part? : Node → List Nat → Option Node
  | n, [] => some n
  | n, i :: rest => n.children[i]?.bind fun c => c.part? rest

theorem part_mem_preorder {n m : Node} {place : List Nat} (there : n.part? place = some m) :
    m ∈ n.preorder := by
  induction place generalizing n with
  | nil =>
    cases there
    exact self_mem_preorder _
  | cons i rest ih =>
    obtain ⟨c, child, under⟩ := Option.bind_eq_some_iff.mp there
    exact mem_preorder_of_child (List.mem_of_getElem? child) (ih under)

theorem part_rename (σ : TypeName → TypeName) (n : Node) (place : List Nat) :
    (n.rename σ).part? place = (n.part? place).map (rename σ) := by
  induction place generalizing n with
  | nil => rfl
  | cons i rest ih =>
    rw [part?, part?, children_rename, List.getElem?_map]
    cases n.children[i]? with
    | none => rfl
    | some c => exact ih c

theorem mem_preorder_part {m n : Node} (member : m ∈ n.preorder) :
    ∃ place, n.part? place = some m := by
  induction n using by_children with
  | step n ih =>
    rw [preorder_eq, List.mem_cons, mem_preorderAll] at member
    rcases member with rfl | ⟨c, child, inside⟩
    · exact ⟨[], rfl⟩
    · obtain ⟨i, there⟩ := List.getElem?_of_mem child
      obtain ⟨rest, below⟩ := ih c child inside
      exact ⟨i :: rest, by rw [part?, there]; exact below⟩

/-- The right part can take the place of the left one under the same part. Fields stay. -/
inductive Fits : Node → Node → Prop where
  | cls (c c' : Class) : Fits (.cls c) (.cls c')
  | field (f : Field) : Fits (.field f) (.field f)
  | constructor (c c' : Constructor) : Fits (.constructor c) (.constructor c')
  | method (m m' : Method) : Fits (.method m) (.method m')
  | stmt (s s' : Stmt) : Fits (.stmt s) (.stmt s')
  | expr (e e' : Expr) : Fits (.expr e) (.expr e')

theorem Fits.refl (n : Node) : Fits n n := by
  cases n <;> constructor

def expr? : Node → Option Expr
  | .expr e => some e
  | _ => none

def stmt? : Node → Option Stmt
  | .stmt s => some s
  | _ => none

def method? : Node → Option Method
  | .method m => some m
  | _ => none

def exprs (ns : List Node) : List Expr := ns.filterMap expr?

def stmts (ns : List Node) : List Stmt := ns.filterMap stmt?

def methods (ns : List Node) : List Method := ns.filterMap method?

@[simp] theorem exprs_map (es : List Expr) : exprs (es.map .expr) = es := by
  rw [exprs, List.filterMap_map]
  exact List.filterMap_some

@[simp] theorem stmts_map (ss : List Stmt) : stmts (ss.map .stmt) = ss := by
  rw [stmts, List.filterMap_map]
  exact List.filterMap_some

@[simp] theorem methods_map (ms : List Method) : methods (ms.map .method) = ms := by
  rw [methods, List.filterMap_map]
  exact List.filterMap_some

def stmtWith : List Node → Stmt → Stmt
  | .expr value :: _, .expr _ => .expr value
  | .expr value :: _, .ret (some _) => .ret (some value)
  | .expr init :: _, .decl x _ => .decl x init
  | .expr condition :: branches, .cond _ thenBranch _ =>
    .cond condition (stmts (branches.take thenBranch.length))
      (stmts (branches.drop thenBranch.length))
  | .expr condition :: body, .loop _ _ => .loop condition (stmts body)
  | _, s => s

def exprWith : List Node → Expr → Expr
  | [.expr target, .expr value], .assign _ _ => .assign target value
  | .expr receiver :: _, .fieldAccess _ name ty => .fieldAccess receiver name ty
  | .expr receiver :: args, .methodCall _ name _ typeArgs ty =>
    .methodCall receiver name (exprs args) typeArgs ty
  | args, .staticCall owner name _ typeArgs ty => .staticCall owner name (exprs args) typeArgs ty
  | args, .construct ty _ => .construct ty (exprs args)
  | args, .operation op _ ty => .operation op (exprs args) ty
  | [.expr condition, .expr ifTrue, .expr ifFalse], .conditional _ _ _ ty =>
    .conditional condition ifTrue ifFalse ty
  | body, .lambda closure => .lambda { closure with body := stmts body }
  | .expr receiver :: _, .methodReference closure =>
    .methodReference { closure with target := .instance receiver }
  | members, .anonymousClass closure =>
    .anonymousClass { closure with methods := methods (members.drop closure.fields.length) }
  | _, e => e

def classWith (members : List Node) (c : Class) : Class :=
  match members.drop c.fields.length with
  | .constructor k :: rest => { c with constructor := k, methods := methods rest }
  | _ => c

def withParts (parts : List Node) : Node → Node
  | .cls c => .cls (classWith parts c)
  | .field f => .field f
  | .constructor c => .constructor { c with body := stmts parts }
  | .method m => .method { m with body := stmts parts }
  | .stmt s => .stmt (stmtWith parts s)
  | .expr e => .expr (exprWith parts e)

section

variable {parts : List Node}

theorem fits_list {mk : α → Node} (one : ∀ a n, Fits (mk a) n → ∃ b, n = mk b) {as : List α}
    (fits : List.Forall₂ Fits (as.map mk) parts) :
    ∃ bs : List α, bs.length = as.length ∧ parts = bs.map mk := by
  rw [List.forall₂_map_left_iff] at fits
  induction fits with
  | nil => exact ⟨[], rfl, rfl⟩
  | cons head tail ih =>
    obtain ⟨b, rfl⟩ := one _ _ head
    obtain ⟨bs, count, rfl⟩ := ih
    exact ⟨b :: bs, congrArg (· + 1) count, rfl⟩

theorem fits_fields {fs : List Field} (fits : List.Forall₂ Fits (fs.map .field) parts) :
    parts = fs.map .field := by
  rw [List.forall₂_map_left_iff] at fits
  induction fits with
  | nil => rfl
  | cons head tail ih =>
    cases head
    rw [ih]
    rfl

theorem fits_append {first later : List Node} (fits : List.Forall₂ Fits (first ++ later) parts) :
    ∃ ms ns, parts = ms ++ ns ∧ List.Forall₂ Fits first ms ∧ List.Forall₂ Fits later ns := by
  induction first generalizing parts with
  | nil => exact ⟨[], parts, rfl, .nil, fits⟩
  | cons n rest ih =>
    cases fits with
    | cons head tail =>
      obtain ⟨ms, ns, rfl, here, there⟩ := ih tail
      exact ⟨_ :: ms, ns, rfl, .cons head here, there⟩

theorem expression_list_fits {es : List Expr} (fits : List.Forall₂ Fits (es.map .expr) parts) :
    ∃ es' : List Expr, es'.length = es.length ∧ parts = es'.map .expr :=
  fits_list (fun _ _ one => by cases one; exact ⟨_, rfl⟩) fits

theorem statement_list_fits {ss : List Stmt} (fits : List.Forall₂ Fits (ss.map .stmt) parts) :
    ∃ ss' : List Stmt, ss'.length = ss.length ∧ parts = ss'.map .stmt :=
  fits_list (fun _ _ one => by cases one; exact ⟨_, rfl⟩) fits

theorem method_list_fits {ms : List Method} (fits : List.Forall₂ Fits (ms.map .method) parts) :
    ∃ ms' : List Method, ms'.length = ms.length ∧ parts = ms'.map .method :=
  fits_list (fun _ _ one => by cases one; exact ⟨_, rfl⟩) fits

theorem stmt_with_parts {s : Stmt} (fits : List.Forall₂ Fits (ofStmt s) parts) :
    bareStmt (stmtWith parts s) = bareStmt s ∧ ofStmt (stmtWith parts s) = parts := by
  cases s with
  | expr value =>
    cases fits with
    | cons head tail =>
      cases head
      cases tail
      exact ⟨rfl, rfl⟩
  | ret value =>
    cases value with
    | none =>
      cases fits
      exact ⟨rfl, rfl⟩
    | some value =>
      cases fits with
      | cons head tail =>
        cases head
        cases tail
        exact ⟨rfl, rfl⟩
  | decl x init =>
    cases fits with
    | cons head tail =>
      cases head
      cases tail
      exact ⟨rfl, rfl⟩
  | cond condition thenBranch elseBranch =>
    cases fits with
    | cons head tail =>
      cases head
      obtain ⟨_, _, rfl, first, second⟩ := fits_append tail
      obtain ⟨ss, count, rfl⟩ := statement_list_fits first
      obtain ⟨ss', count', rfl⟩ := statement_list_fits second
      have first : (ss.map Node.stmt ++ ss'.map Node.stmt).take thenBranch.length =
          ss.map Node.stmt := List.take_left' (by rw [List.length_map, count])
      have second : (ss.map Node.stmt ++ ss'.map Node.stmt).drop thenBranch.length =
          ss'.map Node.stmt := List.drop_left' (by rw [List.length_map, count])
      rw [stmtWith, first, second, stmts_map, stmts_map]
      exact ⟨by simp [bareStmt, List.map_const', count, count'], rfl⟩
  | loop condition body =>
    cases fits with
    | cons head tail =>
      cases head
      obtain ⟨ss, _, rfl⟩ := statement_list_fits tail
      simp [stmtWith, bareStmt, ofStmt]

theorem expr_with_parts {e : Expr} (fits : List.Forall₂ Fits (ofExpr e) parts) :
    bareExpr (exprWith parts e) = bareExpr e ∧ ofExpr (exprWith parts e) = parts := by
  cases e with
  | literal value =>
    cases fits
    exact ⟨rfl, rfl⟩
  | reference ref =>
    cases fits
    exact ⟨rfl, rfl⟩
  | assign target value =>
    cases fits with
    | cons head tail =>
      cases head
      cases tail with
      | cons second none =>
        cases second
        cases none
        exact ⟨rfl, rfl⟩
  | fieldAccess receiver name ty =>
    cases fits with
    | cons head tail =>
      cases head
      cases tail
      exact ⟨rfl, rfl⟩
  | methodCall receiver name args typeArgs ty =>
    cases fits with
    | cons head tail =>
      cases head
      obtain ⟨es, count, rfl⟩ := expression_list_fits tail
      simp [exprWith, bareExpr, ofExpr, List.map_const', count]
  | staticCall owner name args typeArgs ty =>
    obtain ⟨es, count, rfl⟩ := expression_list_fits fits
    simp [exprWith, bareExpr, ofExpr, List.map_const', count]
  | construct ty args =>
    obtain ⟨es, count, rfl⟩ := expression_list_fits fits
    simp [exprWith, bareExpr, ofExpr, List.map_const', count]
  | operation op args ty =>
    obtain ⟨es, count, rfl⟩ := expression_list_fits fits
    simp [exprWith, bareExpr, ofExpr, List.map_const', count]
  | conditional condition ifTrue ifFalse ty =>
    cases fits with
    | cons head tail =>
      cases head
      cases tail with
      | cons second tail =>
        cases second
        cases tail with
        | cons third none =>
          cases third
          cases none
          exact ⟨rfl, rfl⟩
  | lambda closure =>
    obtain ⟨ss, _, rfl⟩ := statement_list_fits fits
    simp [exprWith, bareExpr, ofExpr]
  | methodReference closure =>
    obtain ⟨_, _, _, _, target, _, _⟩ := closure
    cases target with
    | static owner =>
      cases fits
      exact ⟨rfl, rfl⟩
    | «instance» receiver =>
      cases fits with
      | cons head tail =>
        cases head
        cases tail
        exact ⟨rfl, rfl⟩
  | anonymousClass closure =>
    obtain ⟨_, _, rfl, fields, methods⟩ := fits_append fits
    obtain rfl := fits_fields fields
    obtain ⟨ms, _, rfl⟩ := method_list_fits methods
    rw [exprWith, List.drop_left' (List.length_map ..), methods_map]
    exact ⟨rfl, rfl⟩

theorem with_parts {n : Node} (fits : List.Forall₂ Fits n.children parts) :
    (n.withParts parts).bare = n.bare ∧ (n.withParts parts).children = parts := by
  cases n with
  | cls c =>
    obtain ⟨_, _, rfl, fields, members⟩ := fits_append fits
    obtain rfl := fits_fields fields
    cases members with
    | cons head tail =>
      cases head with
      | constructor _ k =>
        obtain ⟨ms, _, rfl⟩ := method_list_fits tail
        have members : classWith (c.fields.map .field ++ .constructor k :: ms.map .method) c =
            { c with constructor := k, methods := ms } := by
          rw [classWith, List.drop_left' (List.length_map ..)]
          simp only [methods_map]
        rw [withParts, members]
        exact ⟨rfl, rfl⟩
  | field f =>
    cases fits
    exact ⟨rfl, rfl⟩
  | constructor c =>
    obtain ⟨ss, _, rfl⟩ := statement_list_fits fits
    simp [withParts, bare, children]
  | method m =>
    obtain ⟨ss, _, rfl⟩ := statement_list_fits fits
    simp [withParts, bare, children]
  | stmt s =>
    obtain ⟨same, under⟩ := stmt_with_parts fits
    exact ⟨congrArg Node.stmt same, under⟩
  | expr e =>
    obtain ⟨same, under⟩ := expr_with_parts fits
    exact ⟨congrArg Node.expr same, under⟩

end

theorem fits_with_parts (n : Node) (parts : List Node) : Fits n (n.withParts parts) := by
  cases n <;> constructor

theorem fits_modify {ns : List Node} {c : Node} {i : Nat} {f : Node → Node}
    (child : ns[i]? = some c) (fits : Fits c (f c)) : List.Forall₂ Fits ns (ns.modify i f) := by
  induction ns generalizing i with
  | nil => cases child
  | cons n rest ih =>
    have kept : List.Forall₂ Fits rest rest := List.forall₂_same.mpr fun m _ => .refl m
    cases i with
    | zero =>
      cases child
      exact .cons fits kept
    | succ i => exact .cons (.refl n) (ih child)

def put (e : Expr) : List Nat → Node → Node
  | [], _ => .expr e
  | i :: rest, n => n.withParts (n.children.modify i (put e rest))

def at? (ns : List Node) : List Nat → Option Node
  | [] => none
  | i :: rest => ns[i]?.bind (·.part? rest)

def putAt (ns : List Node) (e : Expr) : List Nat → List Node
  | [] => ns
  | i :: rest => ns.modify i (put e rest)

/-- Two walks that differ where they go through an expression. The parts before it are the same
constructs, and the parts after it are the same. -/
def Differ (old new : Expr) (outside : Node → Prop) (walk walk' : List Node) : Prop :=
  ∃ before before' after, walk = before ++ (old.nodes ++ after) ∧
    walk' = before' ++ (new.nodes ++ after) ∧ before'.map bare = before.map bare ∧
    ∀ m ∈ before ++ after, outside m

theorem sibling_place {ns : List Node} {i : Nat} {m : Node}
    (member : m ∈ preorderAll (ns.take i) ∨ m ∈ preorderAll (ns.drop (i + 1))) :
    ∃ j other, j ≠ i ∧ at? ns (j :: other) = some m := by
  have placed : ∀ j n, ns[j]? = some n → m ∈ n.preorder →
      ∃ other, at? ns (j :: other) = some m := by
    intro j n there inside
    obtain ⟨other, below⟩ := mem_preorder_part inside
    exact ⟨other, by rw [at?, there]; exact below⟩
  rcases member with earlier | later
  · obtain ⟨n, among, inside⟩ := mem_preorderAll.mp earlier
    obtain ⟨j, there⟩ := List.getElem?_of_mem among
    rw [List.getElem?_take] at there
    split at there
    · obtain ⟨other, place⟩ := placed j n there inside
      exact ⟨j, other, by omega, place⟩
    · cases there
  · obtain ⟨n, among, inside⟩ := mem_preorderAll.mp later
    obtain ⟨j, there⟩ := List.getElem?_of_mem among
    rw [List.getElem?_drop] at there
    obtain ⟨other, place⟩ := placed _ n there inside
    exact ⟨_, other, by omega, place⟩

theorem put_at_differs {ns : List Node} {c : Node} {i : Nat} {rest : List Nat} {old new : Expr}
    (child : ns[i]? = some c)
    (inner : Differ old new (fun m => ∃ other, c.part? other = some m ∧ ¬ rest <+: other)
      c.preorder (c.put new rest).preorder) :
    Differ old new (fun m => ∃ other, at? ns other = some m ∧ ¬ i :: rest <+: other)
      (preorderAll ns) (preorderAll (putAt ns new (i :: rest))) := by
  obtain ⟨before, before', after, walk, walk', same, outside⟩ := inner
  obtain ⟨inside, here⟩ := List.getElem?_eq_some_iff.mp child
  have split : ns = ns.take i ++ c :: ns.drop (i + 1) := by
    rw [← here, ← List.drop_eq_getElem_cons inside, List.take_append_drop]
  refine ⟨preorderAll (ns.take i) ++ before, preorderAll (ns.take i) ++ before',
    after ++ preorderAll (ns.drop (i + 1)), ?_, ?_, ?_, ?_⟩
  · conv_lhs => rw [split]
    rw [preorderAll_append, preorderAll_cons, walk]
    simp only [List.append_assoc]
  · rw [putAt, List.modify_eq_take_cons_drop inside, here, preorderAll_append, preorderAll_cons,
      walk']
    simp only [List.append_assoc]
  · rw [List.map_append, List.map_append, same]
  · intro m member
    have cases : m ∈ before ++ after ∨
        (m ∈ preorderAll (ns.take i) ∨ m ∈ preorderAll (ns.drop (i + 1))) := by
      simp only [List.mem_append] at member ⊢
      tauto
    rcases cases with within | beside
    · obtain ⟨other, there, apart⟩ := outside m within
      refine ⟨i :: other, by rw [at?, child]; exact there, ?_⟩
      intro under
      exact apart (List.cons_prefix_cons.mp under).2
    · obtain ⟨j, other, different, there⟩ := sibling_place beside
      refine ⟨j :: other, there, ?_⟩
      intro under
      exact different (List.cons_prefix_cons.mp under).1.symm

theorem put_differs {n : Node} {place : List Nat} {old new : Expr}
    (there : n.part? place = some (.expr old)) :
    Fits n (n.put new place) ∧
      Differ old new (fun m => ∃ other, n.part? other = some m ∧ ¬ place <+: other)
        n.preorder (n.put new place).preorder := by
  induction place generalizing n with
  | nil =>
    cases there
    exact ⟨.expr old new, [], [], [], by simp [preorder], by simp [put, preorder], rfl, by simp⟩
  | cons i rest ih =>
    obtain ⟨c, child, under⟩ := Option.bind_eq_some_iff.mp there
    obtain ⟨fits, inner⟩ := ih under
    obtain ⟨before, before', after, walk, walk', same, outside⟩ := put_at_differs child inner
    obtain ⟨alike, parts⟩ := with_parts (fits_modify child fits)
    refine ⟨fits_with_parts n _, n :: before, n.put new (i :: rest) :: before', after,
      ?_, ?_, ?_, ?_⟩
    · rw [preorder_eq, walk]
      rfl
    · rw [preorder_eq, put, parts]
      exact congrArg (_ :: ·) walk'
    · exact congrArg₂ List.cons alike same
    · intro m member
      rcases List.mem_cons.mp member with rfl | other
      · exact ⟨[], rfl, by simp⟩
      · obtain ⟨other, there, apart⟩ := outside m other
        refine ⟨other, ?_, apart⟩
        cases other with
        | nil => cases there
        | cons j rest => exact there

theorem put_at_walk {ns : List Node} {place : List Nat} {old : Expr}
    (there : at? ns place = some (.expr old)) (new : Expr) :
    Differ old new (fun m => ∃ other, at? ns other = some m ∧ ¬ place <+: other)
      (preorderAll ns) (preorderAll (putAt ns new place)) := by
  cases place with
  | nil => cases there
  | cons i rest =>
    obtain ⟨c, child, under⟩ := Option.bind_eq_some_iff.mp there
    exact put_at_differs child (put_differs under).2

end Node

end ClosureLift
