import ClosureLift.Program.Renaming
import ClosureLift.Proofs.Program.Closures
import Mathlib.Data.List.Basic

/-!
Renaming classes keeps the walk: the parts of a renamed part are the renamed parts, in the same
order. What a part introduces, declares or reads stays, apart from the names of classes.
-/
namespace ClosureLift

variable (σ : TypeName → TypeName)

theorem expression_list_rename (es : List Expr) :
    Expr.renameAll σ es = es.map (Expr.rename σ) := by
  induction es with
  | nil => rfl
  | cons e rest ih => rw [Expr.renameAll, ih, List.map_cons]

theorem statement_list_rename (ss : List Stmt) :
    Stmt.renameAll σ ss = ss.map (Stmt.rename σ) := by
  induction ss with
  | nil => rfl
  | cons s rest ih => rw [Stmt.renameAll, ih, List.map_cons]

theorem method_list_rename (ms : List Method) :
    Method.renameAll σ ms = ms.map (Method.rename σ) := by
  induction ms with
  | nil => rfl
  | cons m rest ih => rw [Method.renameAll, ih, List.map_cons]

namespace Node

def rename : Node → Node
  | .cls c => .cls (c.rename σ)
  | .field f => .field (f.rename σ)
  | .constructor c => .constructor (c.rename σ)
  | .method m => .method (m.rename σ)
  | .stmt s => .stmt (s.rename σ)
  | .expr e => .expr (e.rename σ)

theorem children_rename (n : Node) : (n.rename σ).children = n.children.map (rename σ) := by
  cases n with
  | cls c =>
    simp [rename, children, Class.rename, method_list_rename, Function.comp_def]
  | field f => rfl
  | constructor c =>
    simp [rename, children, Constructor.rename, statement_list_rename, Function.comp_def]
  | method m =>
    cases m
    simp [rename, children, Method.rename, statement_list_rename, Function.comp_def]
  | stmt s =>
    cases s with
    | ret value => cases value <;> simp [rename, children, Stmt.rename, ofStmt]
    | _ => simp [rename, children, Stmt.rename, ofStmt, statement_list_rename, Function.comp_def]
  | expr e =>
    cases e with
    | lambda closure =>
      cases closure
      simp [rename, children, Expr.rename, Lambda.rename, ofExpr, statement_list_rename,
        Function.comp_def]
    | methodReference closure =>
      obtain ⟨_, _, _, _, target, _, _⟩ := closure
      cases target <;>
        simp [rename, children, Expr.rename, MethodReference.rename, Target.rename, ofExpr]
    | anonymousClass closure =>
      cases closure
      simp [rename, children, Expr.rename, AnonymousClass.rename, ofExpr, method_list_rename,
        Function.comp_def]
    | _ => simp [rename, children, Expr.rename, ofExpr, expression_list_rename, Function.comp_def]

theorem preorder_rename (n : Node) : (n.rename σ).preorder = n.preorder.map (rename σ) := by
  induction n using by_children with
  | step n ih =>
    rw [preorder_eq, preorder_eq n, children_rename, List.map_cons]
    simp only [preorderAll, List.flatMap_map, List.map_flatMap]
    congr 1
    apply List.flatMap_congr
    exact ih

theorem preorderAll_rename (ns : List Node) :
    preorderAll (ns.map (rename σ)) = (preorderAll ns).map (rename σ) := by
  simp only [preorderAll, List.flatMap_map, List.map_flatMap, preorder_rename]

theorem rename_isClosure (n : Node) : (n.rename σ).isClosure = n.isClosure := by
  cases n with
  | expr e => cases e <;> rfl
  | _ => rfl

theorem rename_reference (n : Node) :
    (n.rename σ).reference? = n.reference?.map (Reference.rename σ) := by
  cases n with
  | expr e => cases e <;> rfl
  | _ => rfl

theorem rename_declares (n : Node) :
    (n.rename σ).declares = n.declares.map (Variable.rename σ) := by
  cases n with
  | method m =>
    cases m
    rfl
  | stmt s =>
    cases s with
    | ret value => cases value <;> rfl
    | _ => rfl
  | expr e =>
    cases e with
    | lambda closure =>
      cases closure
      rfl
    | _ => rfl
  | _ => rfl

theorem rename_declares_ids (n : Node) :
    (n.rename σ).declares.map (·.id) = n.declares.map (·.id) := by
  rw [rename_declares, List.map_map]
  rfl

theorem rename_declaredIds (n : Node) : (n.rename σ).declaredIds = n.declaredIds := by
  cases n with
  | expr e =>
    cases e with
    | anonymousClass closure =>
      cases closure
      rfl
    | lambda closure => exact rename_declares_ids σ (.expr (.lambda closure))
    | _ => rfl
  | cls c => rfl
  | field f => rfl
  | constructor c => exact rename_declares_ids σ (.constructor c)
  | method m => exact rename_declares_ids σ (.method m)
  | stmt s => exact rename_declares_ids σ (.stmt s)

theorem closure_free_rename {ns : List Node} (free : ClosureFree ns) :
    ClosureFree (ns.map (rename σ)) := by
  intro n member
  rw [preorderAll_rename] at member
  obtain ⟨original, under, rfl⟩ := List.mem_map.mp member
  rw [rename_isClosure]
  exact free original under

end Node

end ClosureLift
