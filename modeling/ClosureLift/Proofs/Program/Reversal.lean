import ClosureLift.Proofs.Program.Mentions

/-!
Renaming can be taken back. A renaming moves every mention of a class and nothing else, so where a
second renaming leads each mentioned class back to itself, the part is as it was before both. For
one class under a new name this needs no more than that the new name was not in use.
-/
namespace ClosureLift

def Restores (σ τ : TypeName → TypeName) (names : List TypeName) : Prop :=
  ∀ name ∈ names, τ (σ name) = name

section

variable {σ τ : TypeName → TypeName}

theorem restores_append {first later : List TypeName} :
    Restores σ τ (first ++ later) ↔ Restores σ τ first ∧ Restores σ τ later :=
  List.forall_mem_append

theorem restores_cons {name : TypeName} {rest : List TypeName} :
    Restores σ τ (name :: rest) ↔ τ (σ name) = name ∧ Restores σ τ rest :=
  List.forall_mem_cons

theorem Restores.names {names : List TypeName} (back : Restores σ τ names) :
    (names.map σ).map τ = names := by
  rw [List.map_map]
  exact (List.map_congr_left back).trans (List.map_id names)

mutual

theorem Ty.rename_restores : (ty : Ty) → Restores σ τ ty.mentions → (ty.rename σ).rename τ = ty
  | .scalar name, back => by
    rw [rename, rename, back name List.mem_cons_self]
  | .parameter p, back => by
    rw [rename, rename, TypeParameter.rename, TypeParameter.rename,
      back p.declaration List.mem_cons_self]
  | .bound p value, back => by
    obtain ⟨here, under⟩ := restores_cons.mp back
    rw [rename, rename, TypeParameter.rename, TypeParameter.rename, here,
      rename_restores value under]
  | .parameterized raw args, back => by
    obtain ⟨here, under⟩ := restores_cons.mp back
    rw [rename, rename, here, rename_all_restores args under]

theorem Ty.rename_all_restores : (tys : List Ty) → Restores σ τ (mentionsAll tys) →
    renameAll τ (renameAll σ tys) = tys
  | [], _ => rfl
  | ty :: rest, back => by
    obtain ⟨here, later⟩ := restores_append.mp back
    rw [renameAll, renameAll, rename_restores ty here, rename_all_restores rest later]

end

theorem Field.rename_restores (f : Field) (back : Restores σ τ f.ty.mentions) :
    (f.rename σ).rename τ = f := by
  rw [rename, rename, f.ty.rename_restores back]

theorem Variable.rename_restores (x : Variable) (back : Restores σ τ x.ty.mentions) :
    (x.rename σ).rename τ = x := by
  rw [rename, rename, x.ty.rename_restores back]

theorem variable_list_restores (xs : List Variable)
    (back : Restores σ τ (Ty.mentionsAll (variableTypes xs))) :
    (xs.map (·.rename σ)).map (·.rename τ) = xs := by
  induction xs with
  | nil => rfl
  | cons x rest ih =>
    obtain ⟨here, later⟩ := restores_append.mp back
    rw [List.map_cons, List.map_cons, x.rename_restores here, ih later]

theorem type_parameter_list_restores (ps : List TypeParameter)
    (back : Restores σ τ (ps.map (·.declaration))) :
    (ps.map (·.rename σ)).map (·.rename τ) = ps := by
  induction ps with
  | nil => rfl
  | cons p rest ih =>
    obtain ⟨here, later⟩ := restores_cons.mp back
    rw [List.map_cons, List.map_cons, ih later, TypeParameter.rename, TypeParameter.rename, here]

namespace Node

theorem field_list_restores (fs : List Field) (back : Restores σ τ (mentioned (fs.map .field))) :
    (fs.map (·.rename σ)).map (·.rename τ) = fs := by
  induction fs with
  | nil => rfl
  | cons f rest ih =>
    obtain ⟨here, later⟩ := restores_append.mp back
    rw [List.map_cons, List.map_cons, f.rename_restores here, ih later]

theorem statement_restores (s : Stmt) (back : Restores σ τ (stmt s).mentions) :
    bareStmt ((s.rename σ).rename τ) = bareStmt s := by
  cases s with
  | decl x init =>
    rw [Stmt.rename, Stmt.rename, bareStmt, bareStmt, x.rename_restores back]
  | ret value => cases value <;> rfl
  | cond condition thenBranch elseBranch =>
    simp only [Stmt.rename, bareStmt, statement_list_rename, List.map_map, Function.comp_def]
  | _ => rfl

theorem expression_restores (e : Expr) (back : Restores σ τ (mentioned [.expr e])) :
    bareExpr ((e.rename σ).rename τ) = bareExpr e := by
  obtain ⟨own, under⟩ := restores_append.mp (mentioned_one (.expr e) ▸ back)
  cases e with
  | literal value => rfl
  | reference ref =>
    cases ref with
    | «variable» x =>
      rw [Expr.rename, Expr.rename, Reference.rename, Reference.rename, x.rename_restores own]
    | this cls =>
      rw [Expr.rename, Expr.rename, Reference.rename, Reference.rename,
        own cls List.mem_cons_self]
  | assign target value => rfl
  | fieldAccess receiver name ty =>
    rw [Expr.rename, Expr.rename, bareExpr, bareExpr, ty.rename_restores own]
  | methodCall receiver name args typeArgs ty =>
    obtain ⟨explicit, result⟩ := restores_append.mp own
    simp only [Expr.rename, bareExpr, expression_list_rename, List.map_map, Function.comp_def,
      Ty.rename_all_restores typeArgs explicit, ty.rename_restores result]
  | staticCall owner name args typeArgs ty =>
    obtain ⟨here, later⟩ := restores_cons.mp own
    obtain ⟨explicit, result⟩ := restores_append.mp later
    simp only [Expr.rename, bareExpr, expression_list_rename, List.map_map, Function.comp_def, here,
      Ty.rename_all_restores typeArgs explicit, ty.rename_restores result]
  | construct ty args | operation op args ty =>
    simp only [Expr.rename, bareExpr, expression_list_rename, List.map_map, Function.comp_def,
      ty.rename_restores own]
  | conditional condition ifTrue ifFalse ty =>
    rw [Expr.rename, Expr.rename, bareExpr, bareExpr, ty.rename_restores own]
  | lambda closure =>
    cases closure
    obtain ⟨here, later⟩ := restores_cons.mp own
    obtain ⟨params, result⟩ := restores_append.mp later
    simp only [Expr.rename, Lambda.rename, bareExpr, here, variable_list_restores _ params,
      Ty.rename_restores _ result]
  | methodReference closure =>
    obtain ⟨_, _, _, _, target, _, _⟩ := closure
    obtain ⟨here, later⟩ := restores_cons.mp own
    obtain ⟨signature, aimed⟩ := restores_append.mp later
    obtain ⟨params, result⟩ := restores_append.mp signature
    cases target with
    | static owner =>
      simp only [Expr.rename, MethodReference.rename, Target.rename, bareExpr, bareTarget, here,
        Ty.rename_all_restores _ params, Ty.rename_restores _ result,
        aimed owner List.mem_cons_self]
    | «instance» receiver =>
      simp only [Expr.rename, MethodReference.rename, Target.rename, bareExpr, bareTarget, here,
        Ty.rename_all_restores _ params, Ty.rename_restores _ result]
  | anonymousClass closure =>
    obtain ⟨_, superTypes, _, _, _⟩ := closure
    have supers : (superTypes.map σ).map τ = superTypes := Restores.names own
    obtain ⟨fields, _⟩ := restores_append.mp (mentioned_append _ _ ▸ under)
    simp only [Expr.rename, AnonymousClass.rename, bareExpr, supers, field_list_restores _ fields]

theorem part_restores (n : Node) (back : Restores σ τ (mentioned [n])) :
    ((n.rename σ).rename τ).bare = n.bare := by
  obtain ⟨own, under⟩ := restores_append.mp (mentioned_one n ▸ back)
  cases n with
  | cls c =>
    obtain ⟨here, later⟩ := restores_cons.mp own
    obtain ⟨params, supers⟩ := restores_append.mp later
    obtain ⟨fields, _⟩ := restores_append.mp (mentioned_append _ _ ▸ under)
    simp only [rename, Class.rename, bare, here, supers.names,
      type_parameter_list_restores _ params,
      field_list_restores _ fields]
  | field f => rw [rename, rename, f.rename_restores own]
  | constructor c =>
    simp only [rename, Constructor.rename, bare, variable_list_restores _ own]
  | method m =>
    cases m
    obtain ⟨signature, result⟩ := restores_append.mp own
    obtain ⟨params, inputs⟩ := restores_append.mp signature
    simp only [rename, Method.rename, bare, type_parameter_list_restores _ params,
      variable_list_restores _ inputs, Ty.rename_restores _ result]
  | stmt s => exact congrArg Node.stmt (statement_restores s own)
  | expr e => exact congrArg Node.expr (expression_restores e back)

theorem rename_restores (n : Node) (back : Restores σ τ (mentioned [n])) :
    (n.rename σ).rename τ = n := by
  induction n using by_children with
  | step n ih =>
    apply alike_eq (part_restores n back)
    rw [children_rename, children_rename, List.map_map]
    refine (List.map_congr_left ?_).trans (List.map_id n.children)
    intro c child
    apply ih c child
    intro name inside
    apply back name
    rw [mem_mentioned] at inside ⊢
    obtain ⟨m, under, here⟩ := inside
    rw [preorderAll_cons, preorderAll_nil, List.append_nil] at under ⊢
    exact ⟨m, mem_preorder_of_child child under, here⟩

end Node

end

/-- What is written at a part besides the classes that it mentions. -/
inductive Label where
  | id (value : Identifier)
  | name (value : String)
  | span (value : Span)
  | filed (name : TypeName)
  deriving DecidableEq

def Variable.labels (x : Variable) : List Label := [.id x.id, .name x.name]

namespace Node

def labels : Node → List Label
  | .cls c => [.span c.span]
  | .field f => [.name f.name]
  | .constructor c => c.params.flatMap Variable.labels
  | .method m => .name m.name :: m.params.flatMap Variable.labels
  | .stmt (.decl x _) => x.labels
  | .expr (.reference (.variable x)) => x.labels
  | .expr (.fieldAccess _ name _) | .expr (.methodCall _ name _ _ _)
  | .expr (.staticCall _ name _ _ _) => [.name name]
  | .expr (.lambda closure) =>
    .name closure.method :: .span closure.span :: closure.params.flatMap Variable.labels
  | .expr (.methodReference closure) =>
    [.name closure.method, .name closure.targetMethod, .span closure.span]
  | .expr (.anonymousClass closure) => [.filed closure.name, .span closure.span]
  | _ => []

theorem labels_rename (σ : TypeName → TypeName) (n : Node) : (n.rename σ).labels = n.labels := by
  have params (xs : List Variable) :
      (xs.map (·.rename σ)).flatMap Variable.labels = xs.flatMap Variable.labels := by
    rw [List.flatMap_map]
    rfl
  cases n with
  | cls c => rfl
  | field f => rfl
  | constructor c => exact params c.params
  | method m =>
    cases m
    exact congrArg (_ :: ·) (params _)
  | stmt s =>
    cases s with
    | ret value => cases value <;> rfl
    | _ => rfl
  | expr e =>
    cases e with
    | reference ref => cases ref <;> rfl
    | lambda closure =>
      cases closure
      exact congrArg (_ :: _ :: ·) (params _)
    | methodReference closure =>
      cases closure
      rfl
    | anonymousClass closure =>
      cases closure
      rfl
    | _ => rfl

end Node

theorem replacement_restores {source target : TypeName} {names : List TypeName}
    (unused : target ∉ names) : Restores (source.replace target) (target.replace source) names := by
  intro name inside
  unfold TypeName.replace
  by_cases moved : name = source
  · rw [if_pos moved, if_pos rfl, moved]
  · have other : name ≠ target := fun same => unused (same ▸ inside)
    rw [if_neg moved, if_neg other]

namespace Class

/-- After a renaming the old name is mentioned nowhere. If the new name was not in use, renaming
back gives the class back as it was. What is written besides the mentions stays in any case, part by
part. -/
theorem renaming_reversible (c : Class) (source target : TypeName) :
    (source ≠ target → source ∉ (c.rename (source.replace target)).mentions) ∧
    (target ∉ c.mentions →
      (c.rename (source.replace target)).rename (target.replace source) = c) ∧
    (c.rename (source.replace target)).nodes.map Node.labels = c.nodes.map Node.labels := by
  refine ⟨?_, ?_, ?_⟩
  · intro different
    rw [mentions_rename]
    exact replaced_name_gone different.symm c.mentions
  · intro unused
    exact Node.cls.inj (Node.rename_restores (.cls c) (replacement_restores unused))
  · have walk := Node.preorder_rename (source.replace target) (.cls c)
    calc (c.rename (source.replace target)).nodes.map Node.labels
        = (c.nodes.map (Node.rename (source.replace target))).map Node.labels :=
          congrArg (List.map Node.labels) walk
      _ = c.nodes.map Node.labels := by
          rw [List.map_map]
          exact List.map_congr_left fun n _ => Node.labels_rename _ n

/-- A generic class that makes an anonymous class, which the front end has filed under the name of
the class around it, and which mentions that class in several ways. -/
def nesting : Class :=
  let outer : TypeName := ⟨"a.Outer"⟩
  let element : Ty := .parameter ⟨outer, "T"⟩
  let item : Variable := ⟨((Identifier.top.type outer).method "get").var "item", "item", element⟩
  let get : Method := ⟨"get", false, [⟨outer, "U"⟩], [item], .bound ⟨outer, "T"⟩ element,
    [.expr (.staticCall outer "log" [.this outer] [element] .unit), .ret (some (.var item))]⟩
  let literal : AnonymousClass :=
    ⟨outer, [⟨"a.Getter"⟩, outer], [⟨"held", .parameterized ⟨"a.Box"⟩ [element], false⟩],
      [get], .dummy⟩
  ⟨outer, [⟨outer, "T"⟩], [⟨"a.Base"⟩], [], ⟨[], []⟩,
    [⟨"make", false, [], [], .scalar ⟨"a.Getter"⟩, [.ret (some (.anonymousClass literal))]⟩],
      .dummy⟩

theorem nesting_renaming_reversible :
    let renamed := nesting.rename (TypeName.replace ⟨"a.Outer"⟩ ⟨"a.Other"⟩)
    nesting.mentions.count ⟨"a.Outer"⟩ = 12 ∧ ⟨"a.Outer"⟩ ∉ renamed.mentions ∧
      renamed.rename (TypeName.replace ⟨"a.Other"⟩ ⟨"a.Outer"⟩) = nesting ∧
      [.filed ⟨"a.Outer"⟩, .span .dummy] ∈ renamed.nodes.map Node.labels := by
  obtain ⟨gone, back, kept⟩ := nesting.renaming_reversible ⟨"a.Outer"⟩ ⟨"a.Other"⟩
  refine ⟨by decide +kernel, gone (by decide), back (by decide +kernel), ?_⟩
  rw [kept]
  decide +kernel

end Class

end ClosureLift
