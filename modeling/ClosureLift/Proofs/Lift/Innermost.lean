import ClosureLift.Proofs.Lift.Capturing
import ClosureLift.Proofs.Lift.Forwarding
import ClosureLift.Proofs.Lift.Replacement
import ClosureLift.Proofs.Program.Exchange

/-!
Inner closures can be lifted first. Where a lambda or a method reference gives way to the call that
builds its object, its declarations are gone and many of its references too; but the call passes on
each of those that leave the closure, in the order of their first occurrence, so what leaves the
parts around it is the same as before.
-/
namespace ClosureLift

open Node (declared at? putAt)

namespace Reference

theorem is_free_append (inner outer : List Identifier) (own : Option TypeName) (ref : Reference) :
    ref.isFree (outer ++ inner) own = (ref.isFree inner none && ref.isFree outer own) := by
  cases ref with
  | «variable» x => simp [isFree, Bool.and_comm]
  | this cls => simp [isFree]

theorem is_free_of_key {first second : Reference} (same : first.key = second.key)
    (plain : ∀ x cls, first = .variable x ∨ second = .variable x → x.id ≠ .thisOf cls)
    (ids : List Identifier) (own : Option TypeName) :
    first.isFree ids own = second.isFree ids own := by
  rcases first with x | cls <;> rcases second with y | cls'
  · have same : x.id = y.id := same
    simp only [isFree, same]
  · exact absurd same (plain x cls' (Or.inl rfl))
  · exact absurd same.symm (plain y cls (Or.inr rfl))
  · rw [this_of_inj same]

end Reference

theorem declared_expr (e : Expr) :
    declared [.expr e] = (e.nodes.flatMap Node.declares).map (·.id) := by
  rw [declared, Node.preorderAll_cons, Node.preorderAll_nil, List.append_nil]
  rfl

theorem construction_walk (made : Lifted) :
    made.construction.nodes =
      .expr made.construction :: Expr.nodesAll (made.slots.map (·.capture.argument)) := rfl

theorem reference_list_quiet (refs : List Reference) :
    (Expr.nodesAll (refs.map .reference)).flatMap Node.declares = [] := by
  rw [reference_list_walk, List.flatMap_map, List.flatMap_eq_nil_iff]
  intro ref _
  rfl

theorem reference_list_leaving (own : Option TypeName) (ids : List Identifier)
    (refs : List Reference) :
    leaving own ids (Expr.nodesAll (refs.map .reference)) = refs.filter (·.isFree ids own) := by
  rw [leaving, reference_list_walk, List.filterMap_map]
  exact congrArg (List.filter _) List.filterMap_some

theorem Shape.slot_arguments (shape : Shape) (options : LiftOptions) :
    (shape.slots [] options).map (·.capture.argument) =
      (freeReferences shape.own shape.nodes).map .reference := by
  have captures := congrArg (List.map Capture.argument) (shape.slot_captures [] options)
  rw [List.map_map, List.map_map] at captures
  refine captures.trans (List.map_congr_left ?_)
  intro ref _
  cases ref <;> rfl

theorem Lambda.shape_leaving (closure : Lambda) (name : TypeName) :
    freeReferences none (closure.toBody.shape name).nodes =
      distinct Reference.key []
        (leaving none (declared [.expr (.lambda closure)]) (Expr.lambda closure).nodes) := by
  have walk : Node.preorderAll (closure.toBody.shape name).nodes =
      .method ⟨closure.method, false, [], closure.params, closure.returnType, closure.body⟩ ::
        Stmt.nodesAll closure.body := by
    rw [Shape.nodes, Node.preorderAll_append]
    exact (List.append_nil _).trans (method_walk _)
  rw [freeReferences, walk, declared_expr, Expr.nodes, lambda_walk]
  rfl

theorem Lambda.construction_leaves {closure : Lambda} {site : Site} {options : LiftOptions}
    {t t' : ScopeTable} {made : Lifted}
    (lifts : (Expr.lambda closure).LiftsTo options site t made t') :
    declared [.expr made.construction] = [] ∧
    ∀ own ids, leaving own ids made.construction.nodes =
      (distinct Reference.key []
        (leaving none (declared [.expr (.lambda closure)]) (Expr.lambda closure).nodes)).filter
          (·.isFree ids own) := by
  rw [Expr.LiftsTo, ClosureBody.lift_eq] at lifts
  split at lifts
  · cases lifts
  · obtain ⟨_, params, _, _, rfl⟩ := Shape.lift_builds _ lifts
    rw [declared_expr, construction_walk, Shape.outcome, Shape.slot_arguments,
      ← closure.shape_leaving (t.freshClassName site.enclosing).1]
    constructor
    · rw [List.flatMap_cons, reference_list_quiet]
      rfl
    · intro own ids
      exact reference_list_leaving own ids _

theorem MethodReference.construction_leaves {closure : MethodReference} {site : Site}
    {options : LiftOptions} {t t' : ScopeTable} {made : Lifted}
    (lifts : (Expr.methodReference closure).LiftsTo options site t made t')
    (known : ∀ x, .expr (.var x) ∈ (Expr.methodReference closure).nodes → t.contains x.id = true) :
    declared [.expr made.construction] = declared [.expr (.methodReference closure)] ∧
    ∀ own ids, leaving own ids made.construction.nodes =
      leaving own ids (Expr.methodReference closure).nodes := by
  have walk : (Expr.methodReference closure).nodes =
      .expr (.methodReference closure) :: Expr.nodesAll closure.target.receivers := by
    obtain ⟨_, _, _, _, target, _, _⟩ := closure
    cases target with
    | static cls => rfl
    | «instance» receiver => exact congrArg (_ :: ·) (List.append_nil _).symm
  have received : ∀ x, closure.target = .instance (.var x) → t.contains x.id = true := by
    intro x target
    apply known
    rw [walk, target]
    exact List.mem_cons_of_mem _ List.mem_cons_self
  obtain ⟨name, params, call, slots, stored, rfl, reaches, _, _⟩ :=
    closure.lifted_anatomy lifts received
  rw [declared_expr, declared_expr, construction_walk, walk, Shape.outcome, reaches.arguments]
  exact ⟨rfl, fun _ _ => rfl⟩

/-- A lambda or a method reference is lifted before the parts around it, and gives way to the call
that builds its object. Let the table know what the closure reads, let nothing outside read what the
closure declares, and let no variable in it go by the identifier of an instance. Then the analysis
of the parts finds the same references, in the same order, before and after. -/
theorem captures_unmoved {own : Option TypeName} {ns : List Node} {place : List Nat} {e : Expr}
    {options : LiftOptions} {site : Site} {t t' : ScopeTable} {made : Lifted}
    (there : at? ns place = some (.expr e))
    (form : (∃ closure, e = .lambda closure) ∨ ∃ closure, e = .methodReference closure)
    (lifts : e.LiftsTo options site t made t')
    (known : ∀ x, .expr (.var x) ∈ e.nodes → t.contains x.id = true)
    (apart : ∀ other x, ¬ place <+: other → at? ns other = some (.expr (.var x)) →
      x.id ∉ declared [.expr e])
    (plain : ∀ x cls, .expr (.var x) ∈ e.nodes → x.id ≠ .thisOf cls) :
    freeReferences own (putAt ns made.construction place) = freeReferences own ns := by
  rcases form with ⟨closure, rfl⟩ | ⟨closure, rfl⟩
  · obtain ⟨quiet, leaves⟩ := Lambda.construction_leaves lifts
    apply free_references_put there apart
    · rw [quiet]
      exact List.nil_subset _
    · intro ids seen rest
      have depends : ∀ first ∈ leaving none (declared [.expr (.lambda closure)])
            (Expr.lambda closure).nodes,
          ∀ second ∈ leaving none (declared [.expr (.lambda closure)]) (Expr.lambda closure).nodes,
          first.key = second.key → first.isFree ids own = second.isFree ids own := by
        intro first one second other same
        apply Reference.is_free_of_key same
        rintro x cls (rfl | rfl)
        · exact plain x cls (mem_leaving one)
        · exact plain x cls (mem_leaving other)
      have both : leaving own (ids ++ declared [.expr (.lambda closure)])
            (Expr.lambda closure).nodes =
          (leaving none (declared [.expr (.lambda closure)]) (Expr.lambda closure).nodes).filter
            (·.isFree ids own) := by
        simp only [leaving, List.filter_filter, Reference.is_free_append, Bool.and_comm]
      rw [quiet, List.append_nil, leaves, both, ← distinct_filter [] depends,
        distinct_absorb (List.nil_subset seen)]
  · obtain ⟨quiet, leaves⟩ := MethodReference.construction_leaves lifts known
    apply free_references_put there apart
    · rw [quiet]
      exact List.Subset.refl _
    · intro ids seen rest
      rw [quiet, leaves]

def Variable.outer (name : String) : Variable :=
  ⟨(Identifier.top.type ⟨"Outer"⟩).var name, name, .integer⟩

/-- A lambda that reads its parameter, the instance of `Outer`, and a variable from outside twice.
-/
def Lambda.adding : Lambda where
  interface := ⟨"IntUnaryOperator"⟩
  method := "apply"
  params := [.outer "k"]
  returnType := .integer
  body := [.expr (.methodCall (.this ⟨"Outer"⟩) "log" [.var (.outer "x")] [] .unit),
    .ret (some (.operation .add [.var (.outer "k"), .var (.outer "x")] .integer))]
  span := .dummy

def Method.making : Method :=
  ⟨"run", false, [], [], .integer, [.expr (.lambda .adding), .ret (some (.var (.outer "x")))]⟩

theorem adding_reads {x : Variable} (member : .expr (.var x) ∈ (Expr.lambda .adding).nodes) :
    x = .outer "x" ∨ x = .outer "k" := by
  have among : x ∈ ((Expr.lambda .adding).nodes.filterMap Node.reference?).filterMap
      Reference.decl? :=
    List.mem_filterMap.mpr ⟨_, List.mem_filterMap.mpr ⟨_, member, rfl⟩, rfl⟩
  have all : ((Expr.lambda .adding).nodes.filterMap Node.reference?).filterMap Reference.decl? =
      [.outer "x", .outer "k", .outer "x"] := rfl
  rw [all] at among
  simp only [List.mem_cons, List.not_mem_nil, or_false] at among
  rcases among with same | same | same
  · exact Or.inl same
  · exact Or.inr same
  · exact Or.inl same

theorem making_reads {other : List Nat} {x : Variable} (outside : ¬ [0, 0, 0] <+: other)
    (there : at? [.method .making] other = some (.expr (.var x))) : x = .outer "x" := by
  -- Under the method there are two statements, and an expression under each.
  rcases other with _ | ⟨_ | _, _ | ⟨_ | _ | _, _ | ⟨_ | _, rest⟩⟩⟩
  all_goals try cases there
  · exact absurd ⟨rest, rfl⟩ outside
  · cases rest with
    | nil =>
      cases there
      rfl
    | cons i rest => cases there

theorem adding_captures_unmoved :
    ∃ made t t', (Expr.lambda .adding).LiftsTo .standard ⟨.top, ⟨"Outer"⟩⟩ t made t' ∧
      freeReferences none (putAt [.method .making] made.construction [0, 0, 0]) =
        freeReferences none [.method .making] ∧
      (freeReferences none [.method .making]).map Reference.key =
        [.thisOf ⟨"Outer"⟩, (Variable.outer "x").id] := by
  let t := ((ScopeTable.empty "_cassis_tmp_").reserveAll
    [(Variable.outer "k").id, (Variable.outer "x").id]).2
  have shown : ((Lambda.adding.toBody.lift .top ⟨"Outer"⟩ .standard).run.run t).1.map
      (·.slots.map (·.capture.key)) = .ok [.thisOf ⟨"Outer"⟩, (Variable.outer "x").id] := by
    decide +kernel
  obtain ⟨made, t', run, _⟩ := lifted_of_view shown
  have lifts : (Expr.lambda .adding).LiftsTo .standard ⟨.top, ⟨"Outer"⟩⟩ t made t' := run
  have there : at? [.method .making] [0, 0, 0] = some (.expr (.lambda .adding)) := rfl
  refine ⟨made, t, t', lifts, captures_unmoved there (Or.inl ⟨_, rfl⟩) lifts ?_ ?_ ?_, ?_⟩
  · intro x member
    rcases adding_reads member with rfl | rfl <;> decide +kernel
  · intro other x outside there
    rw [making_reads outside there]
    decide +kernel
  · intro x cls member
    rcases adding_reads member with rfl | rfl <;>
      simp [Variable.outer, Identifier.var, Identifier.child, Identifier.thisOf]
  · decide +kernel

end ClosureLift
