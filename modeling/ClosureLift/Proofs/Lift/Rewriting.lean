import ClosureLift.Proofs.Lift.Output

/-!
The rewriting of a body is an exact substitution. It refuses a body for the first closure literal of
the walk, wherever in the body that stands, and for nothing else. Otherwise the walk of the result
is the walk of the body with the walks of expressions in place of the references that are mapped to
them; the expressions are put in as they are.
-/
namespace ClosureLift

open Node (ClosureFree)

def Expr.reportedAs : Expr → String
  | .lambda _ => "lambda"
  | .methodReference closure => closure.target.construct
  | .anonymousClass closure => s!"anonymous class {closure.name.qualified}"
  | _ => ""

namespace Node

theorem refusal_literal {e : Expr} (literal : e.isClosure = true) :
    (Node.expr e).refusal? = some ⟨.unsupportedConstruct e.reportedAs, e.span⟩ := by
  cases e with
  | lambda | methodReference | anonymousClass => rfl
  | _ => cases literal

/-- What a part is apart from the parts under it: the construct with its declarations, names,
operators and types, and how many parts it has. -/
def stem (n : Node) : Node × Nat := (n.bare, n.children.length)

/-- What stands for a part in the walk of the rewritten body: the walk of the expression that the
part is mapped to, if it is a reference with a mapped key, and else the part. -/
def standIns (σ : Substitution) (n : Node) : List Node :=
  match n.reference?.bind (σ.get? ·.key) with
  | some e => e.nodes
  | none => [n]

variable (σ : Substitution)

theorem exchanged_stems (n : Node) :
    exchanged σ (fun m => [m.stem]) n = (n.standIns σ).map stem := by
  unfold exchanged standIns
  cases read : n.reference? with
  | none => rfl
  | some ref =>
    rw [reference_eq_some] at read
    subst read
    simp only [Option.bind_some, Substitution.reference]
    cases σ.get? ref.key with
    | none => rfl
    | some e => exact List.map_eq_flatMap.symm

theorem replaced_unmapped {n : Node} (free : ClosureFree [n])
    (unmapped : ∀ ref, .expr (.reference ref) ∈ n.preorder → σ.get? ref.key = none) :
    n.replaced σ = n := by
  induction n using by_children with
  | step n ih =>
    have plain := free.self List.mem_cons_self
    cases read : n.reference? with
    | some ref =>
      rw [reference_eq_some] at read
      subst read
      rw [replaced, Expr.replaced, Substitution.reference, unmapped ref (self_mem_preorder _)]
      rfl
    | none =>
      apply alike_eq (bare_replaced σ n plain read)
      rw [children_replaced σ n plain read]
      refine (List.map_congr_left ?_).trans (List.map_id _)
      intro c child
      apply ih c child ((free.children List.mem_cons_self).one child)
      intro ref under
      exact unmapped ref (mem_preorder_of_child child under)

end Node

theorem statement_list_stems (σ : Substitution) {ss : List Stmt}
    (free : ClosureFree (ss.map .stmt)) :
    (Stmt.nodesAll (Stmt.replacedAll σ ss)).map Node.stem =
      ((Stmt.nodesAll ss).flatMap (Node.standIns σ)).map Node.stem := by
  have each : ∀ s ∈ ss, (s.replaced σ).nodes.map Node.stem =
      (s.nodes.flatMap (Node.standIns σ)).map Node.stem := by
    intro s member
    have walk := Node.walk_replaced_alike σ (fun n => [n.stem])
      (fun m n alike count => by rw [Node.stem, Node.stem, alike, count]) (.stmt s)
      (free.one (List.mem_map_of_mem member))
    rw [List.map_eq_flatMap, List.map_flatMap]
    refine walk.trans (List.flatMap_congr ?_)
    exact fun n _ => Node.exchanged_stems σ n
  rw [statement_list_replaced, statement_list_walk, statement_list_walk, Node.preorderAll,
    Node.preorderAll, List.map_map, List.flatMap_map, List.flatMap_map, List.map_flatMap,
    List.flatMap_assoc, List.map_flatMap]
  exact List.flatMap_congr each

theorem statement_list_unmapped (σ : Substitution) {ss : List Stmt}
    (free : ClosureFree (ss.map .stmt))
    (unmapped : ∀ ref, .expr (.reference ref) ∈ Stmt.nodesAll ss → σ.get? ref.key = none) :
    Stmt.replacedAll σ ss = ss := by
  rw [statement_list_replaced]
  refine (List.map_congr_left ?_).trans (List.map_id _)
  intro s member
  have listed : Node.stmt s ∈ ss.map .stmt := List.mem_map_of_mem member
  refine Node.stmt.inj (Node.replaced_unmapped σ (free.one listed) ?_)
  intro ref inside
  apply unmapped
  rw [statement_list_walk]
  exact Node.mem_preorderAll.mpr ⟨_, listed, inside⟩

/-- Rewriting a body fails exactly if a closure literal stands somewhere in it. The error names the
first one of the walk by its kind, and its place. Otherwise the rewriting succeeds, and the walk of
the result is that of the body with the walks of the mapped expressions in place of the references
whose keys are mapped; a body in which no key is mapped stays as it is. -/
theorem Stmt.rewriting_exact (σ : Substitution) (ss : List Stmt) :
    ((∃ error, Stmt.substituteAll σ ss = .error error) ↔
      ∃ e, .expr e ∈ Stmt.nodesAll ss ∧ e.isClosure = true) ∧
    (∀ before e after, Stmt.nodesAll ss = before ++ .expr e :: after →
      (∀ n ∈ before, n.isClosure = false) → e.isClosure = true →
      Stmt.substituteAll σ ss = .error ⟨.unsupportedConstruct e.reportedAs, e.span⟩) ∧
    ((∀ e, .expr e ∈ Stmt.nodesAll ss → e.isClosure = false) →
      ∃ ss', Stmt.substituteAll σ ss = .ok ss' ∧
        (Stmt.nodesAll ss').map Node.stem =
          ((Stmt.nodesAll ss).flatMap (Node.standIns σ)).map Node.stem ∧
        ((∀ ref : Reference, .expr (.reference ref) ∈ Stmt.nodesAll ss → σ.get? ref.key = none) →
          ss' = ss)) := by
  have refused : ∀ before e after, Stmt.nodesAll ss = before ++ .expr e :: after →
      (∀ n ∈ before, n.isClosure = false) → e.isClosure = true →
      Stmt.substituteAll σ ss = .error ⟨.unsupportedConstruct e.reportedAs, e.span⟩ := by
    intro before e after walk plain literal
    have none : before.findSome? Node.refusal? = none := by
      rw [List.findSome?_eq_none_iff]
      exact fun n member => Node.refusal_eq_none.mpr (plain n member)
    rw [substitute_body, Node.verdict, walk, List.findSome?_append, none, Option.none_or,
      List.findSome?_cons, Node.refusal_literal literal]
  have done : (∀ e, .expr e ∈ Stmt.nodesAll ss → e.isClosure = false) →
      Stmt.substituteAll σ ss = .ok (Stmt.replacedAll σ ss) ∧ ClosureFree (ss.map .stmt) := by
    intro plain
    have free : ClosureFree (ss.map .stmt) := by
      intro n member
      rw [← statement_list_walk] at member
      cases n with
      | expr e => exact plain e member
      | _ => rfl
    exact ⟨(substitute_body_ok σ).mpr ⟨free, rfl⟩, free⟩
  refine ⟨⟨?_, ?_⟩, refused, ?_⟩
  · rintro ⟨error, failed⟩
    by_contra none
    push Not at none
    have succeeds := (done fun e member => Bool.eq_false_iff.mpr (none e member)).1
    rw [failed] at succeeds
    cases succeeds
  · rintro ⟨e, member, literal⟩
    -- The literal that is given need not be the first one.
    have some : ((Stmt.nodesAll ss).find? Node.isClosure).isSome :=
      List.find?_isSome.mpr ⟨.expr e, member, literal⟩
    obtain ⟨n, found⟩ := Option.isSome_iff_exists.mp some
    obtain ⟨closure, before, after, walk, plain⟩ := List.find?_eq_some_iff_append.mp found
    cases n with
    | expr e =>
      exact ⟨_, refused before e after walk (fun n member => by simpa using plain n member) closure⟩
    | _ => cases closure
  · intro plain
    obtain ⟨succeeds, free⟩ := done plain
    exact ⟨_, succeeds, statement_list_stems σ free, statement_list_unmapped σ free⟩

theorem reads_of_stems {ms ns : List Node} (same : ms.map Node.stem = ns.map Node.stem) :
    ms.filterMap Node.reference? = ns.filterMap Node.reference? := by
  have stems : ∀ ns : List Node,
      (ns.map Node.stem).filterMap (·.1.reference?) = ns.filterMap Node.reference? := by
    intro ns
    rw [List.filterMap_map]
    exact List.filterMap_congr fun n _ => (Node.bare_same n).2.2.2
  rw [← stems ms, same, stems ns]

def Stmt.counting (x y : Variable) (last : Expr) : List Stmt :=
  [.loop (.operation .less [.var x, .var y] .boolean)
      [.expr (.assign (.var x) (.operation .add [.var x, .literal (.integer 1)] .integer))],
    .ret (some last)]

/-- The first variable becomes the second, and the second an instance. What the first becomes is not
looked at again. A lambda at the end is refused, whatever is mapped. -/
theorem Stmt.counting_rewriting :
    let x : Variable := ⟨Identifier.top.var "x", "x", .integer⟩
    let y : Variable := ⟨Identifier.top.var "y", "y", .integer⟩
    let σ : Substitution := [(x.id, .var y), (y.id, .this ⟨"Outer"⟩)]
    let literal : Expr := .lambda
      ⟨⟨"Supplier"⟩, "get", [], .integer, [.ret (some (.var x))], .dummy⟩
    (∃ ss', Stmt.substituteAll σ (counting x y (.var y)) = .ok ss' ∧
      (Stmt.nodesAll ss').filterMap Node.reference? =
        [.variable y, .this ⟨"Outer"⟩, .variable y, .variable y, .this ⟨"Outer"⟩]) ∧
    Stmt.substituteAll σ (counting x y literal) = .error ⟨.unsupportedConstruct "lambda", .dummy⟩ ∧
    Stmt.substituteAll [] (counting x y (.var y)) = .ok (counting x y (.var y)) := by
  intro x y σ literal
  have plain : ∀ e, .expr e ∈ Stmt.nodesAll (counting x y (.var y)) → e.isClosure = false := by
    have quiet : (Stmt.nodesAll (counting x y (.var y))).all (!·.isClosure) = true := rfl
    intro e member
    simpa [Node.isClosure] using List.all_eq_true.mp quiet _ member
  refine ⟨?_, ?_, ?_⟩
  · obtain ⟨ss', done, stems, _⟩ := (rewriting_exact σ _).2.2 plain
    exact ⟨ss', done, reads_of_stems stems⟩
  · have earlier : ((Stmt.nodesAll (counting x y literal)).take 11).all (!·.isClosure) = true := rfl
    apply (rewriting_exact σ _).2.1 ((Stmt.nodesAll (counting x y literal)).take 11) literal
      ((Stmt.nodesAll (counting x y literal)).drop 12) rfl _ rfl
    intro n member
    simpa using List.all_eq_true.mp earlier n member
  · obtain ⟨ss', done, _, same⟩ := (rewriting_exact [] _).2.2 plain
    rw [done, same fun ref _ => rfl]

end ClosureLift
