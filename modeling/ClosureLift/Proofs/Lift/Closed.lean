import ClosureLift.Proofs.Lift.Closure
import ClosureLift.Proofs.Program.Scoping

/-!
Lifted classes are closed. The three forms of closures are lifted in the same way once the shape of
the class is drawn up, and whatever the closure names, the class names nothing from outside: every
variable in it is declared in it, and every instance is its own.
-/
namespace ClosureLift

open Node (ClosureFree declared)

inductive Closure where
  | body (closure : ClosureBody)
  | reference (closure : MethodReference)
  | anonymous (closure : AnonymousClass)

/-- What a lift draws up before it looks for captures: the shape of the class, the values computed
where the closure stands, and the table with the names that were minted so far. -/
structure Sketch where
  shape : Shape
  values : List (Variable × Expr)
  table : ScopeTable

namespace Closure

def lift (closure : Closure) (site : Site) (options : LiftOptions) : LiftM Lifted :=
  match closure with
  | .body closure => closure.lift site.scope site.enclosing options
  | .reference closure => closure.lift site.scope site.enclosing options
  | .anonymous closure => closure.lift site.scope site.enclosing options

def sketch (closure : Closure) (site : Site) (t : ScopeTable) : Sketch :=
  let (name, named) := t.freshClassName site.enclosing
  match closure with
  | .body closure => ⟨closure.shape name, [], named⟩
  | .anonymous closure => ⟨closure.shape name, [], named⟩
  | .reference closure =>
    let inner := (site.scope.type name).method closure.method
    let (params, minted) := (MethodReference.mintArguments inner 0 closure.paramTypes).run named
    let ((call, values), table) := (closure.call inner (params.map .var)).run minted
    ⟨(closure.toBody params call).shape name, values, table⟩

variable {closure : Closure} {site : Site} {options : LiftOptions} {t t' : ScopeTable}
  {made : Lifted}

theorem lift_sketched (lifts : (closure.lift site options).run.run t = (.ok made, t')) :
    ((closure.sketch site t).shape.lift site.scope (closure.sketch site t).values
      options).run.run (closure.sketch site t).table = (.ok made, t') := by
  cases closure with
  | body closure =>
    rw [lift, ClosureBody.lift_eq] at lifts
    split at lifts
    · cases lifts
    · exact lifts
  | reference closure =>
    rw [lift, MethodReference.lift_eq] at lifts
    split at lifts
    · cases lifts
    · exact lifts
  | anonymous closure => exact lifts

theorem sketch_own (closure : Closure) (site : Site) (t : ScopeTable) :
    (closure.sketch site t).shape.own = none ∨
      (closure.sketch site t).shape.own = some (closure.sketch site t).shape.name := by
  cases closure with
  | anonymous closure => exact Or.inr rfl
  | _ => exact Or.inl rfl

end Closure

namespace Shape

variable (shape : Shape)

theorem declared_nodes : declared shape.nodes = declared (shape.methods.map .method) := by
  rw [Shape.nodes, Node.declared_append, Node.field_list_declared, List.nil_append]

theorem outcome_declared (slots : List Slot) (params : List Variable)
    (free : ClosureFree (shape.methods.map .method)) :
    params.map (·.id) ++ declared shape.nodes ⊆
      declared [.cls (shape.outcome slots params).cls] := by
  have methods : declared ((shape.rewritten slots).map .method) =
      declared (shape.methods.map .method) := by
    rw [declared, shape.rewritten_walk slots Node.declares (fun n => (Node.bare_same n).1)
      (fun _ => rfl) (fun _ _ _ => rfl) free, declared]
  intro id member
  rw [shape.declared_nodes, ← methods] at member
  rw [Node.declared_one, Node.children, Node.declared_append, Node.declared_cons]
  simp only [List.mem_append] at member ⊢
  rcases member with param | inside
  · exact Or.inr (Or.inr (Or.inl param))
  · exact Or.inr (Or.inr (Or.inr (Or.inr inside)))

theorem outcome_closed (values : List (Variable × Expr)) (options : LiftOptions)
    (params : List Variable) (free : ClosureFree (shape.methods.map .method))
    (own : shape.own = none ∨ shape.own = some shape.name) :
    freeReferences (some shape.name)
      [.cls (shape.outcome (shape.slots values options) params).cls] = [] := by
  have known := shape.outcome_declared (shape.slots values options) params free
  rw [no_free_reference]
  generalize declared [.cls (shape.outcome (shape.slots values options) params).cls] = ids
    at known ⊢
  have instance_bound : (Reference.this shape.name).isFree ids (some shape.name) = false := by
    simp [Reference.isFree]
  intro ref occurs
  obtain ⟨part, listed, inside⟩ := Node.mem_preorderAll.mp occurs
  rw [List.mem_singleton.mp listed, Node.preorder_eq, List.mem_cons, Node.children,
    Node.preorderAll_append, Node.preorderAll_cons, List.mem_append, List.mem_append,
    Node.field_list_walk] at inside
  rcases inside with same | field | storing | method
  · cases same
  · obtain ⟨f, _, same⟩ := List.mem_map.mp field
    cases same
  · rw [Node.preorder, Constructor.nodes, List.mem_cons] at storing
    rcases storing with same | stored
    · cases same
    · rcases (shape.storing_part stored).2.2 ref rfl with rfl | ⟨x, param, rfl⟩
      · exact instance_bound
      · have declares : x.id ∈ ids :=
          known (List.mem_append_left _ (List.mem_map_of_mem param))
        simpa [Reference.isFree] using declares
  · obtain ⟨m, member, reads⟩ := Node.mem_preorderAll.mp method
    obtain ⟨rewritten, among, rfl⟩ := List.mem_map.mp member
    obtain ⟨original, listed, rfl⟩ := List.mem_map.mp among
    rcases shape.rewritten_reads free listed reads with rfl | ⟨_, bound⟩
    · exact instance_bound
    · rcases ref with x | cls
      · have declares : x.id ∈ ids := by
          apply known
          apply List.mem_append_right
          simpa [Reference.isFree] using bound
        simpa [Reference.isFree] using declares
      · -- Only the body of an anonymous class keeps an instance, and that is its own.
        rcases own with none | some
        · simp [Reference.isFree, none] at bound
        · rw [some] at bound
          exact bound

end Shape

/-- A lifted class is closed, whatever the closure was: the analysis finds nothing free in it. Each
variable that is left in it is declared by a part of it, and each instance is its own. -/
theorem Closure.lifted_closed {closure : Closure} {site : Site} {options : LiftOptions}
    {t t' : ScopeTable} {made : Lifted}
    (lifts : (closure.lift site options).run.run t = (.ok made, t')) :
    freeReferences (some made.cls.name) [.cls made.cls] = [] ∧
    (∀ x, .expr (.var x) ∈ made.cls.nodes →
      ∃ part ∈ made.cls.nodes, ∃ y ∈ part.declares, y.id = x.id) ∧
    ∀ cls, .expr (.this cls) ∈ made.cls.nodes → cls = made.cls.name := by
  obtain ⟨free, params, _, _, rfl⟩ := Shape.lift_builds _ (lift_sketched lifts)
  have closed := (closure.sketch site t).shape.outcome_closed (closure.sketch site t).values options
    params free (closure.sketch_own site t)
  have bound := no_free_reference.mp closed
  refine ⟨closed, ?_, ?_⟩
  · intro x occurs
    have declares := bound (.variable x) (Node.mem_preorderAll.mpr ⟨_, List.mem_cons_self, occurs⟩)
    simp only [Reference.isFree, Bool.not_eq_false', List.contains_iff_mem] at declares
    obtain ⟨part, inside, y, introduces, same⟩ := Node.mem_declared.mp declares
    obtain ⟨_, listed, under⟩ := Node.mem_preorderAll.mp inside
    rw [List.mem_singleton.mp listed] at under
    exact ⟨part, under, y, introduces, same⟩
  · intro cls occurs
    have own := bound (.this cls) (Node.mem_preorderAll.mpr ⟨_, List.mem_cons_self, occurs⟩)
    simp only [Reference.isFree, bne_eq_false_iff_eq, Option.some.injEq] at own
    exact own.symm

theorem lifted_of_view {run : Except LiftError Lifted × ScopeTable} {view : Lifted → α} {a : α}
    (shown : run.1.map view = .ok a) : ∃ made t', run = (.ok made, t') ∧ view made = a := by
  obtain ⟨result, t'⟩ := run
  cases result with
  | error e => cases shown
  | ok made => exact ⟨made, t', rfl, Except.ok.inj shown⟩

/-- An anonymous class that takes two variables of one name and the instances of two classes from
outside, and has fields of the names that these would get. -/
def AnonymousClass.crowded : AnonymousClass :=
  let run := (Identifier.top.type ⟨"Outer"⟩).method "run"
  let x : Variable := ⟨run.var "x", "x", .integer⟩
  let other : Variable := ⟨run.var "x_0", "x", .integer⟩
  let k : Variable := ⟨(run.type ⟨"Inner"⟩).var "k", "k", .integer⟩
  let z : Variable := ⟨(run.type ⟨"Inner"⟩).var "z", "z", .integer⟩
  { name := ⟨"Inner"⟩
    superTypes := [⟨"IntUnaryOperator"⟩]
    fields := [⟨"x", .integer, false⟩, ⟨"x_1", .integer, false⟩, ⟨"_this", .integer, true⟩]
    methods := [⟨"apply", false, [], [k], .integer,
      [.decl z (.var x), .expr (.assign (.fieldAccess (.this ⟨"Inner"⟩) "x" .integer) (.var other)),
        .expr (.this ⟨"Outer"⟩), .expr (.this ⟨"Other"⟩),
        .ret (some (.operation .add [.var z, .var k] .integer))]⟩]
    span := .dummy }

theorem AnonymousClass.crowded_lifts :
    ∃ made t', ((Closure.anonymous .crowded).lift ⟨.top, ⟨"Outer"⟩⟩ .standard).run.run
        (.empty "_cassis_tmp_") = (.ok made, t') ∧
      made.slots.map (·.field) = ["x_0", "x_2", "_this_0", "_this_1"] := by
  apply lifted_of_view
  decide +kernel

theorem Closure.crowded_closed :
    ∃ made t', ((Closure.anonymous .crowded).lift ⟨.top, ⟨"Outer"⟩⟩ .standard).run.run
        (.empty "_cassis_tmp_") = (.ok made, t') ∧
      made.slots.map (·.field) = ["x_0", "x_2", "_this_0", "_this_1"] ∧
      freeReferences (some made.cls.name) [.cls made.cls] = [] := by
  obtain ⟨made, t', lifts, fields⟩ := AnonymousClass.crowded_lifts
  exact ⟨made, t', lifts, fields, (lifted_closed lifts).1⟩

end ClosureLift
