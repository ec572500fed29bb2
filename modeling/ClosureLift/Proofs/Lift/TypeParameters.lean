import ClosureLift.Proofs.Lift.FreeReferences
import ClosureLift.Proofs.Lift.Replacement
import ClosureLift.Proofs.Program.TypeParameters

/-!
The type parameters of lifted classes. What lifting adds to a closure has the types of the
references that are captured, and these stand in the closure; so the class uses no type parameter
that the closure does not use, and binds those that the methods of the closure do not bind. The
classes that a conversion makes stay like this when other classes get new names.
-/
namespace ClosureLift

open Node (ClosureFree gathered)

namespace Shape

variable (shape : Shape)

theorem slot_type_used {values : List (Variable × Expr)} {options : LiftOptions} {slot : Slot}
    (found : ∀ ref ∈ freeReferences shape.own shape.nodes,
      (Capture.ofReference values ref).reference = ref)
    (member : slot ∈ shape.slots values options) :
    slot.capture.ty.parameters ⊆ gathered Node.uses shape.nodes := by
  obtain ⟨ref, free, captured⟩ := shape.slot_of_free_reference member
  have read := (free_reference_occurs free).1
  have typed : slot.capture.ty = ref.ty := by
    rw [← Capture.reference_type, captured, found ref free]
  intro p inside
  rw [typed] at inside
  cases ref with
  | «variable» decl =>
    refine (Node.mem_gathered _).mpr ⟨_, read, ?_⟩
    exact List.mem_flatMap.mpr ⟨decl.ty, List.mem_cons_self, inside⟩
  | this cls => cases inside

theorem storing_uses (slots : List Slot) (params : List Variable) :
    gathered Node.uses ((shape.storing slots params).map .stmt) ⊆
      params.flatMap (·.ty.parameters) := by
  induction slots generalizing params with
  | nil => exact List.nil_subset _
  | cons slot rest ih =>
    cases params with
    | nil => exact List.nil_subset _
    | cons x xs =>
      have store : gathered Node.uses
          [.stmt (.expr (.assign (slot.access shape.name) (.var x)))] = x.ty.parameters := by
        simp [Node.gathered, Node.uses, Node.types, Node.preorderAll, Node.preorder, Stmt.nodes,
          Expr.nodes, Slot.access, Expr.this, Expr.var]
      rw [storing, List.zipWith_cons_cons, List.map_cons, ← List.singleton_append,
        Node.gathered_append, store, List.flatMap_cons]
      exact List.append_subset.mpr ⟨List.subset_append_left _ _,
        List.Subset.trans (ih xs) (List.subset_append_right _ _)⟩

theorem rewritten_uses (slots : List Slot) (free : ClosureFree (shape.methods.map .method)) :
    gathered Node.uses ((shape.rewritten slots).map .method) ⊆
      gathered Node.uses (shape.methods.map .method) := by
  intro p used
  have bare : ∀ n : Node, n.bare.uses = n.uses :=
    fun n => congrArg (List.flatMap Ty.parameters) n.types_bare
  rcases shape.rewritten_says bare free used with before | ⟨slot, _, typed | own⟩
  · exact before
  · cases typed
  · cases own

section

variable {values : List (Variable × Expr)} {options : LiftOptions} {scope : Identifier}
  {t t' : ScopeTable} {params : List Variable}

theorem outcome_uses (free : ClosureFree (shape.methods.map .method))
    (found : ∀ ref ∈ freeReferences shape.own shape.nodes,
      (Capture.ofReference values ref).reference = ref)
    (mint : (mintParams scope (shape.slots values options)).run t = (params, t')) :
    gathered Node.uses [.cls (shape.outcome (shape.slots values options) params).cls] ⊆
      gathered Node.uses shape.nodes := by
  have held : ∀ slot ∈ shape.slots values options,
      slot.capture.ty.parameters ⊆ gathered Node.uses shape.nodes :=
    fun slot => shape.slot_type_used found
  have types := mint_params_types scope (shape.slots values options) t
  rw [mint] at types
  have given : params.flatMap (·.ty.parameters) ⊆ gathered Node.uses shape.nodes := by
    intro p member
    obtain ⟨x, among, inside⟩ := List.mem_flatMap.mp member
    have typed : x.ty ∈ (shape.slots values options).map (·.capture.ty) := by
      rw [← types]
      exact List.mem_map_of_mem among
    obtain ⟨slot, inSlots, same⟩ := List.mem_map.mp typed
    exact held slot inSlots (same ▸ inside)
  have methods : gathered Node.uses (shape.methods.map .method) ⊆
      gathered Node.uses shape.nodes := by
    rw [nodes, Node.gathered_append]
    exact List.subset_append_right _ _
  have fields : gathered Node.uses (shape.fields.map .field) ⊆ gathered Node.uses shape.nodes := by
    rw [nodes, Node.gathered_append]
    exact List.subset_append_left _ _
  generalize shape.slots values options = slots at held
  intro p used
  simp only [outcome, Node.gathered_cons, Node.gathered_append, Node.children, List.map_append,
    List.mem_append] at used
  rcases used with header | ((own | stored) | parameters | storing | rewritten) | none
  · cases header
  · exact fields own
  · obtain ⟨n, walked, here⟩ := (Node.mem_gathered _).mp stored
    rw [Node.field_list_walk] at walked
    obtain ⟨f, among, rfl⟩ := List.mem_map.mp walked
    obtain ⟨slot, inSlots, rfl⟩ := List.mem_map.mp among
    exact held slot inSlots (by simpa [Node.uses, Node.types, Slot.toField] using here)
  · rw [Node.uses, Node.types, List.flatMap_map] at parameters
    exact given parameters
  · exact given (shape.storing_uses slots params storing)
  · exact methods (shape.rewritten_uses slots free rewritten)
  · cases none

theorem outcome_binds (slots : List Slot) (params : List Variable)
    (free : ClosureFree (shape.methods.map .method)) :
    freeTypeParameters shape.nodes ++ gathered Node.binds (shape.methods.map .method) ⊆
      gathered Node.binds [.cls (shape.outcome slots params).cls] := by
  have kept : gathered Node.binds ((shape.rewritten slots).map .method) =
      gathered Node.binds (shape.methods.map .method) :=
    shape.rewritten_walk slots Node.binds Node.binds_bare (fun _ => rfl) (fun _ _ _ => rfl) free
  intro p member
  simp only [outcome, Node.gathered_cons, Node.gathered_append, Node.children, List.mem_append,
    kept]
  rcases List.mem_append.mp member with own | bound
  · exact Or.inl own
  · exact Or.inr (Or.inl (Or.inr (Or.inr (Or.inr bound))))

theorem fields_bind_nothing (fields : List Field) :
    gathered Node.binds (fields.map .field) = [] := by
  rw [gathered, Node.field_list_walk, List.flatMap_map]
  exact List.flatMap_eq_nil_iff.mpr fun _ _ => rfl

theorem nodes_bind (free : ClosureFree (shape.methods.map .method)) {p : TypeParameter} :
    p ∈ gathered Node.binds shape.nodes ↔ ∃ m, .method m ∈ shape.nodes ∧ p ∈ m.typeParams := by
  constructor
  · intro bound
    obtain ⟨part, walked, binds⟩ := (Node.mem_gathered _).mp bound
    obtain ⟨top, listed, inside⟩ := Node.mem_preorderAll.mp walked
    rcases List.mem_append.mp listed with field | method
    · obtain ⟨f, _, rfl⟩ := List.mem_map.mp field
      rw [Node.preorder, List.mem_singleton] at inside
      rw [inside] at binds
      cases binds
    · have alone := free.one method
      obtain ⟨m, _, rfl⟩ := List.mem_map.mp method
      rw [Node.preorder_eq, List.mem_cons] at inside
      rcases inside with rfl | under
      · exact ⟨m, listed, binds⟩
      · -- Under the method there is only code.
        obtain ⟨c, child, below⟩ := Node.mem_preorderAll.mp under
        have code : c.isCode = true := by
          obtain ⟨s, _, rfl⟩ := List.mem_map.mp child
          rfl
        have nothing := Node.code_binds_nothing code
          ((alone.children List.mem_cons_self).one child)
        have here : p ∈ gathered Node.binds [c] := (Node.mem_gathered _).mpr
          ⟨part, Node.mem_preorderAll.mpr ⟨c, List.mem_cons_self, below⟩, binds⟩
        rw [nothing] at here
        cases here
  · rintro ⟨m, member, binds⟩
    exact (Node.mem_gathered _).mpr ⟨.method m,
      Node.mem_preorderAll.mpr ⟨_, member, Node.self_mem_preorder _⟩, binds⟩

theorem outcome_binds_all (free : ClosureFree (shape.methods.map .method))
    (found : ∀ ref ∈ freeReferences shape.own shape.nodes,
      (Capture.ofReference values ref).reference = ref)
    (mint : (mintParams scope (shape.slots values options)).run t = (params, t')) :
    freeTypeParameters [.cls (shape.outcome (shape.slots values options) params).cls] = [] := by
  have binds := shape.outcome_binds (shape.slots values options) params free
  rw [no_free_type_parameter]
  intro p used
  have inside := shape.outcome_uses free found mint used
  apply binds
  rw [List.mem_append]
  by_cases bound : p ∈ gathered Node.binds shape.nodes
  · rw [nodes, Node.gathered_append, fields_bind_nothing, List.nil_append] at bound
    exact Or.inr bound
  · exact Or.inl (mem_free_type_parameters.mpr ⟨inside, bound⟩)

end

end Shape

theorem Closure.lifted_binds_all {closure : Closure} {site : Site} {options : LiftOptions}
    {t t' : ScopeTable} {made : Lifted}
    (lifts : (closure.lift site options).run.run t = (.ok made, t')) :
    freeTypeParameters [.cls made.cls] = [] := by
  obtain ⟨free, params, mint, rfl⟩ := (Shape.lift_ok _).mp (lift_sketched lifts)
  exact Shape.outcome_binds_all _ free (fun _ => closure.capture_reference site t) mint

theorem Closure.mem_type_parameters {closure : Closure} {site : Site} {options : LiftOptions}
    {t t' : ScopeTable} {made : Lifted}
    (lifts : (closure.lift site options).run.run t = (.ok made, t')) {p : TypeParameter} :
    p ∈ made.cls.typeParams ↔
      (∃ part ∈ Node.preorderAll ((closure.members site t).map (closure.renamed made.cls.name)),
        ∃ ty ∈ part.types, p ∈ ty.parameters) ∧
      ∀ m, .method m ∈ (closure.members site t).map (closure.renamed made.cls.name) →
        p ∉ m.typeParams := by
  obtain ⟨free, params, _, _, rfl⟩ := Shape.lift_builds _ (lift_sketched lifts)
  rw [Shape.outcome, ← closure.sketch_nodes, mem_free_type_parameters, Shape.nodes_bind _ free,
    Node.mem_gathered, not_exists]
  simp only [Node.uses, List.mem_flatMap, not_and]

theorem Lifted.construction_type (made : Lifted) :
    ∃ ty args, made.construction = .construct ty args ∧
      (made.cls.typeParams = [] → ty = .scalar made.cls.name) ∧
      (made.cls.typeParams ≠ [] →
        ty = .parameterized made.cls.name (made.cls.typeParams.map .parameter)) := by
  refine ⟨made.type, _, rfl, ?_, ?_⟩
  · intro none
    rw [type, if_pos none]
  · intro some
    rw [type, if_neg some]

theorem Expr.lifts_closure {e : Expr} {options : LiftOptions} {site : Site} {t t' : ScopeTable}
    {made : Lifted} (lifts : e.LiftsTo options site t made t') :
    ∃ closure : Closure, (closure.lift site options).run.run t = (.ok made, t') := by
  cases e with
  | lambda closure => exact ⟨.body closure.toBody, lifts⟩
  | methodReference closure => exact ⟨.reference closure, lifts⟩
  | anonymousClass closure => exact ⟨.anonymous closure, lifts⟩
  | _ => cases lifts

theorem Class.renamed_binds_all {cls : Class} (bound : freeTypeParameters [.cls cls] = [])
    (names : List (TypeName × TypeName)) : freeTypeParameters [.cls (cls.renamed names)] = [] := by
  induction names generalizing cls with
  | nil => exact bound
  | cons name rest ih =>
    exact ih (no_free_type_parameter_rename (name.1.replace name.2) bound)

theorem Documents.binds_all {options : LiftOptions} {enclosing : TypeName} {r : Replacement}
    {x : Extract} (documents : Documents options enclosing r x) :
    freeTypeParameters [.cls x.cls] = [] := by
  obtain ⟨made, ⟨site, t, t', names, _, lifts, _, same⟩, _⟩ := documents
  obtain ⟨closure, lifts⟩ := Expr.lifts_closure lifts
  rw [same]
  exact Class.renamed_binds_all (Closure.lifted_binds_all lifts) names

theorem Program.converted_binds_all {program : Program} {options : LiftOptions} {c : Conversion}
    (converted : program.convert options = .ok c) {cls : Class}
    (member : cls ∈ c.program.classes.drop program.classes.length) :
    freeTypeParameters [.cls cls] = [] := by
  obtain ⟨_, _, kept, extracts, t, t', _, converts, rfl⟩ :=
    program.converts_of_convert options converted
  obtain ⟨entries, replaced, rfl, sources⟩ := classes_replaced converts
  have count := (replaced_each replaced).length_eq
  rw [List.length_map, List.length_map] at count
  rw [count, List.drop_left, List.map_map] at member
  obtain ⟨entry, among, rfl⟩ := List.mem_map.mp member
  have each : List.Forall₂ (fun (entry : Replacement × Extract) (_ : Class × Expr) =>
      freeTypeParameters [.cls entry.2.cls] = [] ∧ True) entries _ :=
    sources.flip.imp fun _ _ documented => ⟨documented.2.binds_all, trivial⟩
  exact ((List.forall₂_and_left _ _).mp each).1 entry among

/-- A class made from a closure binds every type parameter in it, and so do the classes that a
conversion adds to a program, under the names that they have in the end. When it is lifted, the
class has the type parameters that the members of the closure use and its methods do not bind, in
ascending order and each once, and the expression that stands for the closure instantiates the class
with them. -/
theorem type_parameters_exact :
    (∀ (closure : Closure) (site : Site) (options : LiftOptions) (t t' : ScopeTable)
      (made : Lifted), (closure.lift site options).run.run t = (.ok made, t') →
      freeTypeParameters [.cls made.cls] = [] ∧
      made.cls.typeParams.Pairwise TypeParameter.Precedes ∧ made.cls.typeParams.Nodup ∧
      (∀ p, p ∈ made.cls.typeParams ↔
        (∃ part ∈ Node.preorderAll ((closure.members site t).map (closure.renamed made.cls.name)),
          ∃ ty ∈ part.types, p ∈ ty.parameters) ∧
        ∀ m, .method m ∈ (closure.members site t).map (closure.renamed made.cls.name) →
          p ∉ m.typeParams) ∧
      ∃ ty args, made.construction = .construct ty args ∧
        (made.cls.typeParams = [] → ty = .scalar made.cls.name) ∧
        (made.cls.typeParams ≠ [] →
          ty = .parameterized made.cls.name (made.cls.typeParams.map .parameter))) ∧
    ∀ (program : Program) (options : LiftOptions) (c : Conversion),
      program.convert options = .ok c →
      ∀ cls ∈ c.program.classes.drop program.classes.length,
        freeTypeParameters [.cls cls] = [] := by
  constructor
  · intro closure site options t t' made lifts
    have ascending : made.cls.typeParams.Pairwise TypeParameter.Precedes ∧
        made.cls.typeParams.Nodup := by
      obtain ⟨_, params, _, _, rfl⟩ := Shape.lift_builds _ (Closure.lift_sketched lifts)
      exact free_type_parameters_ascending _
    exact ⟨Closure.lifted_binds_all lifts, ascending.1, ascending.2,
      fun p => Closure.mem_type_parameters lifts, made.construction_type⟩
  · intro program options c converted cls member
    exact Program.converted_binds_all converted member

/-- An anonymous class with a field of type `List<T>` and a method that binds a type parameter of
its own. It reads a variable of type `K` from outside, and does something more at the end. -/
def AnonymousClass.generic (last : Variable → Expr) : AnonymousClass :=
  let run := (Identifier.top.type ⟨"Main"⟩).method "run"
  let x : Variable := ⟨run.var "x", "x", .parameter ⟨⟨"Main"⟩, "K"⟩⟩
  let u : Variable := ⟨((run.type ⟨"Main$1"⟩).method "get").var "u", "u",
    .parameter ⟨⟨"Main$1"⟩, "U"⟩⟩
  { name := ⟨"Main$1"⟩
    superTypes := [⟨"Getter"⟩]
    fields := [⟨"items", .parameterized ⟨"List"⟩ [.parameter ⟨⟨"Main"⟩, "T"⟩], false⟩]
    methods := [⟨"get", false, [⟨⟨"Main$1"⟩, "U"⟩], [u], .unit, [.expr (.var x), .expr (last u)]⟩]
    span := .dummy }

/-- In this program the anonymous class returns its parameter from a lambda. The class made from the
lambda has a type parameter that was declared under the name that the anonymous class had. -/
def Program.generic : Program :=
  let run := (Identifier.top.type ⟨"Main"⟩).method "run"
  let x : Variable := ⟨run.var "x", "x", .parameter ⟨⟨"Main"⟩, "K"⟩⟩
  let supply (u : Variable) : Expr := .lambda
    ⟨⟨"Supplier"⟩, "get", [], u.ty, [.ret (some (.var u))], .dummy⟩
  ⟨"generic", ⟨[]⟩,
    [⟨⟨"Main"⟩, [⟨⟨"Main"⟩, "T"⟩, ⟨⟨"Main"⟩, "K"⟩], [], [], ⟨[], []⟩,
      [⟨"run", false, [], [x], .scalar ⟨"Getter"⟩,
        [.ret (some (.anonymousClass (.generic supply)))]⟩], .dummy⟩]⟩

theorem generic_type_parameters :
    (∃ made t', ((Closure.anonymous (.generic .var)).lift ⟨.top, ⟨"Main"⟩⟩ .standard).run.run
        (.empty "_cassis_tmp_") = (.ok made, t') ∧
      made.cls.typeParams = [⟨⟨"Main"⟩, "K"⟩, ⟨⟨"Main"⟩, "T"⟩] ∧
      freeTypeParameters [.cls made.cls] = [] ∧
      ∃ args, made.construction = .construct (.parameterized made.cls.name
        [.parameter ⟨⟨"Main"⟩, "K"⟩, .parameter ⟨⟨"Main"⟩, "T"⟩]) args) ∧
    ∃ c : Conversion, Program.generic.convert .standard = .ok c ∧
      (c.program.classes.drop 1).map (·.typeParams) =
        [[⟨⟨"Main_Anonymous_1"⟩, "U"⟩], [⟨⟨"Main"⟩, "K"⟩, ⟨⟨"Main"⟩, "T"⟩]] ∧
      ∀ cls ∈ c.program.classes.drop 1, freeTypeParameters [.cls cls] = [] := by
  constructor
  · have shown : (((Closure.anonymous (.generic .var)).lift ⟨.top, ⟨"Main"⟩⟩ .standard).run.run
        (.empty "_cassis_tmp_")).1.map (·.cls.typeParams) =
          .ok [⟨⟨"Main"⟩, "K"⟩, ⟨⟨"Main"⟩, "T"⟩] := by decide +kernel
    obtain ⟨made, t', lifts, params⟩ := lifted_of_view shown
    obtain ⟨bound, _, _, _, ty, args, construction, _, instantiated⟩ :=
      type_parameters_exact.1 _ _ _ _ _ _ lifts
    rw [params] at instantiated
    rw [instantiated (by simp)] at construction
    exact ⟨made, t', lifts, params, bound, args, construction⟩
  · have shown : (Program.generic.convert .standard).map
        (fun c => (c.program.classes.drop 1).map (·.typeParams)) =
          .ok [[⟨⟨"Main_Anonymous_1"⟩, "U"⟩], [⟨⟨"Main"⟩, "K"⟩, ⟨⟨"Main"⟩, "T"⟩]] := by
      decide +kernel
    cases converted : Program.generic.convert .standard with
    | error e =>
      rw [converted] at shown
      cases shown
    | ok c =>
      rw [converted] at shown
      exact ⟨c, rfl, Except.ok.inj shown, type_parameters_exact.2 _ _ c converted⟩

end ClosureLift
