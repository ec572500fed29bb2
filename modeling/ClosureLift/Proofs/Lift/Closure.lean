import ClosureLift.Lift.Closure
import ClosureLift.Proofs.Lift.Substitution
import ClosureLift.Proofs.Program.Free
import ClosureLift.Proofs.Program.Renaming
import ClosureLift.Proofs.Scope.Minting

/-!
What lifting makes of a closure. Lifting fails for want of a method name or over a closure that is
left in the body, and for nothing else; the class it makes reads each captured reference from the
field of its slot; the references that are left are those that the closure binds itself.
-/
namespace ClosureLift

open Node (ClosureFree)

theorem each_ok {ε α β : Type} {f : α → Except ε β} {accepts : α → Prop} {g : α → β}
    (one : ∀ a b, f a = .ok b ↔ accepts a ∧ b = g a) {as : List α} {bs : List β} :
    as.mapM f = .ok bs ↔ (∀ a ∈ as, accepts a) ∧ bs = as.map g := by
  induction as generalizing bs with
  | nil => simp [pure, Except.pure, eq_comm]
  | cons a rest ih =>
    rw [List.mapM_cons, List.forall_mem_cons, List.map_cons]
    constructor
    · intro run
      cases first : f a with
      | error e =>
        rw [first] at run
        cases run
      | ok b =>
        cases later : rest.mapM f with
        | error e =>
          rw [first, later] at run
          cases run
        | ok others =>
          obtain ⟨here, rfl⟩ := (one a b).mp first
          obtain ⟨there, rfl⟩ := ih.mp later
          rw [first, later] at run
          cases run
          exact ⟨⟨here, there⟩, rfl⟩
    · rintro ⟨⟨here, there⟩, rfl⟩
      rw [(one a _).mpr ⟨here, rfl⟩, ih.mpr ⟨there, rfl⟩]
      rfl

namespace Capture

theorem key_of_reference (values : List (Variable × Expr)) (ref : Reference) :
    (Capture.ofReference values ref).key = ref.key := by
  rcases ref with decl | cls
  · simp only [Capture.ofReference]
    split
    · rename_i temporary init found
      have same := List.find?_some found
      simpa [Capture.key, Capture.declaration, Reference.key] using same
    · rfl
  · rfl

theorem argument_of_reference (values : List (Variable × Expr)) (ref : Reference) :
    (Capture.ofReference values ref).argument = .reference ref ∨
      ∃ temporary init, (temporary, init) ∈ values ∧ temporary.id = ref.key ∧
        (Capture.ofReference values ref).argument = init := by
  rcases ref with decl | cls
  · simp only [Capture.ofReference]
    split
    · rename_i temporary init found
      have same := List.find?_some found
      exact Or.inr ⟨temporary, init, List.mem_of_find?_eq_some found, beq_iff_eq.mp same, rfl⟩
    · exact Or.inl rfl
  · exact Or.inl rfl

end Capture

namespace Slot

theorem assign_captures (options : LiftOptions) (taken : List String) (captures : List Capture) :
    (Slot.assign options taken captures).map (·.capture) = captures := by
  induction captures generalizing taken with
  | nil => rfl
  | cons c rest ih =>
    simp only [Slot.assign, List.map_cons]
    rw [ih]

end Slot

namespace Shape

variable (shape : Shape)

theorem slot_captures (values : List (Variable × Expr)) (options : LiftOptions) :
    (shape.slots values options).map (·.capture) =
      (freeReferences shape.own shape.nodes).map (Capture.ofReference values) :=
  Slot.assign_captures _ _ _

theorem slot_keys (values : List (Variable × Expr)) (options : LiftOptions) :
    (shape.slots values options).map (·.capture.key) =
      (freeReferences shape.own shape.nodes).map Reference.key := by
  have captures := congrArg (List.map Capture.key) (shape.slot_captures values options)
  rw [List.map_map, List.map_map] at captures
  refine captures.trans ?_
  apply List.map_congr_left
  intro ref _
  exact Capture.key_of_reference values ref

theorem slot_of_free_reference {values : List (Variable × Expr)} {options : LiftOptions}
    {slot : Slot} (member : slot ∈ shape.slots values options) :
    ∃ ref ∈ freeReferences shape.own shape.nodes, slot.capture = .ofReference values ref := by
  have captured : slot.capture ∈ (shape.slots values options).map (·.capture) :=
    List.mem_map_of_mem member
  rw [shape.slot_captures, List.mem_map] at captured
  obtain ⟨ref, free, same⟩ := captured
  exact ⟨ref, free, same.symm⟩

theorem substitution_cases (slots : List Slot) (ref : Reference) :
    (ref.key ∉ slots.map (·.capture.key) ∧
      (shape.substitution slots).reference ref = .reference ref) ∨
    ∃ slot ∈ slots, slot.capture.key = ref.key ∧
      (shape.substitution slots).reference ref = slot.access shape.name := by
  cases found : (shape.substitution slots).get? ref.key with
  | none =>
    left
    constructor
    · intro member
      rw [Substitution.get?, List.lookup_eq_none_iff] at found
      obtain ⟨slot, inSlots, same⟩ := List.mem_map.mp member
      have different := found (slot.capture.key, slot.access shape.name)
        (List.mem_reverse.mpr (List.mem_map.mpr ⟨slot, inSlots, rfl⟩))
      simp [same] at different
    · simp [Substitution.reference, found]
  | some e =>
    right
    have listed := found
    rw [Substitution.get?, List.lookup_eq_some_iff] at listed
    obtain ⟨before, after, split, _⟩ := listed
    have member : (ref.key, e) ∈ shape.substitution slots := by
      rw [← List.mem_reverse, split]
      simp
    obtain ⟨slot, inSlots, same⟩ := List.mem_map.mp member
    simp only [Prod.mk.injEq] at same
    refine ⟨slot, inSlots, same.1, ?_⟩
    simp [Substitution.reference, found, same.2]

def rewritten (slots : List Slot) : List Method :=
  shape.methods.map fun m =>
    { m with body := Stmt.replacedAll (shape.substitution slots) m.body }

def outcome (slots : List Slot) (params : List Variable) : Lifted where
  cls :=
    { name := shape.name
      typeParams := freeTypeParameters shape.nodes
      superTypes := shape.superTypes
      fields := shape.fields ++ slots.map Slot.toField
      constructor := ⟨params, shape.storing slots params⟩
      methods := shape.rewritten slots
      span := shape.span }
  slots := slots

theorem lifted_methods_ok {slots : List Slot} {methods : List Method} :
    shape.liftedMethods slots = .ok methods ↔
      ClosureFree (shape.methods.map .method) ∧ methods = shape.rewritten slots := by
  rw [Node.closure_free_methods]
  apply each_ok
  intro m m'
  have exact := @substitute_body_ok (shape.substitution slots) m.body
  cases body : Stmt.substituteAll (shape.substitution slots) m.body with
  | error e =>
    have refused : ¬ ClosureFree (m.body.map .stmt) := by
      intro free
      have done := exact.mpr ⟨free, rfl⟩
      rw [body] at done
      cases done
    simp [refused]
  | ok replaced =>
    obtain ⟨free, rfl⟩ := exact.mp body
    simp [free, eq_comm]

theorem mint_params_minted (scope : Identifier) (slots : List Slot) (t : ScopeTable) :
    Minted t ((mintParams scope slots).run t).2 (((mintParams scope slots).run t).1.map (·.id)) ∧
      ((mintParams scope slots).run t).1.length = slots.length := by
  induction slots generalizing t with
  | nil => exact ⟨.none t, rfl⟩
  | cons slot rest ih =>
    have first := t.fresh_variable_minted scope slot.preferred slot.capture.ty
    have later := ih (t.freshVariable scope slot.preferred slot.capture.ty).2
    exact ⟨first.trans later.1, congrArg (· + 1) later.2⟩

theorem mint_params_types (scope : Identifier) (slots : List Slot) (t : ScopeTable) :
    ((mintParams scope slots).run t).1.map (·.ty) = slots.map (·.capture.ty) := by
  induction slots generalizing t with
  | nil => rfl
  | cons slot rest ih =>
    have later := ih (t.freshVariable scope slot.preferred slot.capture.ty).2
    exact congrArg (slot.capture.ty :: ·) later

theorem lift_eq (scope : Identifier) (values : List (Variable × Expr)) (options : LiftOptions)
    (t : ScopeTable) :
    (shape.lift scope values options).run.run t =
      match shape.liftedMethods (shape.slots values options) with
      | .error e => (.error e, t)
      | .ok methods =>
        let minted := (mintParams (scope.type shape.name).constructor
          (shape.slots values options)).run t
        (.ok ⟨{ (shape.outcome (shape.slots values options) minted.1).cls with methods },
          shape.slots values options⟩, minted.2) := by
  simp only [lift]
  cases shape.liftedMethods (shape.slots values options) <;> rfl

theorem lift_run (scope : Identifier) (values : List (Variable × Expr)) (options : LiftOptions)
    (free : ClosureFree (shape.methods.map .method)) (t : ScopeTable) {params : List Variable}
    {t' : ScopeTable} (mint : (mintParams (scope.type shape.name).constructor
      (shape.slots values options)).run t = (params, t')) :
    (shape.lift scope values options).run.run t =
      (.ok (shape.outcome (shape.slots values options) params), t') := by
  rw [lift_eq, shape.lifted_methods_ok.mpr ⟨free, rfl⟩]
  simp only [mint]
  rfl

theorem lift_ok {scope : Identifier} {values : List (Variable × Expr)} {options : LiftOptions}
    {t t' : ScopeTable} {made : Lifted} :
    (shape.lift scope values options).run.run t = (.ok made, t') ↔
      ClosureFree (shape.methods.map .method) ∧
      ∃ params,
        (mintParams (scope.type shape.name).constructor (shape.slots values options)).run t =
        (params, t') ∧ made = shape.outcome (shape.slots values options) params := by
  constructor
  · intro run
    rw [lift_eq] at run
    cases lifted : shape.liftedMethods (shape.slots values options) with
    | error e =>
      rw [lifted] at run
      cases run
    | ok methods =>
      obtain ⟨free, rfl⟩ := shape.lifted_methods_ok.mp lifted
      rw [lifted] at run
      cases run
      exact ⟨free, _, rfl, rfl⟩
  · rintro ⟨free, params, mint, rfl⟩
    exact shape.lift_run scope values options free t mint

theorem lift_builds {scope : Identifier} {values : List (Variable × Expr)} {options : LiftOptions}
    {t t' : ScopeTable} {made : Lifted}
    (lifts : (shape.lift scope values options).run.run t = (.ok made, t')) :
    ClosureFree (shape.methods.map .method) ∧
    ∃ params, params.length = (shape.slots values options).length ∧ (params.map (·.id)).Nodup ∧
      made = shape.outcome (shape.slots values options) params := by
  obtain ⟨free, params, mint, rfl⟩ := shape.lift_ok.mp lifts
  have minted := mint_params_minted (scope.type shape.name).constructor
    (shape.slots values options) t
  rw [mint] at minted
  exact ⟨free, params, minted.2, minted.1.distinct, rfl⟩

theorem rewritten_reads {values : List (Variable × Expr)} {options : LiftOptions}
    (free : ClosureFree (shape.methods.map .method)) {m : Method} (member : m ∈ shape.methods)
    {ref : Reference} (reads : .expr (.reference ref) ∈ ((Node.method m).replaced
      (shape.substitution (shape.slots values options))).preorder) :
    ref = .this shape.name ∨ (.expr (.reference ref) ∈ m.nodes ∧
      ref.isFree (Node.declared shape.nodes) shape.own = false) := by
  obtain ⟨old, inside, stands⟩ :=
    Node.reads_of_replaced (free.one (List.mem_map_of_mem member)) reads
  rcases shape.substitution_cases (shape.slots values options) old with
    ⟨absent, stays⟩ | ⟨slot, _, _, becomes⟩
  · right
    rw [stays, Expr.nodes, List.mem_singleton] at stands
    cases stands
    refine ⟨inside, ?_⟩
    -- A reference that leaves the closure would have its key among the slots.
    rw [← Bool.not_eq_true]
    intro leaves
    apply absent
    rw [shape.slot_keys]
    apply free_reference_key_found _ leaves
    rw [Shape.nodes, Node.preorderAll_append]
    exact List.mem_append_right _
      (Node.mem_preorderAll.mpr ⟨_, List.mem_map_of_mem member, inside⟩)
  · left
    rw [becomes] at stands
    simp only [Slot.access, Expr.this, Expr.nodes, List.mem_cons, Node.expr.injEq, reduceCtorEq,
      Expr.reference.injEq, List.not_mem_nil, or_false, false_or] at stands
    exact stands

theorem exchanged_quiet (slots : List Slot) (f : Node → List α)
    (reference : ∀ ref, f (.expr (.reference ref)) = [])
    (access : ∀ receiver field ty, f (.expr (.fieldAccess receiver field ty)) = []) (n : Node) :
    Node.exchanged (shape.substitution slots) f n = f n := by
  unfold Node.exchanged
  split
  · rename_i ref reads
    rw [Node.reference_eq_some] at reads
    subst reads
    rw [reference]
    rcases shape.substitution_cases slots ref with ⟨_, stays⟩ | ⟨slot, _, _, becomes⟩
    · rw [stays]
      simp [Expr.nodes, reference]
    · rw [becomes]
      simp [Slot.access, Expr.nodes, Expr.this, reference, access]
  · rfl

theorem rewritten_walk (slots : List Slot) (f : Node → List α) (own : ∀ n, f n.bare = f n)
    (reference : ∀ ref, f (.expr (.reference ref)) = [])
    (access : ∀ receiver field ty, f (.expr (.fieldAccess receiver field ty)) = [])
    (free : ClosureFree (shape.methods.map .method)) :
    (Node.preorderAll ((shape.rewritten slots).map .method)).flatMap f =
      (Node.preorderAll (shape.methods.map .method)).flatMap f := by
  simp only [Node.preorderAll, rewritten, List.map_map, List.flatMap_map, List.flatMap_assoc]
  apply List.flatMap_congr
  intro m member
  have walk := Node.walk_replaced (shape.substitution slots) f own (.method m)
    (free.one (List.mem_map_of_mem member))
  refine walk.trans ?_
  apply List.flatMap_congr
  intro n _
  exact shape.exchanged_quiet slots f reference access n

theorem rewritten_says {slots : List Slot} {f : Node → List α} (own : ∀ n, f n.bare = f n)
    (free : ClosureFree (shape.methods.map .method)) {a : α}
    (member : a ∈ (Node.preorderAll ((shape.rewritten slots).map .method)).flatMap f) :
    a ∈ (Node.preorderAll (shape.methods.map .method)).flatMap f ∨
      ∃ slot ∈ slots,
        a ∈ f (.expr (slot.access shape.name)) ∨ a ∈ f (.expr (.this shape.name)) := by
  obtain ⟨n, walked, here⟩ := List.mem_flatMap.mp member
  obtain ⟨top, listed, under⟩ := Node.mem_preorderAll.mp walked
  rw [rewritten, List.map_map] at listed
  obtain ⟨m, inMethods, rfl⟩ := List.mem_map.mp listed
  have among : .method m ∈ shape.methods.map Node.method := List.mem_map_of_mem inMethods
  have walk := Node.walk_replaced (shape.substitution slots) f own (.method m) (free.one among)
  have replaced : a ∈ (Node.replaced (shape.substitution slots) (.method m)).preorder.flatMap f :=
    List.mem_flatMap.mpr ⟨n, under, here⟩
  rw [walk] at replaced
  obtain ⟨old, inMethod, exchanged⟩ := List.mem_flatMap.mp replaced
  have before : old ∈ Node.preorderAll (shape.methods.map .method) :=
    Node.mem_preorderAll.mpr ⟨_, among, inMethod⟩
  unfold Node.exchanged at exchanged
  split at exchanged
  · rename_i ref reads
    rcases shape.substitution_cases slots ref with ⟨_, stays⟩ | ⟨slot, inSlots, _, becomes⟩
    · rw [stays, Expr.nodes, List.flatMap_singleton, ← Node.reference_eq_some.mp reads] at exchanged
      exact Or.inl (List.mem_flatMap.mpr ⟨old, before, exchanged⟩)
    · rw [becomes] at exchanged
      simp only [Slot.access, Expr.nodes, Expr.this, List.flatMap_cons, List.flatMap_nil,
        List.append_nil, List.mem_append] at exchanged
      exact Or.inr ⟨slot, inSlots, exchanged⟩
  · exact Or.inl (List.mem_flatMap.mpr ⟨old, before, exchanged⟩)

theorem storing_part {slots : List Slot} {params : List Variable} {n : Node}
    (member : n ∈ Stmt.nodesAll (shape.storing slots params)) :
    n.isClosure = false ∧ n.introduces = [] ∧ ∀ ref, n.reference? = some ref →
      ref = .this shape.name ∨ ∃ x ∈ params, ref = .variable x := by
  induction slots generalizing params with
  | nil => simp [storing, Stmt.nodesAll] at member
  | cons slot rest ih =>
    cases params with
    | nil => simp [storing, Stmt.nodesAll] at member
    | cons x xs =>
      simp only [storing, List.zipWith_cons_cons, Stmt.nodesAll, Stmt.nodes, Expr.nodes,
        Slot.access, Expr.this, Expr.var, List.cons_append, List.nil_append,
        List.mem_cons] at member
      rcases member with rfl | rfl | rfl | rfl | rfl | later
      · exact ⟨rfl, rfl, by rintro ref ⟨⟩⟩
      · exact ⟨rfl, rfl, by rintro ref ⟨⟩⟩
      · exact ⟨rfl, rfl, by rintro ref ⟨⟩⟩
      · refine ⟨rfl, rfl, ?_⟩
        rintro ref ⟨⟩
        exact Or.inl rfl
      · refine ⟨rfl, rfl, ?_⟩
        rintro ref ⟨⟩
        exact Or.inr ⟨x, List.mem_cons_self, rfl⟩
      · obtain ⟨plain, quiet, reads⟩ := ih later
        refine ⟨plain, quiet, ?_⟩
        intro ref same
        rcases reads ref same with own | ⟨y, among, reads⟩
        · exact Or.inl own
        · exact Or.inr ⟨y, List.mem_cons_of_mem x among, reads⟩

end Shape

theorem ClosureBody.lift_eq (closure : ClosureBody) (scope : Identifier) (enclosing : TypeName)
    (options : LiftOptions) (t : ScopeTable) :
    (closure.lift scope enclosing options).run.run t =
      if closure.method = "" then (.error ⟨.missingFunctionalMethod, closure.span⟩, t)
      else ((closure.shape (t.freshClassName enclosing).1).lift scope [] options).run.run
        (t.freshClassName enclosing).2 := by
  by_cases unnamed : closure.method = ""
  · simp only [ClosureBody.lift, unnamed, ↓reduceIte]
    rfl
  · simp only [ClosureBody.lift, unnamed, ↓reduceIte]
    rfl

theorem AnonymousClass.lift_eq (closure : AnonymousClass) (scope : Identifier)
    (enclosing : TypeName) (options : LiftOptions) (t : ScopeTable) :
    (closure.lift scope enclosing options).run.run t =
      ((closure.shape (t.freshClassName enclosing).1).lift scope [] options).run.run
        (t.freshClassName enclosing).2 :=
  rfl

theorem MethodReference.lift_eq (closure : MethodReference) (scope : Identifier)
    (enclosing : TypeName) (options : LiftOptions) (t : ScopeTable) :
    (closure.lift scope enclosing options).run.run t =
      if closure.method = "" then (.error ⟨.missingFunctionalMethod, closure.span⟩, t)
      else
        let name := (t.freshClassName enclosing).1
        let inner := (scope.type name).method closure.method
        let minted := (MethodReference.mintArguments inner 0 closure.paramTypes).run
          (t.freshClassName enclosing).2
        let forward := (closure.call inner (minted.1.map .var)).run minted.2
        (((closure.toBody minted.1 forward.1.1).shape name).lift scope forward.1.2
          options).run.run forward.2 := by
  by_cases unnamed : closure.method = ""
  · simp only [MethodReference.lift, unnamed, ↓reduceIte]
    rfl
  · simp only [MethodReference.lift, unnamed, ↓reduceIte]
    rfl

structure Site where
  scope : Identifier
  enclosing : TypeName

/-- The shape that a closure literal is lifted from. The values are what it computes where it is
created. -/
inductive Sketched (site : Site) :
    Expr → ScopeTable → Shape → List (Variable × Expr) → ScopeTable → Prop where
  | lambda {closure : Lambda} {t t₁ : ScopeTable} {name : TypeName}
      (named : closure.method ≠ "") (fresh : t.freshClassName site.enclosing = (name, t₁)) :
      Sketched site (.lambda closure) t (closure.toBody.shape name) [] t₁
  | methodReference {closure : MethodReference} {t t₁ t₂ t₃ : ScopeTable} {name : TypeName}
      {params : List Variable} {call : Expr} {values : List (Variable × Expr)}
      (named : closure.method ≠ "") (fresh : t.freshClassName site.enclosing = (name, t₁))
      (mint : (MethodReference.mintArguments ((site.scope.type name).method closure.method) 0
        closure.paramTypes).run t₁ = (params, t₂))
      (forward : (closure.call ((site.scope.type name).method closure.method)
        (params.map .var)).run t₂ = ((call, values), t₃)) :
      Sketched site (.methodReference closure) t ((closure.toBody params call).shape name)
        values t₃
  | anonymousClass {closure : AnonymousClass} {t t₁ : ScopeTable} {name : TypeName}
      (fresh : t.freshClassName site.enclosing = (name, t₁)) :
      Sketched site (.anonymousClass closure) t (closure.shape name) [] t₁

theorem closure_free_methods_rename {σ : TypeName → TypeName} {methods : List Method}
    (free : ClosureFree (methods.map .method)) :
    ClosureFree ((Method.renameAll σ methods).map .method) := by
  have renamed := Node.closure_free_rename σ free
  rw [List.map_map] at renamed
  rw [method_list_rename, List.map_map]
  exact renamed

namespace MethodReference

variable (closure : MethodReference)

theorem call_cases {scope : Identifier} {args : List Expr} {t t' : ScopeTable} {call : Expr}
    {values : List (Variable × Expr)}
    (run : (closure.call scope args).run t = ((call, values), t')) :
    (∃ cls, closure.target = .static cls ∧ values = [] ∧ t' = t ∧
      call = .staticCall cls closure.targetMethod args [] closure.returnType) ∨
    (∃ ref, closure.target = .instance (.reference ref) ∧ values = [] ∧ t' = t ∧
      call = .methodCall (.reference ref) closure.targetMethod args [] closure.returnType) ∨
    (∃ receiver temporary, closure.target = .instance receiver ∧
      (temporary, t') = t.freshTemporary scope receiver.ty ∧ values = [(temporary, receiver)] ∧
      call = .methodCall (.var temporary) closure.targetMethod args [] closure.returnType) := by
  obtain ⟨_, _, _, _, target, _, _⟩ := closure
  rcases target with cls | receiver
  · left
    cases run
    exact ⟨cls, rfl, rfl, rfl, rfl⟩
  · right
    cases receiver with
    | reference ref =>
      left
      cases run
      exact ⟨ref, rfl, rfl, rfl, rfl⟩
    | _ =>
      right
      cases run
      exact ⟨_, _, rfl, rfl, rfl, rfl⟩

/-- What a forwarding body reads besides its parameters: a plain receiver, or the temporary that
holds any other. -/
def Receives (values : List (Variable × Expr)) (ref : Reference) : Prop :=
  (closure.target = .instance (.reference ref) ∧ values = []) ∨
    ∃ temporary receiver, ref = .variable temporary ∧ closure.target = .instance receiver ∧
      values = [(temporary, receiver)]

theorem call_receives {scope : Identifier} {args : List Expr} {t t' : ScopeTable} {call : Expr}
    {values : List (Variable × Expr)}
    (run : (closure.call scope args).run t = ((call, values), t')) :
    (∃ cls, call = .staticCall cls closure.targetMethod args [] closure.returnType) ∨
    ∃ ref, closure.Receives values ref ∧
      call = .methodCall (.reference ref) closure.targetMethod args [] closure.returnType := by
  rcases closure.call_cases run with ⟨cls, _, _, _, form⟩ | ⟨ref, target, none, _, form⟩ |
    ⟨receiver, temporary, target, _, held, form⟩
  · exact Or.inl ⟨cls, form⟩
  · exact Or.inr ⟨ref, Or.inl ⟨target, none⟩, form⟩
  · exact Or.inr ⟨.variable temporary, Or.inr ⟨temporary, receiver, rfl, target, held⟩, form⟩

theorem mint_arguments_minted (scope : Identifier) (k : Nat) (types : List Ty) (t : ScopeTable) :
    Minted t ((mintArguments scope k types).run t).2
      (((mintArguments scope k types).run t).1.map (·.id)) := by
  induction types generalizing k t with
  | nil => exact .none t
  | cons ty rest ih => exact (t.fresh_variable_minted scope s!"arg{k}" ty).trans (ih (k + 1) _)

end MethodReference

theorem reference_list_walk (refs : List Reference) :
    Expr.nodesAll (refs.map .reference) = refs.map fun ref => .expr (.reference ref) := by
  induction refs with
  | nil => rfl
  | cons ref rest ih =>
    rw [List.map_cons, Expr.nodesAll, ih]
    rfl

theorem variable_list_walk (xs : List Variable) :
    Expr.nodesAll (xs.map .var) = xs.map fun x => .expr (.reference (.variable x)) := by
  have walk := reference_list_walk (xs.map .variable)
  rw [List.map_map, List.map_map] at walk
  exact walk

theorem forwarding_part {closure : MethodReference} {scope : Identifier} {params : List Variable}
    {t t' : ScopeTable} {call : Expr} {values : List (Variable × Expr)} {n : Node}
    (run : (closure.call scope (params.map .var)).run t = ((call, values), t'))
    (member : n ∈ Stmt.nodesAll (closure.forwarding call)) :
    n.isClosure = false ∧ n.introduces = [] ∧ ∀ ref, n.reference? = some ref →
      (∃ x ∈ params, ref = .variable x) ∨ closure.Receives values ref := by
  have outer : n ∈ call.nodes ∨ n = .stmt (.expr call) ∨ n = .stmt (.ret (some call)) ∨
      n = .stmt (.ret none) := by
    unfold MethodReference.forwarding at member
    split at member
    · simp only [Stmt.nodesAll, Stmt.nodes, List.mem_append, List.mem_cons, List.not_mem_nil,
        or_false] at member
      rcases member with (same | inner) | last
      · exact Or.inr (Or.inl same)
      · exact Or.inl inner
      · exact Or.inr (Or.inr (Or.inr last))
    · simp only [Stmt.nodesAll, Stmt.nodes, List.mem_append, List.mem_cons, List.not_mem_nil,
        or_false] at member
      rcases member with same | inner
      · exact Or.inr (Or.inr (Or.inl same))
      · exact Or.inl inner
  rcases outer with inner | rfl | rfl | rfl
  · rcases closure.call_receives run with ⟨cls, rfl⟩ | ⟨read, received, rfl⟩
    · simp only [Expr.nodes, variable_list_walk, List.mem_cons, List.mem_map] at inner
      rcases inner with rfl | ⟨x, param, rfl⟩
      · exact ⟨rfl, rfl, by rintro ref ⟨⟩⟩
      · refine ⟨rfl, rfl, ?_⟩
        rintro ref ⟨⟩
        exact Or.inl ⟨x, param, rfl⟩
    · simp only [Expr.nodes, variable_list_walk, List.mem_cons, List.mem_append, List.mem_map,
        List.not_mem_nil, or_false] at inner
      rcases inner with rfl | rfl | ⟨x, param, rfl⟩
      · exact ⟨rfl, rfl, by rintro ref ⟨⟩⟩
      · refine ⟨rfl, rfl, ?_⟩
        rintro ref ⟨⟩
        exact Or.inr received
      · refine ⟨rfl, rfl, ?_⟩
        rintro ref ⟨⟩
        exact Or.inl ⟨x, param, rfl⟩
  · exact ⟨rfl, rfl, by rintro ref ⟨⟩⟩
  · exact ⟨rfl, rfl, by rintro ref ⟨⟩⟩
  · exact ⟨rfl, rfl, by rintro ref ⟨⟩⟩

namespace Sketched

variable {site : Site} {e : Expr} {t t' : ScopeTable} {shape : Shape}
  {values : List (Variable × Expr)}

theorem closure_free (sketch : Sketched site e t shape values t')
    (free : ClosureFree (Node.ofExpr e)) : ClosureFree (shape.methods.map .method) := by
  cases sketch with
  | @lambda closure _ _ _ named fresh =>
    intro n member
    simp only [ClosureBody.shape, List.map_cons, List.map_nil, Node.preorderAll_cons,
      Node.preorderAll_nil, List.append_nil, Node.preorder_eq, List.mem_cons] at member
    rcases member with same | under
    · rw [same]
      rfl
    · exact free n under
  | methodReference named fresh mint forward =>
    intro n member
    simp only [ClosureBody.shape, MethodReference.toBody, List.map_cons, List.map_nil,
      Node.preorderAll_cons, Node.preorderAll_nil, List.append_nil, Node.preorder, method_walk,
      List.mem_cons] at member
    rcases member with same | under
    · rw [same]
      rfl
    · exact (forwarding_part forward under).1
  | anonymousClass fresh =>
    apply closure_free_methods_rename
    intro n member
    apply free n
    simp only [Node.ofExpr, Node.preorderAll_append]
    exact List.mem_append_right _ member

theorem value_under (sketch : Sketched site e t shape values t') {x : Variable} {init : Expr}
    (member : (x, init) ∈ values) : .expr init ∈ Node.ofExpr e := by
  cases sketch with
  | lambda named fresh => cases member
  | anonymousClass fresh => cases member
  | @methodReference closure _ _ _ _ _ _ _ _ named fresh mint forward =>
    rcases closure.call_cases forward with ⟨_, _, none, _, _⟩ | ⟨_, _, none, _, _⟩ |
      ⟨receiver, temporary, target, _, held, _⟩
    · rw [none] at member
      cases member
    · rw [none] at member
      cases member
    · rw [held, List.mem_singleton, Prod.mk.injEq] at member
      simp [Node.ofExpr, target, member.2]

theorem literal (sketch : Sketched site e t shape values t') : e.isClosure = true := by
  cases sketch <;> rfl

end Sketched

theorem construction_children (lifted : Lifted) :
    Node.ofExpr lifted.construction = lifted.slots.map fun slot => .expr slot.capture.argument := by
  simp [Lifted.construction, Node.ofExpr]

theorem construction_closure_free {site : Site} {e : Expr} {t t' : ScopeTable} {shape : Shape}
    {values : List (Variable × Expr)} (sketch : Sketched site e t shape values t')
    (free : ClosureFree (Node.ofExpr e)) (options : LiftOptions) (params : List Variable) :
    ClosureFree [.expr (shape.outcome (shape.slots values options) params).construction] := by
  rw [Node.closure_free_cons]
  refine ⟨rfl, ?_, Node.closure_free_nil⟩
  intro n under
  rw [Node.children, construction_children, Node.mem_preorderAll] at under
  obtain ⟨c, member, inside⟩ := under
  obtain ⟨slot, inSlots, rfl⟩ := List.mem_map.mp member
  obtain ⟨ref, _, captured⟩ := shape.slot_of_free_reference inSlots
  rw [captured] at inside
  rcases Capture.argument_of_reference values ref with same | ⟨x, init, held, _, same⟩
  · rw [same] at inside
    simp only [Node.preorder, Expr.nodes, List.mem_singleton] at inside
    rw [inside]
    rfl
  · rw [same] at inside
    exact free n (Node.mem_preorderAll.mpr ⟨_, sketch.value_under held, inside⟩)

theorem outcome_closure_free {shape : Shape} (slots : List Slot) (params : List Variable)
    (free : ClosureFree (shape.methods.map .method)) :
    ClosureFree [.cls (shape.outcome slots params).cls] := by
  have methods : ClosureFree ((shape.rewritten slots).map .method) := by
    rw [Node.closure_free_iff_no_mark] at free ⊢
    rw [shape.rewritten_walk slots Node.closureMark Node.closure_mark_bare (fun _ => rfl)
      (fun _ _ _ => rfl) (Node.closure_free_iff_no_mark.mpr free)]
    exact free
  have storing : ClosureFree ((shape.storing slots params).map .stmt) := by
    intro n member
    rw [← statement_list_walk] at member
    exact (shape.storing_part member).1
  have fields : ClosureFree ((shape.fields ++ slots.map Slot.toField).map .field) := by
    intro n member
    rw [Node.field_list_walk] at member
    obtain ⟨f, _, rfl⟩ := List.mem_map.mp member
    rfl
  rw [Node.closure_free_cons]
  refine ⟨rfl, ?_, Node.closure_free_nil⟩
  simp only [Node.children, Node.closure_free_append]
  exact ⟨fields, Node.closure_free_cons.mpr ⟨rfl, storing, methods⟩⟩

end ClosureLift
