import ClosureLift.Proofs.Lift.Application
import ClosureLift.Proofs.Lift.Closed
import ClosureLift.Proofs.Scope.Growth

/-!
Lifted method references. The class holds the receiver, if there is one, and nothing else, and its
method passes its arguments on to the target. So a call of the method is the call of the target, one
level deeper, on the receiver that was computed when the object was built.
-/
namespace ClosureLift

open Eval

namespace Target

def receivers : Target → List Expr
  | .static _ => []
  | .instance receiver => [receiver]

/-- Calls a method of the target. A target that is an instance was evaluated before. -/
def call (ctx : Context) (method : String) (receiver : Value) (args : List Value) :
    Target → Eval Value
  | .static cls => ctx.callStatic cls method args
  | .instance _ => ctx.callMethod receiver method args

end Target

theorem call_static_run (ctx : Context) (cls : TypeName) (method : String) (args : List Value)
    (f : Frame) :
    (ctx.callStatic cls method args).run.run f =
      (do
        let cls ← ofExcept (ctx.program.runtimeClass cls)
        let m ← ofExcept (cls.callee method args)
        ctx.call ⟨m.params, m.body, none, args⟩ : Eval Value).run.run f := rfl

def OnHeap (m n : Eval α) : Prop :=
  ∀ heap locals locals', m.run.run ⟨heap, locals⟩ =
    ((n.run.run ⟨heap, locals'⟩).1, ⟨(n.run.run ⟨heap, locals'⟩).2.heap, locals⟩)

theorem OnHeap.resolved {program : Program} {cls : TypeName} {method : String} {args : List Value}
    {next next' : Method → Eval Value} (same : ∀ m, OnHeap (next m) (next' m)) :
    OnHeap
      (do
        let cls ← ofExcept (program.runtimeClass cls)
        let m ← ofExcept (cls.callee method args)
        next m)
      (do
        let cls ← ofExcept (program.runtimeClass cls)
        let m ← ofExcept (cls.callee method args)
        next' m) := by
  intro heap locals locals'
  cases program.runtimeClass cls with
  | error e => rfl
  | ok cls =>
    rw [of_except_ok, pure_bind, pure_bind]
    cases cls.callee method args with
    | error e => rfl
    | ok m =>
      rw [of_except_ok, pure_bind, pure_bind]
      exact same m heap locals locals'

theorem Target.call_on_heap (target : Target) (program : Program) (limits : Limits) (levels : Nat)
    (this this' : Option Nat) (method : String) (receiver : Value) (args : List Value) :
    OnHeap (target.call (program.inside limits levels this) method receiver args)
      (target.call (program.inside limits levels this') method receiver args) := by
  have called : ∀ invocation, OnHeap ((program.inside limits levels this).call invocation)
      ((program.inside limits levels this').call invocation) := by
    intro invocation heap locals locals'
    rw [call_run, call_run]
    rfl
  intro heap locals locals'
  cases target with
  | static cls =>
    rw [Target.call, Target.call, call_static_run, call_static_run]
    exact OnHeap.resolved (fun m => called _) heap locals locals'
  | «instance» expr =>
    cases receiver with
    | object k =>
      rw [Target.call, Target.call, call_method_run, call_method_run]
      exact OnHeap.resolved (fun m => called _) heap locals locals'
    | _ => rfl

namespace MethodReference

variable (closure : MethodReference)

def answer (v : Value) : Value := if closure.returnType = .unit then .unit else v

theorem forwarding_replaced (σ : Substitution) (call : Expr) :
    Stmt.replacedAll σ (closure.forwarding call) = closure.forwarding (call.replaced σ) := by
  unfold forwarding
  split <;> rfl

theorem forwarding_run (ctx : Context) (call : Expr) (f : Frame) :
    (Stmt.execAll ctx (closure.forwarding call)).run.run f =
      (((call.eval ctx).run.run f).1.map fun v => .returned (closure.answer v),
        ((call.eval ctx).run.run f).2) := by
  unfold forwarding answer
  split
  · rw [Stmt.execAll, Stmt.exec, discard_eq, bind_assoc, bind_assoc, run_bind]
    rcases (call.eval ctx).run.run f with ⟨result, g⟩
    cases result <;> rfl
  · rw [Stmt.execAll, Stmt.exec, bind_assoc, run_bind]
    rcases (call.eval ctx).run.run f with ⟨result, g⟩
    cases result <;> rfl

theorem forwarding_walk (f : Node → List α) (call : Expr)
    (silent : ∀ value, f (.stmt (.expr value)) = []) (last : ∀ value, f (.stmt (.ret value)) = []) :
    (Stmt.nodesAll (closure.forwarding call)).flatMap f = call.nodes.flatMap f := by
  unfold forwarding
  split
  · simp [Stmt.nodesAll, Stmt.nodes, silent, last]
  · simp [Stmt.nodesAll, Stmt.nodes, last]

theorem forwarding_free (name : TypeName) (params : List Variable) {call : Expr}
    (plain : call.nodes.flatMap Node.declares = []) :
    freeReferences none ((closure.toBody params call).shape name).nodes =
      distinct Reference.key []
        ((call.nodes.filterMap Node.reference?).filter (·.isFree (params.map (·.id)) none)) := by
  have walk : Node.preorderAll ((closure.toBody params call).shape name).nodes =
      .method ⟨closure.method, false, [], params, closure.returnType, closure.forwarding call⟩ ::
        Stmt.nodesAll (closure.forwarding call) := by
    rw [Shape.nodes, Node.preorderAll_append]
    exact (List.append_nil _).trans (method_walk _)
  have declared : (Node.preorderAll ((closure.toBody params call).shape name).nodes).flatMap
      Node.declares = params := by
    rw [walk, List.flatMap_cons, closure.forwarding_walk _ _ (fun _ => rfl) (fun _ => rfl), plain]
    exact List.append_nil params
  have read : (Node.preorderAll ((closure.toBody params call).shape name).nodes).filterMap
      Node.reference? = call.nodes.filterMap Node.reference? := by
    rw [walk, List.filterMap_eq_flatMap_toList, List.flatMap_cons,
      closure.forwarding_walk _ _ (fun _ => rfl) (fun _ => rfl), List.filterMap_eq_flatMap_toList]
    rfl
  rw [freeReferences, declared, read]

theorem parameters_read (params : List Variable) :
    (Expr.nodesAll (params.map .var)).filterMap Node.reference? = params.map .variable := by
  rw [variable_list_walk, List.filterMap_map]
  exact congrFun List.filterMap_eq_map params

theorem parameters_bound (params : List Variable) :
    (params.map Reference.variable).filter (·.isFree (params.map (·.id)) none) = [] := by
  rw [List.filter_eq_nil_iff]
  intro ref member
  obtain ⟨x, param, rfl⟩ := List.mem_map.mp member
  simpa [Reference.isFree] using ⟨x, param, rfl⟩

theorem static_call_free (name cls : TypeName) (params : List Variable) :
    freeReferences none ((closure.toBody params (.staticCall cls closure.targetMethod
      (params.map .var) [] closure.returnType)).shape name).nodes = [] := by
  rw [forwarding_free]
  · rw [Expr.nodes, List.filterMap_cons_none rfl, parameters_read, parameters_bound]
    rfl
  · simp [Expr.nodes, variable_list_walk, Node.declares]

theorem method_call_free (name : TypeName) (params : List Variable) {ref : Reference}
    (outside : ref.key ∉ params.map (·.id)) :
    freeReferences none ((closure.toBody params (.methodCall (.reference ref) closure.targetMethod
      (params.map .var) [] closure.returnType)).shape name).nodes = [ref] := by
  have free : ref.isFree (params.map (·.id)) none = true := by
    rcases ref with x | cls
    · simpa [Reference.isFree, Reference.key] using outside
    · rfl
  rw [forwarding_free]
  · rw [Expr.nodes, Expr.nodes, List.filterMap_cons_none rfl, List.singleton_append,
      List.filterMap_cons_some (f := Node.reference?) (b := ref) rfl, parameters_read,
      List.filter_cons_of_pos free,
      parameters_bound]
    rfl
  · simp [Expr.nodes, variable_list_walk, Node.declares]

theorem mint_arguments_named (scope : Identifier) (k : Nat) (types : List Ty) (t : ScopeTable) :
    ((mintArguments scope k types).run t).1.length = types.length ∧
      ∀ x ∈ ((mintArguments scope k types).run t).1, ∃ name, x.id = scope.var name := by
  induction types generalizing k t with
  | nil => exact ⟨rfl, by rintro x ⟨⟩⟩
  | cons ty rest ih =>
    obtain ⟨each, named⟩ := ih (k + 1) (t.freshVariable scope s!"arg{k}" ty).2
    refine ⟨congrArg (· + 1) each, ?_⟩
    intro x member
    rcases List.mem_cons.mp member with rfl | later
    · exact ⟨_, t.fresh_variable_named scope s!"arg{k}" ty⟩
    · exact named x later

/-- How the method of a lifted reference reaches the target: by a call that reads its parameters and
the field of its only slot, or no field if the target is static. -/
inductive Reaches (params : List Variable) : Expr → List Slot → Prop where
  | onClass {cls : TypeName} (target : closure.target = .static cls) :
      Reaches params
        (.staticCall cls closure.targetMethod (params.map .var) [] closure.returnType) []
  | onInstance {receiver : Expr} {ref : Reference} {slot : Slot}
      (target : closure.target = .instance receiver) (key : slot.capture.key = ref.key)
      (argument : slot.capture.argument = receiver) (outside : ref.key ∉ params.map (·.id)) :
      Reaches params
        (.methodCall (.reference ref) closure.targetMethod (params.map .var) [] closure.returnType)
        [slot]

theorem receiver_outside {scope : Identifier} {t t₁ : ScopeTable} {params : List Variable}
    {ref : Reference} (target : closure.target = .instance (.reference ref))
    (known : ∀ x, closure.target = .instance (.var x) → t.contains x.id = true)
    (minted : Minted t t₁ (params.map (·.id)))
    (named : ∀ x ∈ params, ∃ name, x.id = scope.var name) : ref.key ∉ params.map (·.id) := by
  -- A variable was known before the parameters were minted, and an instance has an identifier that
  -- none of them gets.
  intro inside
  rcases ref with x | cls
  · have free := minted.new x.id inside
    rw [known x target] at free
    cases free
  · obtain ⟨x, param, same⟩ := List.mem_map.mp inside
    obtain ⟨name, own⟩ := named x param
    rw [own] at same
    simp [Identifier.var, Identifier.child, Reference.key, Identifier.thisOf] at same

theorem temporary_outside {t t₁ t₂ : ScopeTable} {params : List Variable}
    (minted : Minted t t₁ (params.map (·.id))) {scope : Identifier} {ty : Ty} {temporary : Variable}
    (fresh : (temporary, t₂) = t₁.freshTemporary scope ty) :
    (Reference.variable temporary).key ∉ params.map (·.id) := by
  intro inside
  have free := (t₁.fresh_temporary_minted scope ty).new temporary.id
    (by rw [← fresh]; exact List.mem_singleton.mpr rfl)
  rw [(minted.taken temporary.id).mpr (Or.inr inside)] at free
  cases free

theorem call_reaches {scope : Identifier} {t t₁ t₂ : ScopeTable} {params : List Variable}
    {call : Expr} {values : List (Variable × Expr)}
    (known : ∀ x, closure.target = .instance (.var x) → t.contains x.id = true)
    (minted : Minted t t₁ (params.map (·.id)))
    (named : ∀ x ∈ params, ∃ name, x.id = scope.var name)
    (forward : (closure.call scope (params.map .var)).run t₁ = ((call, values), t₂))
    (name : TypeName) (options : LiftOptions) :
    closure.Reaches params call
      (((closure.toBody params call).shape name).slots values options) := by
  -- The parameters are minted in a scope of their own, after a plain receiver and before the
  -- temporary for any other, so the call reads what it should.
  have slots : ((closure.toBody params call).shape name).slots values options =
      Slot.assign options [] ((freeReferences none
        ((closure.toBody params call).shape name).nodes).map (Capture.ofReference values)) := rfl
  rw [slots]
  rcases closure.call_cases forward with ⟨cls, target, rfl, rfl, rfl⟩ |
    ⟨ref, target, rfl, rfl, rfl⟩ | ⟨receiver, temporary, target, fresh, rfl, rfl⟩
  · rw [static_call_free]
    exact .onClass target
  · have outside := closure.receiver_outside target known minted named
    rw [method_call_free _ _ _ outside]
    refine .onInstance target (Capture.key_of_reference [] ref) ?_ outside
    rcases ref with x | cls <;> rfl
  · have outside := temporary_outside minted fresh
    rw [Expr.var, method_call_free _ _ _ outside]
    refine .onInstance target (Capture.key_of_reference [(temporary, receiver)]
      (.variable temporary)) ?_ outside
    simp [Capture.ofReference, Capture.argument]

theorem lifted_anatomy {scope : Identifier} {enclosing : TypeName} {options : LiftOptions}
    {t t' : ScopeTable} {made : Lifted}
    (lifts : (closure.lift scope enclosing options).run.run t = (.ok made, t'))
    (known : ∀ x, closure.target = .instance (.var x) → t.contains x.id = true) :
    ∃ name params call slots stored,
      made = ((closure.toBody params call).shape name).outcome slots stored ∧
      closure.Reaches params call slots ∧ (params.map (·.id)).Nodup ∧
      params.length = closure.paramTypes.length := by
  rw [lift_eq] at lifts
  split at lifts
  · cases lifts
  · obtain ⟨_, stored, _, _, rfl⟩ := Shape.lift_builds _ lifts
    have minted := mint_arguments_minted
      ((scope.type (t.freshClassName enclosing).1).method closure.method) 0 closure.paramTypes
      (t.freshClassName enclosing).2
    have named := mint_arguments_named
      ((scope.type (t.freshClassName enclosing).1).method closure.method) 0 closure.paramTypes
      (t.freshClassName enclosing).2
    refine ⟨_, _, _, _, stored, rfl, ?_, minted.distinct, named.1⟩
    apply closure.call_reaches _ minted named.2 rfl
    intro x target
    exact (t.fresh_class_name_minted enclosing).grows (known x target)

theorem parameters_replaced (shape : Shape) {slots : List Slot} {params : List Variable}
    (apart : ∀ x ∈ params, x.id ∉ slots.map (·.capture.key)) :
    Expr.replacedAll (shape.substitution slots) (params.map .var) = params.map .var := by
  rw [expression_list_replaced, List.map_map]
  apply List.map_congr_left
  intro x param
  rcases shape.substitution_cases slots (.variable x) with ⟨_, stays⟩ | ⟨slot, member, same, _⟩
  · exact stays
  · exact absurd (List.mem_map.mpr ⟨slot, member, same⟩) (apart x param)

theorem Reaches.arguments {closure : MethodReference} {params : List Variable} {call : Expr}
    {slots : List Slot} (reaches : closure.Reaches params call slots) :
    slots.map (·.capture.argument) = closure.target.receivers := by
  cases reaches with
  | onClass target =>
    rw [target]
    rfl
  | onInstance target key argument outside =>
    rw [target, List.map_singleton, argument]
    rfl

theorem Reaches.run {closure : MethodReference} {params : List Variable} {call : Expr}
    {slots : List Slot} (reaches : closure.Reaches params call slots) (shape : Shape)
    {ctx : Context} {a : Nat} (this : ctx.this = some a) {heap : Heap}
    (own : heap.className a = shape.name) {v : Value}
    (held : ∀ slot ∈ slots, heap.field? a slot.field = some v)
    (distinct : (params.map (·.id)).Nodup) {args : List Value}
    (arity : params.length = args.length) :
    ((call.replaced (shape.substitution slots)).eval ctx).run.run
        ⟨heap, .ofArguments params args⟩ =
      (closure.target.call ctx closure.targetMethod v args).run.run
        ⟨heap, .ofArguments params args⟩ := by
  have arguments : (Expr.evalAll ctx (params.map .var)).run.run ⟨heap, .ofArguments params args⟩ =
      (.ok args, ⟨heap, .ofArguments params args⟩) := by
    apply expression_list_run
    rw [List.forall₂_map_left_iff]
    apply (Locals.of_arguments_bound distinct args arity).imp
    intro x given bound
    rw [Expr.var, Expr.eval, read_variable_run, bound]
  cases reaches with
  | onClass target =>
    rw [Expr.replaced, parameters_replaced shape (by simp), Expr.eval, run_bind, arguments, target]
    rfl
  | @onInstance receiver ref slot target key argument outside =>
    have apart : ∀ x ∈ params, x.id ∉ [slot].map (·.capture.key) := by
      intro x param same
      rw [List.map_singleton, List.mem_singleton, key] at same
      exact outside (same ▸ List.mem_map_of_mem param)
    have becomes : (shape.substitution [slot]).reference ref = slot.access shape.name := by
      rcases shape.substitution_cases [slot] ref with ⟨missing, _⟩ | ⟨other, member, _, becomes⟩
      · exact absurd (List.mem_singleton.mpr key.symm) missing
      · rw [becomes, List.mem_singleton.mp member]
    have receives := slot_read this own slot (held slot List.mem_cons_self)
      (.ofArguments params args)
    rw [Expr.replaced, Expr.replaced, becomes, parameters_replaced shape apart,
      method_call_eval receives, run_bind, arguments, target]
    rfl

theorem Reaches.forwards {closure : MethodReference} {params : List Variable} {call : Expr}
    {slots : List Slot} (reaches : closure.Reaches params call slots)
    (distinct : (params.map (·.id)).Nodup) {name : TypeName} {stored : List Variable}
    {program : Program} (resolved : program.runtimeClass name =
      .ok (((closure.toBody params call).shape name).outcome slots stored).cls)
    (limits : Limits) (levels : Nat) (this : Option Nat) {f : Frame} {a : Nat}
    (own : f.heap.className a = name) {v : Value}
    (held : ∀ slot ∈ slots, f.heap.field? a slot.field = some v) {args : List Value}
    (arity : args.length = params.length) :
    let called := (closure.target.call (program.inside limits levels this) closure.targetMethod v
      args).run.run f
    ((program.inside limits (levels + 1) this).callMethod (.object a) closure.method
      args).run.run f = (called.1.map closure.answer, called.2) := by
  intro called
  have unmoved : called.2 = ⟨called.2.heap, f.locals⟩ :=
    congrArg Prod.snd (closure.target.call_on_heap program limits levels this this
      closure.targetMethod v args f.heap f.locals f.locals)
  have body : (Stmt.execAll (program.inside limits levels (some a)) (Stmt.replacedAll
      (((closure.toBody params call).shape name).substitution slots)
      (closure.toBody params call).body)).run.run
        ⟨f.heap, .ofArguments (closure.toBody params call).params args⟩ =
      (called.1.map fun v => .returned (closure.answer v),
        ⟨called.2.heap, .ofArguments params args⟩) := by
    change (Stmt.execAll _ (Stmt.replacedAll _ (closure.forwarding call))).run.run
      ⟨f.heap, .ofArguments params args⟩ = _
    rw [forwarding_replaced, forwarding_run, reaches.run _ rfl own held distinct arity.symm,
      closure.target.call_on_heap program limits levels (some a) this closure.targetMethod v args
        f.heap _ f.locals]
  have whole := (closure.toBody params call).call_lifted limits levels this resolved own arity
  rw [body] at whole
  rw [unmoved]
  refine whole.trans ?_
  cases called.1 <;> rfl

end MethodReference

/-- A lifted method reference is built from its receiver alone, and passes on to its target: a call
of its method on an object with the value of the receiver is the call of the target on that value,
one level deeper, but for the value when the method has none. A receiver that is a plain variable
has to be known to the table, or a parameter might get its identifier. -/
theorem MethodReference.lifted_forwards (closure : MethodReference) {scope : Identifier}
    {enclosing : TypeName} {options : LiftOptions} {t t' : ScopeTable} {made : Lifted}
    (lifts : (closure.lift scope enclosing options).run.run t = (.ok made, t'))
    (known : ∀ x, closure.target = .instance (.var x) → t.contains x.id = true) :
    made.construction = .construct made.type closure.target.receivers ∧
    ∀ (program : Program), program.runtimeClass made.cls.name = .ok made.cls →
    ∀ (limits : Limits) (depth : Nat), depth < limits.depth →
    ∀ (this : Option Nat) (frame : Frame) (a : Nat), frame.heap.className a = made.cls.name →
    ∀ (v : Value), (∀ slot ∈ made.slots, frame.heap.field? a slot.field = some v) →
    ∀ (args : List Value), args.length = closure.paramTypes.length →
      let called := (closure.target.call
        (program.inside limits (limits.depth - (depth + 1)) this) closure.targetMethod v
        args).run.run frame
      ((program.inside limits (limits.depth - depth) this).callMethod (.object a) closure.method
        args).run.run frame = (called.1.map closure.answer, called.2) := by
  obtain ⟨name, params, call, slots, stored, rfl, reaches, distinct, each⟩ :=
    closure.lifted_anatomy lifts known
  refine ⟨congrArg (Expr.construct _) reaches.arguments, ?_⟩
  intro program resolved limits depth shallow this frame a own v held args arity
  have left : limits.depth - depth = limits.depth - (depth + 1) + 1 := by omega
  rw [left]
  exact reaches.forwards distinct resolved limits _ this own held (arity.trans each.symm)

/-- A reference to a method of an object that has to be computed first. -/
def MethodReference.plus : MethodReference where
  interface := ⟨"IntUnaryOperator"⟩
  method := "applyAsInt"
  paramTypes := [.integer]
  returnType := .integer
  target := .instance (.staticCall ⟨"Counter"⟩ "make" [] [] (.scalar ⟨"Counter"⟩))
  targetMethod := "plus"
  span := .dummy

def Class.counter : Class :=
  let k : Variable := ⟨((Identifier.top.type ⟨"Counter"⟩).method "plus").var "k", "k", .integer⟩
  { name := ⟨"Counter"⟩
    typeParams := []
    superTypes := []
    fields := [⟨"n", .integer, false⟩]
    constructor := ⟨[], []⟩
    methods := [⟨"plus", false, [], [k], .integer, [.ret (some (.operation .add
      [.fieldAccess (.this ⟨"Counter"⟩) "n" .integer, .var k] .integer))]⟩]
    span := .dummy }

/-- A table in which the names that the parameter and the temporary would get are taken. -/
def ScopeTable.busy : ScopeTable :=
  let inner := (Identifier.top.type ⟨"Main_Anonymous_0"⟩).method "applyAsInt"
  (((ScopeTable.empty "_cassis_tmp_").insert (inner.var "arg0")).insert
    (inner.var "_cassis_tmp_0"))

def Frame.referring (cls : TypeName) : Frame where
  heap := ⟨#[⟨cls, [("_cassis_tmp_0_0", .object 1)]⟩, ⟨⟨"Counter"⟩, [("n", .integer 3)]⟩]⟩
  locals := []

theorem MethodReference.plus_forwards :
    ∃ made t', (plus.lift .top ⟨"Main"⟩ .standard).run.run .busy = (.ok made, t') ∧
      made.construction =
        .construct made.type [.staticCall ⟨"Counter"⟩ "make" [] [] (.scalar ⟨"Counter"⟩)] ∧
      (((Program.mk "plus" ⟨[]⟩ [made.cls, .counter]).inside .standard 64 none).callMethod
        (.object 0) "applyAsInt" [.integer 4]).run.run (.referring made.cls.name) =
          (.ok (.integer 7), .referring made.cls.name) := by
  have shown : ((plus.lift .top ⟨"Main"⟩ .standard).run.run .busy).1.map
      (fun made => (made.cls.name.qualified, made.slots.map (·.field))) =
        .ok ("Main_Anonymous_0", ["_cassis_tmp_0_0"]) := by decide +kernel
  obtain ⟨made, t', lifts, view⟩ := lifted_of_view shown
  obtain ⟨named, fields⟩ := Prod.mk.inj view
  have resolved : (Program.mk "plus" ⟨[]⟩ [made.cls, .counter]).runtimeClass made.cls.name =
      .ok made.cls := by
    have other : (Class.counter.name == made.cls.name) = false := by
      rw [beq_eq_false_iff_ne]
      intro same
      rw [← same] at named
      exact absurd named (by decide)
    simp [Program.runtimeClass, other]
  have held : ∀ slot ∈ made.slots,
      (Frame.referring made.cls.name).heap.field? 0 slot.field = some (.object 1) := by
    intro slot member
    have field : slot.field ∈ ["_cassis_tmp_0_0"] := fields ▸ List.mem_map_of_mem member
    rw [List.mem_singleton.mp field]
    rfl
  obtain ⟨built, forwards⟩ := plus.lifted_forwards lifts (by rintro x ⟨⟩)
  have called := forwards _ resolved .standard 0 (by decide) none (.referring made.cls.name) 0 rfl
    (.object 1) held [.integer 4] rfl
  exact ⟨made, t', lifts, built, called.trans rfl⟩

end ClosureLift
