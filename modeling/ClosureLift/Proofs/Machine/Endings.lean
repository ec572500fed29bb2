import ClosureLift.Proofs.Machine.Calls
import ClosureLift.Proofs.Machine.Congruence
import ClosureLift.Proofs.Program.Walk

/-!
Where the ends of runs come from. Two of them no step of the machine brings about: a closure literal
that is evaluated, and a loop that takes too many turns. A program without such constructs has no
run that ends so.
-/
namespace ClosureLift

open Eval

def Stop.OfConstruct (stop : Stop) : Prop := stop = .fault .unliftedClosure ∨ stop = .outOfTurns

def Node.Raises (stop : Stop) (n : Node) : Prop :=
  (n.isClosure = true ∧ stop = .fault .unliftedClosure) ∨
    ((∃ condition body, n = .stmt (.loop condition body)) ∧ stop = .outOfTurns)

def Spares (stop : Stop) (m : Eval α) : Prop := ∀ f, (m.run.run f).1 ≠ .error stop

def Quiet (stop : Stop) (invoke : Invocation → Heap → Except Stop Value × Heap) : Prop :=
  ∀ invocation heap, (∀ n ∈ Stmt.nodesAll invocation.body, ¬ n.Raises stop) →
    (invoke invocation heap).1 ≠ .error stop

theorem integer_operator_error {op : Operator} {m n : Int64} {found : List String} {e : EvalError}
    (failed : (op.onIntegers m n).getD (.error (.typeMismatch op found)) = .error e) :
    e = .divisionByZero ∨ ∃ found, e = .typeMismatch op found := by
  cases op with
  | divide | modulus =>
    simp only [Operator.onIntegers, Option.getD_some] at failed
    split at failed
    · cases failed
      exact Or.inl rfl
    · cases failed
  | equals | notEquals | booleanAnd | booleanOr | booleanNot =>
    cases failed
    exact Or.inr ⟨_, rfl⟩
  | _ => cases failed

theorem operator_error {op : Operator} {heap : Heap} {operands : List Value} {e : EvalError}
    (failed : op.apply heap operands = .error e) :
    e = .divisionByZero ∨ ∃ found, e = .typeMismatch op found := by
  unfold Operator.apply at failed
  split at failed
  case h_6 => exact integer_operator_error failed
  case h_7 =>
    cases failed
    exact Or.inr ⟨_, rfl⟩
  all_goals cases failed

namespace Spares

variable {stop : Stop}

theorem pure (a : α) : Spares stop (Pure.pure a) := fun _ ended => by cases ended

theorem bind {m : Eval α} {next : α → Eval β} (head : Spares stop m)
    (tail : ∀ a, Spares stop (next a)) : Spares stop (m >>= next) := by
  intro f
  have start := head f
  rw [run_bind]
  generalize m.run.run f = outcome at start ⊢
  obtain ⟨result, g⟩ := outcome
  cases result with
  | ok a => exact tail a g
  | error other =>
    intro ended
    cases ended
    exact start rfl

theorem throw {other : Stop} (different : other ≠ stop) : Spares stop (throw other : Eval α) := by
  intro f ended
  cases ended
  exact different rfl

variable (construct : stop.OfConstruct)
include construct

theorem fault {e : EvalError} (machine : e ≠ .unliftedClosure) :
    Spares stop (Eval.fault e : Eval α) := by
  apply throw
  intro same
  rcases construct with rfl | rfl
  · exact machine (Stop.fault.inj same)
  · cases same

theorem ofExcept {result : Except EvalError α} (machine : result ≠ .error .unliftedClosure) :
    Spares stop (Eval.ofExcept result) := by
  cases result with
  | ok a => exact pure a
  | error e => exact fault construct fun same => machine (by rw [same])

end Spares

section

variable {stop : Stop} (construct : stop.OfConstruct)
include construct

theorem read_variable_spares (x : Variable) : Spares stop (readVariable x) := by
  intro f
  rw [read_variable_run]
  cases f.locals.get? x.id with
  | some v => exact Spares.pure v f
  | none => exact Spares.fault construct (by simp) f

theorem self_spares (ctx : Context) (cls : TypeName) : Spares stop (ctx.self cls) := by
  intro f
  rw [self_run]
  cases ctx.this with
  | none => exact Spares.fault construct (by simp) f
  | some address =>
    dsimp only
    split
    · exact Spares.pure _ f
    · exact Spares.fault construct (by simp) f

theorem read_field_spares (v : Value) (name : String) : Spares stop (readField v name) := by
  intro f
  cases v with
  | object k =>
    rw [read_field_run]
    cases f.heap.field? k name with
    | some w => exact Spares.pure w f
    | none => exact Spares.fault construct (by simp) f
  | _ => exact Spares.fault construct (by simp) f

theorem write_field_spares (v : Value) (name : String) (w : Value) :
    Spares stop (writeField v name w) := by
  intro f
  cases v with
  | object k =>
    rw [write_field_run]
    cases f.heap.field? k name with
    | some old => exact Spares.pure () f
    | none => exact Spares.fault construct (by simp) f
  | _ => exact Spares.fault construct (by simp) f

theorem truth_spares (v : Value) : Spares stop (truth v) := by
  intro f
  cases v with
  | boolean b => exact Spares.pure b f
  | _ => exact Spares.fault construct (by simp) f

theorem operate_spares (op : Operator) (operands : List Value) :
    Spares stop (operate op operands) := by
  intro f
  have applied : Spares stop (ofExcept (op.apply f.heap operands)) := by
    apply Spares.ofExcept construct
    intro failed
    rcases operator_error failed with same | ⟨found, same⟩ <;> cases same
  exact applied f

variable {ctx : Context} (quiet : Quiet stop ctx.invoke)
  (program : ∀ n ∈ Node.preorderAll (ctx.program.classes.map .cls), ¬ n.Raises stop)

omit construct in
include quiet in
theorem call_spares {invocation : Invocation}
    (body : ∀ n ∈ Stmt.nodesAll invocation.body, ¬ n.Raises stop) :
    Spares stop (ctx.call invocation) := by
  intro f
  rw [call_run]
  exact quiet invocation f.heap body

theorem class_spares (name : TypeName) {next : Class → Eval α}
    (later : ∀ cls ∈ ctx.program.classes, Spares stop (next cls)) :
    Spares stop (ofExcept (ctx.program.runtimeClass name) >>= next) := by
  unfold Program.runtimeClass
  split
  · rename_i cls found
    exact later cls (List.mem_reverse.mp (List.mem_of_find?_eq_some found))
  · exact fun f => Spares.fault (α := α) construct (by simp) f

theorem callee_spares {cls : Class} (method : String) (args : List Value) {next : Method → Eval α}
    (later : ∀ m ∈ cls.methods, Spares stop (next m)) :
    Spares stop (ofExcept (cls.callee method args) >>= next) := by
  unfold Class.callee
  split
  · rename_i m found
    exact later m (List.mem_of_find?_eq_some found)
  · exact fun f => Spares.fault (α := α) construct (by simp) f

omit construct in
include quiet program in
theorem method_spares {cls : Class} {m : Method} (declared : cls ∈ ctx.program.classes)
    (member : m ∈ cls.methods) (this : Option Nat) (args : List Value) :
    Spares stop (ctx.call ⟨m.params, m.body, this, args⟩) := by
  apply call_spares quiet
  intro n inside
  apply program
  rw [statement_list_walk] at inside
  have own : n ∈ (Node.method m).preorder := by
    rw [Node.preorder_eq]
    exact List.mem_cons_of_mem _ inside
  refine Node.mem_preorderAll.mpr ⟨.cls cls, List.mem_map_of_mem declared, ?_⟩
  refine Node.mem_preorder_of_child (c := .method m) ?_ own
  simp [Node.children, member]

omit construct in
include quiet program in
theorem constructor_spares {cls : Class} (declared : cls ∈ ctx.program.classes)
    (this : Option Nat) (args : List Value) :
    Spares stop (ctx.call ⟨cls.constructor.params, cls.constructor.body, this, args⟩) := by
  apply call_spares quiet
  intro n inside
  apply program
  rw [statement_list_walk] at inside
  have own : n ∈ (Node.constructor cls.constructor).preorder := by
    rw [Node.preorder_eq]
    exact List.mem_cons_of_mem _ inside
  refine Node.mem_preorderAll.mpr ⟨.cls cls, List.mem_map_of_mem declared, ?_⟩
  refine Node.mem_preorder_of_child (c := .constructor cls.constructor) ?_ own
  simp [Node.children]

include quiet program

theorem call_static_spares (cls : TypeName) (method : String) (args : List Value) :
    Spares stop (ctx.callStatic cls method args) := by
  refine class_spares construct cls ?_
  intro owner declared
  refine callee_spares construct method args ?_
  intro m member
  exact method_spares quiet program declared member none args

theorem call_method_spares (receiver : Value) (method : String) (args : List Value) :
    Spares stop (ctx.callMethod receiver method args) := by
  intro f
  cases receiver with
  | object k =>
    rw [call_method_run]
    refine class_spares construct (f.heap.className k) ?_ f
    intro owner declared
    refine callee_spares construct method args ?_
    intro m member
    exact method_spares quiet program declared member (some k) args
  | _ => exact Spares.fault construct (by simp) f

theorem construct_spares (ty : Ty) (args : List Value) : Spares stop (ctx.construct ty args) := by
  unfold Context.construct
  cases ty.erasure? with
  | none => exact Spares.fault construct (by simp)
  | some name =>
    refine class_spares construct name ?_
    intro cls declared
    split
    · exact Spares.fault construct (by simp)
    · refine Spares.bind (m := allocate cls) (fun f ended => by cases ended) ?_
      intro address
      have built := constructor_spares quiet program declared (some address) args
      rw [discard_eq]
      exact (built.bind fun _ => .pure _).bind fun _ => .pure _

theorem spares_congruence : Congruence (fun _ m _ => Spares stop m) ctx ctx where
  pure := Spares.pure
  bind := Spares.bind
  target := Spares.fault construct (by simp)
  self := self_spares construct ctx
  readVariable := read_variable_spares construct
  writeVariable := fun x v f ended => by cases ended
  readField := read_field_spares construct
  writeField := write_field_spares construct
  truth := truth_spares construct
  operate := operate_spares construct
  callStatic := call_static_spares construct quiet program
  callMethod := call_method_spares construct quiet program
  construct := construct_spares construct quiet program

end

def Unraised (stop : Stop) (n n' : Node) : Prop :=
  n' = n ∧ ∀ m ∈ n.preorder, ¬ m.Raises stop

theorem unraised_corresponds {stop : Stop} {ctx : Context}
    (congruence : Congruence (fun _ m _ => Spares stop m) ctx ctx) :
    Correspondence (fun _ m _ => Spares stop m) ctx ctx (Unraised stop) where
  parts := by
    intro n n' linked plain
    obtain ⟨rfl, silent⟩ := linked
    refine ⟨rfl, List.forall₂_same.mpr ?_⟩
    intro c child
    exact ⟨rfl, fun m inside => silent m (Node.mem_preorder_of_child child inside)⟩
  closures := by
    intro e n' linked literal
    obtain ⟨rfl, silent⟩ := linked
    refine ⟨e, rfl, ?_, closure_not_target ctx literal⟩
    apply Spares.throw
    intro same
    exact silent _ (Node.self_mem_preorder _) (Or.inl ⟨literal, same.symm⟩)
  loops := by
    intro condition body n' linked test test' turn turn' tests turns
    have last : Spares stop (throw .outOfTurns : Eval Flow) := by
      apply Spares.throw
      intro same
      exact linked.2 _ (Node.self_mem_preorder _) (Or.inr ⟨⟨condition, body, rfl⟩, same.symm⟩)
    exact @Congruence.iterate _ ctx ctx congruence test test' turn turn' last tests turns _

namespace Program

variable {program : Program} {stop : Stop} (construct : stop.OfConstruct)
  (silent : ∀ n ∈ Node.preorderAll (program.classes.map .cls), ¬ n.Raises stop)
include construct silent

theorem invoke_quiet (limits : Limits) (n : Nat) : Quiet stop (program.invoke limits n) := by
  induction n with
  | zero =>
    intro invocation heap body ended
    rcases construct with rfl | rfl <;> cases ended
  | succ n ih =>
    intro invocation heap body
    let ctx := program.inside limits n invocation.this
    have congruence : Congruence (fun _ m _ => Spares stop m) ctx ctx :=
      spares_congruence construct ih silent
    have linked : List.Forall₂ (Unraised stop) (invocation.body.map .stmt)
        (invocation.body.map .stmt) := by
      rw [List.forall₂_same]
      intro m member
      refine ⟨rfl, fun x inside => body x ?_⟩
      rw [statement_list_walk]
      exact Node.mem_preorderAll.mpr ⟨m, member, inside⟩
    have spared := congruence.bodies (unraised_corresponds congruence) linked
      ⟨heap, .ofArguments invocation.params invocation.args⟩
    rw [invoke_succ]
    intro ended
    generalize (Stmt.execAll _ _).run.run _ = outcome at spared ended
    obtain ⟨result, g⟩ := outcome
    cases result with
    | ok flow => cases ended
    | error other =>
      cases ended
      exact spared rfl

/-- A run ends at a closure or in a loop only if the program has one. -/
theorem call_static_never_ends (limits : Limits) (cls : TypeName) (method : String)
    (args : List Value) (heap : Heap) :
    (program.callStatic limits cls method args heap).1 ≠ .error stop := by
  have quiet : Quiet stop (program.outside limits).invoke :=
    program.invoke_quiet construct silent limits limits.depth
  exact call_static_spares construct quiet silent cls method args ⟨heap, []⟩

end Program

end ClosureLift
