import ClosureLift.Proofs.Lift.Substitution
import ClosureLift.Proofs.Machine.Displacement

/-!
Evaluation beside an object that it does not know of. Two evaluations that start from displaced
heaps go the same way: where the first gives a value the second gives the displaced value, and where
the first fails the second fails for the same reason. What the locals of the two frames have in
common is left open, so that a variable of the first frame may be a field of the added object in the
second.
-/
namespace ClosureLift

open Eval

def Flow.shift (a : Nat) : Flow → Flow
  | .normal => .normal
  | .returned v => .returned (v.shift a)

def Invocation.shift (a : Nat) (invocation : Invocation) : Invocation :=
  { invocation with
    this := invocation.this.map (past a)
    args := invocation.args.map (Value.shift a) }

/-- From frames that are related, the second evaluation gives what the first gives, carried over by
`φ`, and leaves related frames. -/
def Simulates (related : Frame → Frame → Prop) (φ : α → β) (m : Eval α) (n : Eval β) : Prop :=
  ∀ f g, related f g → (n.run.run g).1 = (m.run.run f).1.map φ ∧
    related (m.run.run f).2 (n.run.run g).2

theorem run_bind (m : Eval α) (next : α → Eval β) (f : Frame) :
    (m >>= next).run.run f =
      match m.run.run f with
      | (.ok a, f') => (next a).run.run f'
      | (.error stop, f') => (.error stop, f') := by
  simp only [ExceptT.run_bind, StateT.run_bind]
  rcases m.run.run f with ⟨result, f'⟩
  cases result <;> rfl

theorem ok_of_bind {m : Eval α} {next : α → Eval β} {f g : Frame} {b : β}
    (run : (m >>= next).run.run f = (.ok b, g)) :
    ∃ a f', m.run.run f = (.ok a, f') ∧ (next a).run.run f' = (.ok b, g) := by
  rw [run_bind] at run
  generalize m.run.run f = outcome at run ⊢
  obtain ⟨result, f'⟩ := outcome
  cases result with
  | ok a => exact ⟨a, f', rfl, run⟩
  | error stop => cases run

theorem discard_eq {α : Type} (m : Eval α) :
    Functor.discard m = m >>= fun _ => pure PUnit.unit :=
  map_eq_pure_bind _ m

theorem of_except_ok (a : α) : Eval.ofExcept (.ok a) = (pure a : Eval α) := rfl

namespace Simulates

variable {related : Frame → Frame → Prop} {φ : α → β} {ψ : γ → δ}

theorem pure (a : α) : Simulates related φ (Pure.pure a) (Pure.pure (φ a)) :=
  fun _ _ holds => ⟨rfl, holds⟩

theorem fault (e : EvalError) : Simulates related φ (Eval.fault e) (Eval.fault e) :=
  fun _ _ holds => ⟨rfl, holds⟩

theorem ofExcept (result : Except EvalError α) :
    Simulates related φ (Eval.ofExcept result) (Eval.ofExcept (result.map φ)) := by
  cases result with
  | ok a => exact pure a
  | error e => exact fault e

theorem same (result : Except EvalError α) :
    Simulates related id (Eval.ofExcept result) (Eval.ofExcept result) := by
  cases result with
  | ok a => exact pure a
  | error e => exact fault e

theorem bind {m : Eval α} {n : Eval β} {next : α → Eval γ} {next' : β → Eval δ}
    (first : Simulates related φ m n) (later : ∀ a, Simulates related ψ (next a) (next' (φ a))) :
    Simulates related ψ (m >>= next) (n >>= next') := by
  intro f g holds
  have start := first f g holds
  rw [run_bind, run_bind]
  generalize m.run.run f = outcome at start ⊢
  generalize n.run.run g = outcome' at start ⊢
  obtain ⟨result, f'⟩ := outcome
  obtain ⟨result', g'⟩ := outcome'
  obtain ⟨same, kept⟩ := start
  cases result with
  | ok a =>
    cases same
    exact later a f' g' kept
  | error stop =>
    cases same
    exact ⟨rfl, kept⟩

theorem discard {m : Eval α} {n : Eval β} (first : Simulates related φ m n) :
    Simulates related id (Functor.discard m) (Functor.discard n) := by
  rw [discard_eq, discard_eq]
  exact first.bind fun _ => pure _

theorem iterate {a : Nat} {condition condition' : Eval Bool} {body body' : Eval Flow}
    (test : Simulates related id condition condition')
    (turn : Simulates related (Flow.shift a) body body') (turns : Nat) :
    Simulates related (Flow.shift a) (Eval.iterate turns condition body)
      (Eval.iterate turns condition' body') := by
  induction turns with
  | zero => exact fun _ _ holds => ⟨rfl, holds⟩
  | succ turns ih =>
    refine test.bind ?_
    intro again
    cases again with
    | false => exact pure Flow.normal
    | true =>
      refine turn.bind ?_
      intro flow
      cases flow with
      | normal => exact ih
      | returned v => exact pure (Flow.returned v)

end Simulates

abbrev Coupling := Object → Heap → Locals → Locals → Prop

namespace Coupling

def Frames (coupling : Coupling) (a : Nat) (f g : Frame) : Prop :=
  ∃ extra, Displaced a extra f.heap g.heap ∧ coupling extra f.heap f.locals g.locals

def Lasting (coupling : Coupling) : Prop :=
  ∀ extra before after locals locals', coupling extra before locals locals' →
    before.Keeps after → coupling extra after locals locals'

end Coupling

/-- The second way of running bodies answers a displaced call by the displaced answer, and does not
touch the added object. -/
def Answers (a : Nat) (first second : Invocation → Heap → Except Stop Value × Heap) : Prop :=
  ∀ invocation extra before after, Displaced a extra before after →
    (second (invocation.shift a) after).1 = (first invocation before).1.map (Value.shift a) ∧
    Displaced a extra (first invocation before).2 (second (invocation.shift a) after).2 ∧
    before.Keeps (first invocation before).2

/-- Two contexts that run the same program, up to the added object and the current instance. -/
structure Mirrors (a : Nat) (first second : Context) : Prop where
  program : second.program = first.program
  limits : second.limits = first.limits
  calls : Answers a first.invoke second.invoke

def Heap.content (heap : Heap) (k : Nat) : Object :=
  (heap.object? k).getD ⟨heap.className k, []⟩

theorem content_cls (heap : Heap) (k : Nat) : (heap.content k).cls = heap.className k := by
  unfold Heap.content Heap.className
  cases heap.object? k <;> rfl

theorem content_field (heap : Heap) (k : Nat) (name : String) :
    (heap.content k).fields.lookup name = heap.field? k name := by
  unfold Heap.content Heap.field?
  cases heap.object? k <;> rfl

theorem read_field_run (k : Nat) (name : String) (f : Frame) :
    (readField (.object k) name).run.run f =
      match f.heap.field? k name with
      | some v => (.ok v, f)
      | none => (.error (.fault (.unknownField (f.heap.className k) name)), f) := by
  have run : (readField (.object k) name).run.run f =
      (match (f.heap.content k).fields.lookup name with
        | some v => (pure v : Eval Value)
        | none => fault (.unknownField (f.heap.content k).cls name)).run.run f := rfl
  rw [run, content_field, content_cls]
  cases f.heap.field? k name <;> rfl

theorem write_field_run (k : Nat) (name : String) (v : Value) (f : Frame) :
    (writeField (.object k) name v).run.run f =
      match f.heap.field? k name with
      | some _ => (.ok (), { f with heap := f.heap.store k name v })
      | none => (.error (.fault (.unknownField (f.heap.className k) name)), f) := by
  have run : (writeField (.object k) name v).run.run f =
      (match (f.heap.content k).fields.lookup name with
        | some _ =>
          (modify fun frame : Frame => { frame with
            heap := frame.heap.set k
              { f.heap.content k with fields := setField (f.heap.content k).fields name v } } :
            Eval Unit)
        | none => fault (.unknownField (f.heap.content k).cls name)).run.run f := rfl
  rw [run, content_field, content_cls]
  cases found : f.heap.field? k name with
  | none => rfl
  | some old =>
    obtain ⟨object, there, _⟩ := Option.bind_eq_some_iff.mp found
    simp only [Heap.content, Heap.store, there, Option.getD_some]
    rfl

theorem call_run (ctx : Context) (invocation : Invocation) (f : Frame) :
    (ctx.call invocation).run.run f =
      ((ctx.invoke invocation f.heap).1,
        { f with heap := (ctx.invoke invocation f.heap).2 }) := by
  have run : (ctx.call invocation).run.run f =
      (MonadExcept.ofExcept (ctx.invoke invocation f.heap).1 : Eval Value).run.run
        { f with heap := (ctx.invoke invocation f.heap).2 } := rfl
  rw [run]
  cases (ctx.invoke invocation f.heap).1 <;> rfl

theorem call_method_run (ctx : Context) (k : Nat) (method : String) (args : List Value)
    (f : Frame) :
    (ctx.callMethod (.object k) method args).run.run f =
      (do
        let cls ← ofExcept (ctx.program.runtimeClass (f.heap.className k))
        let m ← ofExcept (cls.callee method args)
        ctx.call ⟨m.params, m.body, some k, args⟩ : Eval Value).run.run f := rfl

def allocate (cls : Class) : Eval Nat :=
  modifyGet fun frame =>
    (frame.heap.size, { frame with heap := (frame.heap.alloc (.new cls)).2 })

theorem callee_shift (cls : Class) (a : Nat) (method : String) (args : List Value) :
    cls.callee method (args.map (Value.shift a)) = cls.callee method args := by
  simp only [Class.callee, List.length_map]

section

variable {a : Nat} {coupling : Coupling} (lasting : coupling.Lasting) {first second : Context}
  (mirrors : Mirrors a first second)

theorem read_field_simulates (v : Value) (name : String) :
    Simulates (coupling.Frames a) (Value.shift a) (readField v name)
      (readField (v.shift a) name) := by
  intro f g holds
  obtain ⟨extra, displaced, coupled⟩ := holds
  cases v with
  | object k =>
    simp only [Value.shift, read_field_run, displaced.field_past, displaced.className_past]
    cases f.heap.field? k name <;> exact ⟨rfl, extra, displaced, coupled⟩
  | _ => exact ⟨rfl, extra, displaced, coupled⟩

theorem truth_simulates (v : Value) :
    Simulates (coupling.Frames a) id (truth v) (truth (v.shift a)) := by
  intro f g holds
  obtain ⟨extra, displaced, coupled⟩ := holds
  cases v with
  | boolean value => exact ⟨rfl, extra, displaced, coupled⟩
  | object k =>
    refine ⟨?_, extra, displaced, coupled⟩
    have same := displaced.typeName_shift (.object k)
    exact congrArg (fun found => Except.error (Stop.fault (.conditionNotBoolean found))) same
  | _ => exact ⟨rfl, extra, displaced, coupled⟩

theorem operate_simulates (op : Operator) (operands : List Value) :
    Simulates (coupling.Frames a) (Value.shift a) (operate op operands)
      (operate op (operands.map (Value.shift a))) := by
  intro f g holds
  obtain ⟨extra, displaced, coupled⟩ := holds
  have run (h : Frame) (values : List Value) : (operate op values).run.run h =
      (ofExcept (op.apply h.heap values)).run.run h := rfl
  rw [run, run, operator_shift displaced]
  exact Simulates.ofExcept _ f g ⟨extra, displaced, coupled⟩

include lasting

theorem write_field_simulates (v : Value) (name : String) (w : Value) :
    Simulates (coupling.Frames a) id (writeField v name w)
      (writeField (v.shift a) name (w.shift a)) := by
  intro f g holds
  obtain ⟨extra, displaced, coupled⟩ := holds
  cases v with
  | object k =>
    simp only [Value.shift, write_field_run, displaced.field_past, displaced.className_past]
    cases f.heap.field? k name with
    | none => exact ⟨rfl, extra, displaced, coupled⟩
    | some old =>
      refine ⟨rfl, extra, displaced.store k name w, ?_⟩
      exact lasting _ _ _ _ _ coupled (f.heap.keeps_store k name w)
  | _ => exact ⟨rfl, extra, displaced, coupled⟩

theorem allocate_simulates (cls : Class) :
    Simulates (coupling.Frames a) (past a) (allocate cls) (allocate cls) := by
  intro f g holds
  obtain ⟨extra, displaced, coupled⟩ := holds
  have moved := displaced.alloc (.new cls)
  rw [Object.new_shift] at moved
  refine ⟨?_, extra, moved, lasting _ _ _ _ _ coupled (f.heap.keeps_alloc _)⟩
  exact congrArg Except.ok (displaced.alloc_address (.new cls) (.new cls))

include mirrors

theorem call_simulates (invocation : Invocation) :
    Simulates (coupling.Frames a) (Value.shift a) (first.call invocation)
      (second.call (invocation.shift a)) := by
  intro f g holds
  obtain ⟨extra, displaced, coupled⟩ := holds
  obtain ⟨same, moved, kept⟩ := mirrors.calls invocation extra f.heap g.heap displaced
  rw [call_run, call_run]
  exact ⟨same, extra, moved, lasting _ _ _ _ _ coupled kept⟩

theorem call_static_simulates (cls : TypeName) (method : String) (args : List Value) :
    Simulates (coupling.Frames a) (Value.shift a) (first.callStatic cls method args)
      (second.callStatic cls method (args.map (Value.shift a))) := by
  unfold Context.callStatic
  rw [mirrors.program]
  refine (Simulates.same _).bind ?_
  intro owner
  rw [callee_shift]
  refine (Simulates.same _).bind ?_
  intro m
  exact call_simulates lasting mirrors ⟨m.params, m.body, none, args⟩

theorem call_method_simulates (receiver : Value) (method : String) (args : List Value) :
    Simulates (coupling.Frames a) (Value.shift a) (first.callMethod receiver method args)
      (second.callMethod (receiver.shift a) method (args.map (Value.shift a))) := by
  intro f g holds
  have displaced := holds.choose_spec.1
  cases receiver with
  | object k =>
    rw [Value.shift, call_method_run, call_method_run, displaced.className_past, mirrors.program]
    refine (Simulates.same _).bind ?_ f g holds
    intro owner
    rw [callee_shift]
    refine (Simulates.same _).bind ?_
    intro m
    exact call_simulates lasting mirrors ⟨m.params, m.body, some k, args⟩
  | _ => exact ⟨rfl, holds⟩

theorem construct_simulates (ty : Ty) (args : List Value) :
    Simulates (coupling.Frames a) (Value.shift a) (first.construct ty args)
      (second.construct ty (args.map (Value.shift a))) := by
  unfold Context.construct
  rw [mirrors.program]
  cases ty.erasure? with
  | none => exact .fault _
  | some name =>
    refine (Simulates.same _).bind ?_
    intro cls
    rw [List.length_map, id]
    by_cases arity : cls.constructor.params.length ≠ args.length
    · rw [if_pos arity, if_pos arity]
      exact .fault _
    · rw [if_neg arity, if_neg arity]
      refine (allocate_simulates lasting cls).bind ?_
      intro address
      refine (call_simulates lasting mirrors
        ⟨cls.constructor.params, cls.constructor.body, some address, args⟩).discard.bind ?_
      intro _
      exact .pure (Value.object address)

end

def assignTo (ctx : Context) (target : Expr) (v : Value) : Eval Value :=
  match target with
  | .reference (.variable x) => do
    writeVariable x v
    return v
  | .fieldAccess receiver field _ => do
    let receiver ← receiver.eval ctx
    writeField receiver field v
    return v
  | _ => fault .invalidAssignmentTarget

theorem assign_eval (ctx : Context) (target value : Expr) :
    (Expr.assign target value).eval ctx = value.eval ctx >>= assignTo ctx target := by
  have dropped : ∀ e : EvalError, (do Functor.discard (value.eval ctx); fault e : Eval Value) =
      value.eval ctx >>= fun _ => fault e := by
    intro e
    rw [discard_eq, bind_assoc]
    simp only [pure_bind]
  cases target with
  | reference ref =>
    rcases ref with x | cls
    · rw [Expr.eval]
      rfl
    · rw [Expr.eval]
      · exact dropped _
      · rintro x ⟨⟩
      · rintro receiver field ty ⟨⟩
  | fieldAccess receiver field ty =>
    rw [Expr.eval]
    rfl
  | _ =>
    rw [Expr.eval]
    · exact dropped _
    · rintro x ⟨⟩
    · rintro receiver field ty ⟨⟩

theorem operation_cases (op : Operator) (args : List Expr) :
    (∃ left right, args = [left, right] ∧ (op = .booleanAnd ∨ op = .booleanOr)) ∨
      (args.length = 2 → op ≠ .booleanAnd ∧ op ≠ .booleanOr) := by
  by_cases lazy : args.length = 2 ∧ (op = .booleanAnd ∨ op = .booleanOr)
  · obtain ⟨left, right, two⟩ := List.length_eq_two.mp lazy.1
    exact Or.inl ⟨left, right, two, lazy.2⟩
  · right
    intro two
    exact ⟨fun same => lazy ⟨two, Or.inl same⟩, fun same => lazy ⟨two, Or.inr same⟩⟩

theorem operation_eval (ctx : Context) (op : Operator) (args : List Expr) (ty : Ty)
    (strict : args.length = 2 → op ≠ .booleanAnd ∧ op ≠ .booleanOr) :
    (Expr.operation op args ty).eval ctx = Expr.evalAll ctx args >>= operate op := by
  rw [Expr.eval]
  · rintro left right rfl rfl
    exact (strict rfl).1 rfl
  · rintro left right rfl rfl
    exact (strict rfl).2 rfl

/-- What the two evaluations do where they meet a variable or an instance. All else they do alike.
-/
structure Linked (coupling : Coupling) (a : Nat) (σ : Substitution) (first second : Context)
    (n : Node) : Prop where
  reads : ∀ ref, n = .expr (.reference ref) →
    Simulates (coupling.Frames a) (Value.shift a) ((Expr.reference ref).eval first)
      ((σ.reference ref).eval second)
  writes : ∀ ref value, n = .expr (.assign (.reference ref) value) → ∀ v,
    Simulates (coupling.Frames a) (Value.shift a) (assignTo first (.reference ref) v)
      (assignTo second (σ.reference ref) (v.shift a))
  declares : ∀ x init, n = .stmt (.decl x init) → ∀ v,
    Simulates (coupling.Frames a) id (writeVariable x v) (writeVariable x (v.shift a))

section

variable {a : Nat} {coupling : Coupling} {σ : Substitution} {first second : Context}

theorem expression_list_simulates {es : List Expr}
    (each : ∀ e ∈ es, Simulates (coupling.Frames a) (Value.shift a) (e.eval first)
      ((e.replaced σ).eval second)) :
    Simulates (coupling.Frames a) (List.map (Value.shift a)) (Expr.evalAll first es)
      (Expr.evalAll second (Expr.replacedAll σ es)) := by
  induction es with
  | nil => exact .pure []
  | cons e rest ih =>
    rw [Expr.replacedAll, Expr.evalAll, Expr.evalAll]
    refine (each e List.mem_cons_self).bind ?_
    intro v
    refine (ih fun e member => each e (List.mem_cons_of_mem _ member)).bind ?_
    intro vs
    exact .pure (v :: vs)

theorem statement_list_simulates {ss : List Stmt}
    (each : ∀ s ∈ ss, Simulates (coupling.Frames a) (Flow.shift a) (s.exec first)
      ((s.replaced σ).exec second)) :
    Simulates (coupling.Frames a) (Flow.shift a) (Stmt.execAll first ss)
      (Stmt.execAll second (Stmt.replacedAll σ ss)) := by
  induction ss with
  | nil => exact .pure Flow.normal
  | cons s rest ih =>
    rw [Stmt.replacedAll, Stmt.execAll, Stmt.execAll]
    refine (each s List.mem_cons_self).bind ?_
    intro flow
    cases flow with
    | normal => exact ih fun s member => each s (List.mem_cons_of_mem _ member)
    | returned v => exact .pure (Flow.returned v)

theorem condition_simulates {m n : Eval Value}
    (value : Simulates (coupling.Frames a) (Value.shift a) m n) :
    Simulates (coupling.Frames a) id (m >>= truth) (n >>= truth) :=
  value.bind truth_simulates

theorem operation_simulates (op : Operator) (args : List Expr) (ty : Ty)
    (each : ∀ e ∈ args, Simulates (coupling.Frames a) (Value.shift a) (e.eval first)
      ((e.replaced σ).eval second)) :
    Simulates (coupling.Frames a) (Value.shift a) ((Expr.operation op args ty).eval first)
      ((Expr.operation op (Expr.replacedAll σ args) ty).eval second) := by
  rcases operation_cases op args with ⟨left, right, rfl, which⟩ | strict
  · have leftTest := condition_simulates (each left (by simp))
    have rightTest := condition_simulates (each right (by simp))
    rcases which with rfl | rfl
    · rw [Expr.replacedAll, Expr.replacedAll, Expr.replacedAll, Expr.eval, Expr.eval]
      refine leftTest.bind ?_
      intro holds
      cases holds with
      | false => exact .pure (Value.boolean false)
      | true =>
        refine rightTest.bind ?_
        intro also
        exact .pure (Value.boolean also)
    · rw [Expr.replacedAll, Expr.replacedAll, Expr.replacedAll, Expr.eval, Expr.eval]
      refine leftTest.bind ?_
      intro holds
      cases holds with
      | true => exact .pure (Value.boolean true)
      | false =>
        refine rightTest.bind ?_
        intro also
        exact .pure (Value.boolean also)
  · rw [operation_eval first op args ty strict, operation_eval second op _ ty]
    · exact (expression_list_simulates each).bind (operate_simulates op)
    · rw [expression_list_replaced, List.length_map]
      exact strict

def Node.Simulated (coupling : Coupling) (a : Nat) (σ : Substitution) (first second : Context) :
    Node → Prop
  | .expr e => Simulates (coupling.Frames a) (Value.shift a) (e.eval first)
      ((e.replaced σ).eval second)
  | .stmt s => Simulates (coupling.Frames a) (Flow.shift a) (s.exec first)
      ((s.replaced σ).exec second)
  | _ => True

variable (lasting : coupling.Lasting)
include lasting

theorem assignment_simulates {target value : Expr}
    (linked : Linked coupling a σ first second (.expr (.assign target value)))
    (computed : Simulates (coupling.Frames a) (Value.shift a) (value.eval first)
      ((value.replaced σ).eval second))
    (under : ∀ c ∈ Node.ofExpr target, c.Simulated coupling a σ first second) :
    Simulates (coupling.Frames a) (Value.shift a) ((Expr.assign target value).eval first)
      ((Expr.assign (target.replaced σ) (value.replaced σ)).eval second) := by
  rw [assign_eval, assign_eval]
  refine computed.bind ?_
  intro v
  cases target with
  | reference ref => exact linked.writes ref value rfl v
  | fieldAccess receiver field ty =>
    rw [Expr.replaced]
    refine (under (.expr receiver) (by simp [Node.ofExpr])).bind ?_
    intro object
    refine (write_field_simulates lasting object field v).bind ?_
    intro _
    exact .pure v
  | _ => exact .fault _

variable (mirrors : Mirrors a first second)
include mirrors

theorem expression_simulates (e : Expr) (linked : Linked coupling a σ first second (.expr e))
    (under : ∀ c ∈ Node.ofExpr e, c.Simulated coupling a σ first second)
    (deeper : ∀ c ∈ Node.ofExpr e, ∀ d ∈ c.children, d.Simulated coupling a σ first second) :
    (Node.expr e).Simulated coupling a σ first second := by
  cases e with
  | literal value =>
    have same : Simulates (coupling.Frames a) (Value.shift a) (pure (.ofLiteral value))
        (pure ((Value.ofLiteral value).shift a)) := .pure _
    rw [Value.shift_literal] at same
    exact same
  | reference ref => exact linked.reads ref rfl
  | assign target value =>
    simp only [Node.ofExpr, List.forall_mem_cons] at under
    exact assignment_simulates lasting linked under.2.1
      (deeper (.expr target) (by simp [Node.ofExpr]))
  | fieldAccess receiver field ty =>
    simp only [Node.ofExpr, List.forall_mem_singleton] at under
    simp only [Node.Simulated, Expr.replaced, Expr.eval]
    exact Simulates.bind under fun object => read_field_simulates object field
  | methodCall receiver method args typeArgs ty =>
    simp only [Node.ofExpr, List.forall_mem_cons, List.forall_mem_map] at under
    simp only [Node.Simulated, Expr.replaced, Expr.eval]
    refine Simulates.bind under.1 ?_
    intro object
    refine (expression_list_simulates under.2).bind ?_
    intro values
    exact call_method_simulates lasting mirrors object method values
  | staticCall cls method args typeArgs ty =>
    simp only [Node.ofExpr, List.forall_mem_map] at under
    simp only [Node.Simulated, Expr.replaced, Expr.eval]
    refine (expression_list_simulates under).bind ?_
    intro values
    exact call_static_simulates lasting mirrors cls method values
  | construct ty args =>
    simp only [Node.ofExpr, List.forall_mem_map] at under
    simp only [Node.Simulated, Expr.replaced, Expr.eval]
    refine (expression_list_simulates under).bind ?_
    intro values
    exact construct_simulates lasting mirrors ty values
  | operation op args ty =>
    simp only [Node.ofExpr, List.forall_mem_map] at under
    exact operation_simulates op args ty under
  | conditional condition ifTrue ifFalse ty =>
    simp only [Node.ofExpr, List.forall_mem_cons] at under
    simp only [Node.Simulated, Expr.replaced, Expr.eval]
    refine (condition_simulates under.1).bind ?_
    intro holds
    cases holds with
    | true => exact under.2.1
    | false => exact under.2.2.1
  | lambda | methodReference | anonymousClass => exact .fault _

omit lasting in
theorem statement_simulates (s : Stmt) (linked : Linked coupling a σ first second (.stmt s))
    (under : ∀ c ∈ Node.ofStmt s, c.Simulated coupling a σ first second) :
    (Node.stmt s).Simulated coupling a σ first second := by
  cases s with
  | expr value =>
    simp only [Node.ofStmt, List.forall_mem_singleton] at under
    simp only [Node.Simulated, Stmt.replaced, Stmt.exec]
    exact (Simulates.discard under).bind fun _ => .pure Flow.normal
  | ret value =>
    cases value with
    | none =>
      simp only [Node.Simulated, Stmt.replaced, Stmt.exec]
      exact .pure (Flow.returned .unit)
    | some value =>
      simp only [Node.ofStmt, Option.map_some, Option.toList_some, List.forall_mem_singleton]
        at under
      simp only [Node.Simulated, Stmt.replaced, Stmt.exec]
      exact Simulates.bind under fun v => .pure (Flow.returned v)
  | decl x init =>
    simp only [Node.ofStmt, List.forall_mem_singleton] at under
    simp only [Node.Simulated, Stmt.replaced, Stmt.exec]
    refine Simulates.bind under ?_
    intro v
    exact (linked.declares x init rfl v).bind fun _ => .pure Flow.normal
  | cond condition thenBranch elseBranch =>
    simp only [Node.ofStmt, List.forall_mem_cons, List.forall_mem_append, List.forall_mem_map]
      at under
    simp only [Node.Simulated, Stmt.replaced, Stmt.exec]
    refine (condition_simulates under.1).bind ?_
    intro holds
    cases holds with
    | true => exact statement_list_simulates under.2.1
    | false => exact statement_list_simulates under.2.2
  | loop condition body =>
    simp only [Node.ofStmt, List.forall_mem_cons, List.forall_mem_map] at under
    simp only [Node.Simulated, Stmt.replaced, Stmt.exec, mirrors.limits]
    exact (condition_simulates under.1).iterate (statement_list_simulates under.2) _

theorem parts_simulate (n : Node)
    (linked : ∀ m ∈ n.preorder, Linked coupling a σ first second m) :
    ∀ m ∈ n.preorder, m.Simulated coupling a σ first second := by
  induction n using Node.by_children with
  | step n ih =>
    have inner : ∀ c ∈ n.children, ∀ m ∈ c.preorder, m.Simulated coupling a σ first second := by
      intro c child
      exact ih c child fun m inside => linked m (Node.mem_preorder_of_child child inside)
    have under : ∀ c ∈ n.children, c.Simulated coupling a σ first second :=
      fun c child => inner c child c (Node.self_mem_preorder c)
    -- An assignment evaluates the receiver of its target, but not the target.
    have deeper : ∀ c ∈ n.children, ∀ d ∈ c.children, d.Simulated coupling a σ first second :=
      fun c child d part =>
        inner c child d (Node.mem_preorder_of_child part (Node.self_mem_preorder d))
    have own := linked n (Node.self_mem_preorder n)
    intro m member
    rw [Node.preorder_eq, List.mem_cons, Node.mem_preorderAll] at member
    rcases member with rfl | ⟨c, child, inside⟩
    · cases m with
      | expr e => exact expression_simulates lasting mirrors e own under deeper
      | stmt s => exact statement_simulates mirrors s own under
      | _ => trivial
    · exact inner c child m inside

theorem body_simulates (body : List Stmt)
    (linked : ∀ m ∈ Stmt.nodesAll body, Linked coupling a σ first second m) :
    Simulates (coupling.Frames a) (Flow.shift a) (Stmt.execAll first body)
      (Stmt.execAll second (Stmt.replacedAll σ body)) := by
  apply statement_list_simulates
  intro s member
  rw [statement_list_walk] at linked
  refine parts_simulate lasting mirrors (.stmt s) ?_ (.stmt s) (Node.self_mem_preorder _)
  intro m inside
  exact linked m (Node.mem_preorderAll.mpr ⟨_, List.mem_map_of_mem member, inside⟩)

end

end ClosureLift
