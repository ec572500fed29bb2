import ClosureLift.Proofs.Machine.Chronicle
import ClosureLift.Proofs.Machine.Limits

/-!
The limit of nesting only cuts runs off. Where calls have nested deeper, a body makes the changes
that it makes higher up, one after the other, until the limit stops it. So a run that the limit does
not stop is the same at every depth above, changes and result; and where the limit stops a run, it
stops it at every depth below as well.
-/
namespace ClosureLift

open Eval Trace

inductive Call where
  | static (cls : TypeName) (name : String) (args : List Value)
  | method (receiver : Value) (name : String) (args : List Value)
  | construction (ty : Ty) (args : List Value)

namespace Call

def eval (ctx : Context) : Call → Eval Value
  | static cls name args => ctx.callStatic cls name args
  | method receiver name args => ctx.callMethod receiver name args
  | construction ty args => ctx.construct ty args

def trace (ctx : Context) (calls : CallTrace) : Call → Trace
  | static cls name args => ctx.callStaticTrace calls cls name args
  | method receiver name args => ctx.callMethodTrace calls receiver name args
  | construction ty args => ctx.constructTrace calls ty args

end Call

/-- All that there is to see of an evaluation: how it ends, the frame it leaves, and the heaps it
passes, one for each change. -/
structure Run (α : Type) where
  result : Except Stop α
  frame : Frame
  passed : List Heap

namespace Run

def of (m : Eval α) (past : Trace) (f : Frame) : Run α :=
  ⟨(m.run.run f).1, (m.run.run f).2, past f⟩

/-- The first run is the second, or the beginning of it up to where the limit of nesting stops it.
-/
structure CutsOff (limit : Nat) (first second : Run α) : Prop where
  same : first.result ≠ .error (.fault (.stackOverflow limit)) → second = first
  overflow : second.result = .error (.fault (.stackOverflow limit)) →
    first.result = .error (.fault (.stackOverflow limit))
  initial : first.passed <+: second.passed

end Run

namespace Program

variable (program : Program) (limits : Limits)

def atDepth (depth : Nat) (this : Option Nat) : Context :=
  program.inside limits (limits.depth - depth) this

theorem at_depth_invoke (depth : Nat) (this : Option Nat) (invocation : Invocation) (heap : Heap) :
    (program.atDepth limits depth this).invoke invocation heap =
      if limits.depth ≤ depth then (.error (.fault (.stackOverflow limits.depth)), heap)
      else
        let ended := (Stmt.execAll (program.atDepth limits (depth + 1) invocation.this)
          invocation.body).run.run ⟨heap, .ofArguments invocation.params invocation.args⟩
        (ended.1.map Flow.value, ended.2.heap) := by
  unfold atDepth inside
  split
  · rename_i reached
    rw [Nat.sub_eq_zero_of_le reached]
    rfl
  · rename_i above
    have levels : limits.depth - depth = (limits.depth - (depth + 1)) + 1 := by omega
    dsimp only
    rw [levels, invoke_succ]
    rfl

def callAt (depth : Nat) (this : Option Nat) (call : Call) : Frame → Run Value :=
  .of (call.eval (program.atDepth limits depth this))
    (call.trace (program.atDepth limits depth this)
      (program.invokeTrace limits (limits.depth - depth)))

def bodyAt (depth : Nat) (this : Option Nat) (body : List Stmt) : Frame → Run Flow :=
  .of (Stmt.execAll (program.atDepth limits depth this) body)
    (Stmt.traceAll (program.atDepth limits depth this)
      (program.invokeTrace limits (limits.depth - depth)) body)

theorem call_static_eq_call_at (cls : TypeName) (method : String) (args : List Value)
    (heap : Heap) :
    let run := program.callAt limits 0 none (.static cls method args) ⟨heap, []⟩
    program.callStatic limits cls method args heap = (run.result, run.frame.heap) ∧
      program.callStaticTrace limits cls method args heap = run.passed :=
  ⟨rfl, rfl⟩

end Program

/-- The heaps of the first trace are the first heaps of the second one. They are all of them, unless
the evaluation that passes the first ones stops in a way that is excused. -/
def Precedes (excused : Stop → Prop) (m : Eval α) (past past' : Trace) : Prop :=
  ∀ f, (∃ stop, (m.run.run f).1 = .error stop ∧ excused stop ∧ past f <+: past' f) ∨
    past' f = past f

theorem onward_stopped {m : Eval α} {f : Frame} {stop : Stop}
    (stopped : (m.run.run f).1 = .error stop) (later : α → Trace) : onward m later f = [] := by
  unfold onward
  generalize m.run.run f = outcome at stopped ⊢
  obtain ⟨result, g⟩ := outcome
  cases stopped
  rfl

namespace Precedes

variable {excused : Stop → Prop}

theorem refl (m : Eval α) (past : Trace) : Precedes excused m past past := fun _ => Or.inr rfl

theorem initial {m : Eval α} {past past' : Trace} (precedes : Precedes excused m past past')
    (f : Frame) : past f <+: past' f := by
  rcases precedes f with ⟨_, _, _, initial⟩ | same
  · exact initial
  · exact same ▸ List.prefix_refl (past f)

theorem andStill {m : Eval α} {past past' : Trace} (early : Precedes excused m past past')
    (next : α → Eval β) : Precedes excused (m >>= next) past past' := by
  intro f
  rcases early f with ⟨stop, stopped, excuse, initial⟩ | same
  · exact Or.inl ⟨stop, bind_stopped stopped next, excuse, initial⟩
  · exact Or.inr same

theorem bind {m n : Eval α} {next : α → Eval β} {past past' : Trace} {later later' : α → Trace}
    (head : Continues excused m n) (early : Precedes excused m past past')
    (late : ∀ a, Precedes excused (next a) (later a) (later' a)) :
    Precedes excused (m >>= next) (andThen m past later) (andThen n past' later') := by
  intro f
  unfold andThen
  have cutOff : ∀ stop, (m.run.run f).1 = .error stop → excused stop →
      ∃ stop, ((m >>= next).run.run f).1 = .error stop ∧ excused stop ∧
        past f ++ onward m later f <+: past' f ++ onward n later' f := by
    intro stop stopped excuse
    refine ⟨stop, bind_stopped stopped next, excuse, ?_⟩
    rw [onward_stopped stopped, List.append_nil]
    exact (early.initial f).trans (List.prefix_append _ _)
  rcases head f with ⟨stop, stopped, excuse⟩ | goesOn
  · exact Or.inl (cutOff stop stopped excuse)
  rcases early f with ⟨stop, stopped, excuse, _⟩ | same
  · exact Or.inl (cutOff stop stopped excuse)
  -- Neither is cut off so far: both go on with the same value from the same frame.
  · unfold onward
    rw [run_bind, goesOn, same]
    generalize m.run.run f = outcome
    obtain ⟨result, g⟩ := outcome
    cases result with
    | error stop => exact Or.inr rfl
    | ok a =>
      rcases late a g with ⟨stop, stopped, excuse, initial⟩ | same
      · exact Or.inl ⟨stop, stopped, excuse, (List.prefix_append_right_inj _).mpr initial⟩
      · exact Or.inr (congrArg _ same)

theorem iterate {test test' : Eval Bool} {turn turn' : Eval Flow}
    {tested tested' turned turned' : Trace}
    (tests : Continues excused test test') (testing : Precedes excused test tested tested')
    (once : Continues excused turn turn') (turning : Precedes excused turn turned turned')
    {turns more : Nat} (fewer : turns ≤ more) (short : turns < more → excused .outOfTurns) :
    Precedes excused (Eval.iterate turns test turn) (Trace.iterate test tested turn turned turns)
      (Trace.iterate test' tested' turn' turned' more) := by
  induction turns generalizing more with
  | zero =>
    cases more with
    | zero => exact .refl _ _
    | succ more =>
      exact fun f => Or.inl ⟨.outOfTurns, rfl, short (Nat.succ_pos more), List.nil_prefix⟩
  | succ turns ih =>
    cases more with
    | zero => omega
    | succ more =>
      rw [Eval.iterate, Trace.iterate, Trace.iterate]
      refine bind tests testing ?_
      intro again
      cases again with
      | false => exact .refl _ _
      | true =>
        refine bind once turning ?_
        intro flow
        cases flow with
        | normal => exact ih (by omega) fun less => short (by omega)
        | returned v => exact .refl _ _

end Precedes

section

variable {excused : Stop → Prop} {first second : Context} (outlasts : Outlasts excused first second)
  {calls calls' : CallTrace}
  (passing : ∀ invocation, Precedes excused (first.call invocation)
    (fun f => calls invocation f.heap) (fun f => calls' invocation f.heap))
include outlasts passing

theorem call_static_precedes (cls : TypeName) (method : String) (args : List Value) :
    Precedes excused (first.callStatic cls method args)
      (first.callStaticTrace calls cls method args)
      (second.callStaticTrace calls' cls method args) := by
  unfold Context.callStatic Context.callStaticTrace
  rw [outlasts.program]
  refine .bind (.refl _) (.refl _ _) ?_
  intro owner
  refine .bind (.refl _) (.refl _ _) ?_
  intro m
  exact passing _

theorem call_method_precedes (receiver : Value) (method : String) (args : List Value) :
    Precedes excused (first.callMethod receiver method args)
      (first.callMethodTrace calls receiver method args)
      (second.callMethodTrace calls' receiver method args) := by
  cases receiver with
  | object k =>
    intro f
    rw [call_method_run]
    unfold Context.callMethodTrace
    rw [outlasts.program]
    refine Precedes.bind (.refl _) (.refl _ _) ?_ f
    intro owner
    refine .bind (.refl _) (.refl _ _) ?_
    intro m
    exact passing _
  | _ => exact .refl _ _

theorem construct_precedes (ty : Ty) (args : List Value) :
    Precedes excused (first.construct ty args) (first.constructTrace calls ty args)
      (second.constructTrace calls' ty args) := by
  unfold Context.construct Context.constructTrace
  rw [outlasts.program]
  cases ty.erasure? with
  | none => exact .refl _ _
  | some name =>
    refine .bind (.refl _) (.refl _ _) ?_
    intro cls
    split
    · exact .refl _ _
    · refine Precedes.bind (m := allocate cls) (.refl _) (.refl _ _) ?_
      intro address
      rw [discard_eq]
      exact ((passing _).andStill _).andStill _

end

def Node.Precedes (excused : Stop → Prop) (first second : Context) (calls calls' : CallTrace) :
    Node → Prop
  | .expr e =>
    ClosureLift.Precedes excused (e.eval first) (e.trace first calls) (e.trace second calls')
  | .stmt s =>
    ClosureLift.Precedes excused (s.exec first) (s.trace first calls) (s.trace second calls')
  | _ => True

section

variable {excused : Stop → Prop} {first second : Context} (outlasts : Outlasts excused first second)
  {calls calls' : CallTrace}
include outlasts

theorem expression_list_precedes {es : List Expr}
    (each : ∀ e ∈ es, (Node.expr e).Precedes excused first second calls calls') :
    Precedes excused (Expr.evalAll first es) (Expr.traceAll first calls es)
      (Expr.traceAll second calls' es) := by
  induction es with
  | nil => exact .refl _ _
  | cons e rest ih =>
    rw [Expr.evalAll, Expr.traceAll, Expr.traceAll]
    refine .bind (parts_continue outlasts (.expr e)) (each e List.mem_cons_self) ?_
    intro v
    exact (ih fun e member => each e (List.mem_cons_of_mem _ member)).andStill _

theorem statement_list_precedes {ss : List Stmt}
    (each : ∀ s ∈ ss, (Node.stmt s).Precedes excused first second calls calls') :
    Precedes excused (Stmt.execAll first ss) (Stmt.traceAll first calls ss)
      (Stmt.traceAll second calls' ss) := by
  induction ss with
  | nil => exact .refl _ _
  | cons s rest ih =>
    rw [Stmt.execAll, Stmt.traceAll, Stmt.traceAll]
    refine .bind (parts_continue outlasts (.stmt s)) (each s List.mem_cons_self) ?_
    intro flow
    cases flow with
    | normal => exact ih fun s member => each s (List.mem_cons_of_mem _ member)
    | returned v => exact .refl _ _

theorem condition_continues (e : Expr) :
    Continues excused (e.eval first >>= truth) (e.eval second >>= truth) :=
  (continues_congruence outlasts).condition (parts_continue outlasts (.expr e))

theorem operation_precedes (op : Operator) (args : List Expr) (ty : Ty)
    (each : ∀ e ∈ args, (Node.expr e).Precedes excused first second calls calls') :
    (Node.expr (.operation op args ty)).Precedes excused first second calls calls' := by
  rw [Node.Precedes]
  rcases operation_cases op args with ⟨left, right, rfl, which⟩ | strict
  · have leftTest := (each left (by simp)).andStill truth
    have rightTest := (each right (by simp)).andStill truth
    rcases which with rfl | rfl
    · rw [Expr.eval, Expr.trace, Expr.trace]
      refine .bind (condition_continues outlasts left) leftTest ?_
      intro holds
      cases holds with
      | false => exact .refl _ Trace.still
      | true => exact rightTest.andStill _
    · rw [Expr.eval, Expr.trace, Expr.trace]
      refine .bind (condition_continues outlasts left) leftTest ?_
      intro holds
      cases holds with
      | true => exact .refl _ Trace.still
      | false => exact rightTest.andStill _
  · rw [operation_eval first op args ty strict, operation_trace op args ty strict,
      operation_trace op args ty strict]
    exact (expression_list_precedes outlasts each).andStill _

theorem assignment_precedes {target value : Expr}
    (computed : (Node.expr value).Precedes excused first second calls calls')
    (under : ∀ c ∈ Node.ofExpr target, c.Precedes excused first second calls calls') :
    (Node.expr (.assign target value)).Precedes excused first second calls calls' := by
  rw [Node.Precedes, assign_eval]
  cases target with
  | fieldAccess receiver name ty =>
    have asked := under (.expr receiver) (by simp [Node.ofExpr])
    rw [Expr.trace, Expr.trace]
    refine .bind (parts_continue outlasts (.expr value)) computed ?_
    intro v
    refine .bind (parts_continue outlasts (.expr receiver)) asked ?_
    intro object
    exact (Precedes.refl _ _).andStill _
  | reference ref => cases ref <;> exact computed.andStill _
  | _ => exact computed.andStill _

variable (passing : ∀ invocation, Precedes excused (first.call invocation)
  (fun f => calls invocation f.heap) (fun f => calls' invocation f.heap))
include passing

theorem expression_precedes (e : Expr)
    (under : ∀ c ∈ Node.ofExpr e, c.Precedes excused first second calls calls')
    (deeper : ∀ c ∈ Node.ofExpr e, ∀ d ∈ c.children,
      d.Precedes excused first second calls calls') :
    (Node.expr e).Precedes excused first second calls calls' := by
  cases e with
  | assign target value =>
    simp only [Node.ofExpr, List.forall_mem_cons] at under
    exact assignment_precedes outlasts under.2.1 (deeper (.expr target) (by simp [Node.ofExpr]))
  | fieldAccess receiver name ty =>
    simp only [Node.ofExpr, List.forall_mem_singleton] at under
    rw [Node.Precedes, Expr.eval, Expr.trace, Expr.trace]
    exact under.andStill _
  | methodCall receiver method args typeArgs ty =>
    simp only [Node.ofExpr, List.forall_mem_cons, List.forall_mem_map] at under
    rw [Node.Precedes, Expr.eval, Expr.trace, Expr.trace]
    refine .bind (parts_continue outlasts (.expr receiver)) under.1 ?_
    intro object
    refine .bind (expression_list_continues outlasts args)
      (expression_list_precedes outlasts under.2) ?_
    intro values
    exact call_method_precedes outlasts passing object method values
  | staticCall cls method args typeArgs ty =>
    simp only [Node.ofExpr, List.forall_mem_map] at under
    rw [Node.Precedes, Expr.eval, Expr.trace, Expr.trace]
    refine .bind (expression_list_continues outlasts args)
      (expression_list_precedes outlasts under) ?_
    intro values
    exact call_static_precedes outlasts passing cls method values
  | construct ty args =>
    simp only [Node.ofExpr, List.forall_mem_map] at under
    rw [Node.Precedes, Expr.eval, Expr.trace, Expr.trace]
    refine .bind (expression_list_continues outlasts args)
      (expression_list_precedes outlasts under) ?_
    intro values
    exact construct_precedes outlasts passing ty values
  | operation op args ty =>
    simp only [Node.ofExpr, List.forall_mem_map] at under
    exact operation_precedes outlasts op args ty under
  | conditional condition ifTrue ifFalse ty =>
    simp only [Node.ofExpr, List.forall_mem_cons] at under
    rw [Node.Precedes, Expr.eval, Expr.trace, Expr.trace]
    refine .bind (condition_continues outlasts condition) (under.1.andStill truth) ?_
    intro holds
    cases holds with
    | true => exact under.2.1
    | false => exact under.2.2.1
  | _ => exact .refl _ _

omit passing in
theorem statement_precedes (s : Stmt)
    (under : ∀ c ∈ Node.ofStmt s, c.Precedes excused first second calls calls') :
    (Node.stmt s).Precedes excused first second calls calls' := by
  cases s with
  | expr value =>
    simp only [Node.ofStmt, List.forall_mem_singleton] at under
    rw [Node.Precedes, Stmt.exec, Stmt.trace, Stmt.trace, discard_eq]
    exact (under.andStill _).andStill _
  | ret value =>
    cases value with
    | none => exact .refl _ _
    | some value =>
      simp only [Node.ofStmt, Option.map_some, Option.toList_some, List.forall_mem_singleton]
        at under
      rw [Node.Precedes, Stmt.exec, Stmt.trace, Stmt.trace]
      exact under.andStill _
  | decl x init =>
    simp only [Node.ofStmt, List.forall_mem_singleton] at under
    rw [Node.Precedes, Stmt.exec, Stmt.trace, Stmt.trace]
    exact under.andStill _
  | cond condition thenBranch elseBranch =>
    simp only [Node.ofStmt, List.forall_mem_cons, List.forall_mem_append, List.forall_mem_map]
      at under
    rw [Node.Precedes, Stmt.exec, Stmt.trace, Stmt.trace]
    refine .bind (condition_continues outlasts condition) (under.1.andStill truth) ?_
    intro holds
    cases holds with
    | true => exact statement_list_precedes outlasts under.2.1
    | false => exact statement_list_precedes outlasts under.2.2
  | loop condition body =>
    simp only [Node.ofStmt, List.forall_mem_cons, List.forall_mem_map] at under
    rw [Node.Precedes, Stmt.exec, Stmt.trace, Stmt.trace]
    exact .iterate (condition_continues outlasts condition) (under.1.andStill truth)
      (body_continues outlasts body) (statement_list_precedes outlasts under.2) outlasts.turns
      outlasts.short

theorem parts_precede (n : Node) :
    n.Precedes excused first second calls calls' ∧
      ∀ c ∈ n.children, c.Precedes excused first second calls calls' := by
  induction n using Node.by_children with
  | step n ih =>
    have under : ∀ c ∈ n.children, c.Precedes excused first second calls calls' :=
      fun c child => (ih c child).1
    refine ⟨?_, under⟩
    cases n with
    | expr e => exact expression_precedes outlasts passing e under fun c child => (ih c child).2
    | stmt s => exact statement_precedes outlasts s under
    | _ => trivial

theorem body_precedes (body : List Stmt) :
    Precedes excused (Stmt.execAll first body) (Stmt.traceAll first calls body)
      (Stmt.traceAll second calls' body) := by
  apply statement_list_precedes outlasts
  intro s _
  exact (parts_precede outlasts passing (.stmt s)).1

end

namespace Program

theorem calls_precede {excused : Stop → Prop} (program : Program) (limits : Limits)
    {levels more : Nat} (below : levels ≤ more)
    (cut : levels < more → excused (.fault (.stackOverflow limits.depth))) (this : Option Nat)
    (invocation : Invocation) :
    Precedes excused ((program.inside limits levels this).call invocation)
      (fun f => program.invokeTrace limits levels invocation f.heap)
      (fun f => program.invokeTrace limits more invocation f.heap) := by
  induction levels generalizing more this invocation with
  | zero =>
    intro f
    cases more with
    | zero => exact Or.inr rfl
    | succ more => exact Or.inl ⟨_, rfl, cut (Nat.succ_pos more), List.nil_prefix⟩
  | succ levels ih =>
    intro f
    cases more with
    | zero => omega
    | succ more =>
      have closer : levels ≤ more := by omega
      have nearer : levels < more → excused (.fault (.stackOverflow limits.depth)) :=
        fun less => cut (by omega)
      have body := body_precedes
        (program.more_levels_outlast limits closer nearer invocation.this)
        (ih closer nearer invocation.this) invocation.body
        ⟨f.heap, .ofArguments invocation.params invocation.args⟩
      rcases body with ⟨stop, stopped, excuse, initial⟩ | same
      · refine Or.inl ⟨stop, ?_, excuse, initial⟩
        rw [inside_call_run]
        dsimp only
        rw [stopped]
        rfl
      · exact Or.inr same

end Program

namespace Call

variable {excused : Stop → Prop} {first second : Context} (outlasts : Outlasts excused first second)
include outlasts

theorem continues (call : Call) : Continues excused (call.eval first) (call.eval second) := by
  cases call with
  | static cls name args => exact call_static_continues outlasts cls name args
  | method receiver name args => exact call_method_continues outlasts receiver name args
  | construction ty args => exact construct_continues outlasts ty args

theorem precedes {calls calls' : CallTrace}
    (passing : ∀ invocation, Precedes excused (first.call invocation)
      (fun f => calls invocation f.heap) (fun f => calls' invocation f.heap)) (call : Call) :
    Precedes excused (call.eval first) (call.trace first calls) (call.trace second calls') := by
  cases call with
  | static cls name args => exact call_static_precedes outlasts passing cls name args
  | method receiver name args => exact call_method_precedes outlasts passing receiver name args
  | construction ty args => exact construct_precedes outlasts passing ty args

end Call

theorem Run.of_cuts_off {limit : Nat} {m n : Eval α} {past past' : Trace}
    (continues : Continues (· = .fault (.stackOverflow limit)) m n)
    (precedes : Precedes (· = .fault (.stackOverflow limit)) m past past') (f : Frame) :
    Run.CutsOff limit (.of m past f) (.of n past' f) where
  same := by
    intro otherwise
    have goesOn : n.run.run f = m.run.run f := by
      rcases continues f with ⟨stop, stopped, rfl⟩ | same
      · exact absurd stopped otherwise
      · exact same
    have passed : past' f = past f := by
      rcases precedes f with ⟨stop, stopped, rfl, _⟩ | same
      · exact absurd stopped otherwise
      · exact same
    simp only [Run.of, goesOn, passed]
  overflow := by
    intro overflow
    rcases continues f with ⟨stop, stopped, rfl⟩ | same
    · exact stopped
    · exact (congrArg Prod.fst same).symm.trans overflow
  initial := precedes.initial f

namespace Program

/-- One level deeper, a call or a body does the same, in result and changes, unless the limit stops
it there. What the limit stops at a depth it stops one level deeper too, after the same changes or
fewer. -/
theorem depth_limit_cuts_off (program : Program) (limits : Limits) (depth : Nat)
    (this : Option Nat) (frame : Frame) :
    (∀ call, Run.CutsOff limits.depth (program.callAt limits (depth + 1) this call frame)
      (program.callAt limits depth this call frame)) ∧
    ∀ body, Run.CutsOff limits.depth (program.bodyAt limits (depth + 1) this body frame)
      (program.bodyAt limits depth this body frame) := by
  let overflow : Stop → Prop := (· = .fault (.stackOverflow limits.depth))
  have below : limits.depth - (depth + 1) ≤ limits.depth - depth := by omega
  have cut : limits.depth - (depth + 1) < limits.depth - depth →
      overflow (.fault (.stackOverflow limits.depth)) := fun _ => rfl
  have outlasts : Outlasts overflow (program.atDepth limits (depth + 1) this)
      (program.atDepth limits depth this) :=
    program.more_levels_outlast limits below cut this
  have passing : ∀ invocation, Precedes overflow
      ((program.atDepth limits (depth + 1) this).call invocation)
      (fun f => program.invokeTrace limits (limits.depth - (depth + 1)) invocation f.heap)
      (fun f => program.invokeTrace limits (limits.depth - depth) invocation f.heap) :=
    program.calls_precede limits below cut this
  refine ⟨?_, ?_⟩
  · intro call
    exact Run.of_cuts_off (call.continues outlasts) (call.precedes outlasts passing) frame
  · intro body
    exact Run.of_cuts_off (body_continues outlasts body) (body_precedes outlasts passing body) frame

def chain : Program :=
  let link : Ty := .scalar ⟨"Link"⟩
  let more : Variable := ⟨(Identifier.top.type ⟨"Link"⟩).constructor.var "more", "more", .integer⟩
  let fewer : Expr := .operation .subtract [.var more, .literal (.integer 1)] .integer
  ⟨"chain", ⟨[]⟩,
    [⟨⟨"Link"⟩, [], [], [⟨"next", link, false⟩],
      ⟨[more],
        [.cond (.operation .greater [.var more, .literal (.integer 0)] .boolean)
          [.expr (.assign (.fieldAccess (.this ⟨"Link"⟩) "next" link) (.construct link [fewer]))]
          []]⟩, [], .dummy⟩]⟩

/-- Of three levels, a chain of two links needs two, and one of three links all three. -/
theorem chain_cuts_off :
    let two : Call := .construction (.scalar ⟨"Link"⟩) [.integer 1]
    let three : Call := .construction (.scalar ⟨"Link"⟩) [.integer 2]
    let run (depth : Nat) (call : Call) := chain.callAt ⟨3, 0⟩ depth none call ⟨.empty, []⟩
    (run 1 two).result = .ok (.object 0) ∧ run 0 two = run 1 two ∧
    (run 0 three).result = .ok (.object 0) ∧
    (run 1 three).result = .error (.fault (.stackOverflow 3)) ∧
    (run 1 three).passed <+: (run 0 three).passed ∧
    (run 1 three).passed.length = 3 ∧ (run 0 three).passed.length = 5 := by
  intro two three run
  have fits : (run 1 two).result = .ok (.object 0) := by decide +kernel
  have cutsOff := (depth_limit_cuts_off chain ⟨3, 0⟩ 0 none ⟨.empty, []⟩).1
  refine ⟨fits, (cutsOff two).same ?_, by decide +kernel, by decide +kernel,
    (cutsOff three).initial, by decide +kernel, by decide +kernel⟩
  exact fun failed => by cases fits.symm.trans failed

end Program

end ClosureLift
