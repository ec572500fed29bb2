import ClosureLift.Proofs.Machine.Endings
import ClosureLift.Proofs.Machine.History
import ClosureLift.Proofs.Machine.Soundness

/-!
The traces of evaluations are true to them. The heaps of a trace lead in single steps from the first
heap of the run to its last one, at any nesting of calls; and where a run fails for want of a field,
an object of one of these heaps lacks it.
-/
namespace ClosureLift

open Eval Trace

def Heap.Misses (heap : Heap) (cls : TypeName) (name : String) : Prop :=
  ∃ k < heap.size, heap.className k = cls ∧ heap.field? k name = none

/-- A safe outcome with the heaps that led to it. Where a field is reported missing, an object of
one of these heaps lacks it. -/
structure Recorded (program : Program) (this : Option Nat) (f : Frame) (fits : Nat → α → Prop)
    (outcome : Except Stop α × Frame) (past : List Heap) : Prop extends
    Safe this f fits outcome where
  steps : Heap.Steps program f.heap past outcome.2.heap
  missing : ∀ cls name, outcome.1 = .error (.fault (.unknownField cls name)) →
    ∃ heap ∈ f.heap :: past, heap.Misses cls name

def Records (program : Program) (this : Option Nat) (fits : Nat → α → Prop) (m : Eval α)
    (trace : Trace) : Prop :=
  ∀ f, f.Sound this → Recorded program this f fits (m.run.run f) (trace f)

namespace Recorded

variable {program : Program} {this : Option Nat} {fits : Nat → α → Prop} {fits' : Nat → β → Prop}
  {f : Frame} {outcome : Except Stop α × Frame}

theorem quiet (safe : Safe this f fits outcome) (same : outcome.2.heap = f.heap)
    (other : ∀ cls name, outcome.1 ≠ .error (.fault (.unknownField cls name))) :
    Recorded program this f fits outcome [] where
  toSafe := safe
  steps := by
    rw [same]
    exact .none f.heap
  missing := fun cls name failed => absurd failed (other cls name)

theorem pure (sound : f.Sound this) {a : α} (fit : fits f.heap.size a) :
    Recorded program this f fits (.ok a, f) [] :=
  quiet (.pure sound fit) rfl (by simp)

theorem stop (sound : f.Sound this) {stop : Stop}
    (other : ∀ cls name, stop ≠ .fault (.unknownField cls name)) :
    Recorded program this f fits (.error stop, f) [] :=
  quiet (.stop sound stop) rfl fun cls name failed => other cls name (Except.error.inj failed)

theorem bind {m : Eval α} {next : α → Eval β} {past : List Heap} {later : α → Trace}
    (first : Recorded program this f fits (m.run.run f) past)
    (rest : ∀ a g, g.Sound this → f.heap.size ≤ g.heap.size → fits g.heap.size a →
      Recorded program this g fits' ((next a).run.run g) (later a g)) :
    Recorded program this f fits' ((m >>= next).run.run f) (past ++ onward m later f) := by
  have safe := first.toSafe.bind fun a g sound grows fit => (rest a g sound grows fit).toSafe
  rw [run_bind] at safe ⊢
  unfold onward
  generalize m.run.run f = outcome at first safe ⊢
  obtain ⟨result, g⟩ := outcome
  cases result with
  | error stop =>
    rw [List.append_nil]
    exact ⟨safe, first.steps, fun cls name failed => first.missing cls name (by cases failed; rfl)⟩
  | ok a =>
    have last := rest a g first.sound first.grows (first.result a rfl)
    refine ⟨safe, first.steps.append last.steps, ?_⟩
    intro cls name failed
    obtain ⟨heap, member, misses⟩ := last.missing cls name failed
    refine ⟨heap, ?_, misses⟩
    rw [← List.cons_append, List.mem_append]
    -- The heap between the two parts was passed by the first.
    rcases List.mem_cons.mp member with rfl | inside
    · exact Or.inl first.steps.last_passed
    · exact Or.inr inside

theorem andQuiet {m : Eval α} {next : α → Eval β} {past : List Heap}
    (first : Recorded program this f fits (m.run.run f) past)
    (rest : ∀ a g, g.Sound this → f.heap.size ≤ g.heap.size → fits g.heap.size a →
      Recorded program this g fits' ((next a).run.run g) []) :
    Recorded program this f fits' ((m >>= next).run.run f) past := by
  have none : onward m (fun _ => still) f = [] := by
    unfold onward
    split <;> rfl
  rw [← List.append_nil past, ← none]
  exact first.bind rest

theorem discard {m : Eval α} {past : List Heap}
    (first : Recorded program this f fits (m.run.run f) past) :
    Recorded program this f (fun _ _ => True) ((Functor.discard m).run.run f) past := by
  rw [discard_eq]
  exact first.andQuiet fun _ g sound _ _ => .pure sound trivial

end Recorded

theorem Records.iterate {program : Program} {this : Option Nat} {condition : Eval Bool}
    {body : Eval Flow} {fits : Nat → Flow → Prop} {tested turned : Trace}
    (test : Records program this (fun _ _ => True) condition tested)
    (turn : Records program this fits body turned) (normal : ∀ size, fits size .normal)
    (turns : Nat) :
    Records program this fits (Eval.iterate turns condition body)
      (Trace.iterate condition tested body turned turns) := by
  induction turns with
  | zero => exact fun f sound => .stop sound (by simp)
  | succ turns ih =>
    intro f sound
    refine (test f sound).bind ?_
    intro again g sound' _ _
    cases again with
    | false => exact .pure sound' (normal _)
    | true =>
      refine (turn g sound').bind ?_
      intro flow h sound'' _ fit
      cases flow with
      | normal => exact ih h sound''
      | returned v => exact .pure sound'' fit

section

variable {ctx : Context} {f : Frame} (sound : f.Sound ctx.this)
include sound

theorem read_variable_recorded (x : Variable) :
    Recorded ctx.program ctx.this f Value.Within ((readVariable x).run.run f) [] := by
  have safe := read_variable_safe sound x
  rw [read_variable_run] at safe ⊢
  cases found : f.locals.get? x.id with
  | none => exact .stop sound (by simp)
  | some v =>
    rw [found] at safe
    exact .quiet safe rfl (by simp)

theorem self_recorded (cls : TypeName) :
    Recorded ctx.program ctx.this f Value.Within ((ctx.self cls).run.run f) [] := by
  have safe := self_safe sound cls
  rw [self_run] at safe ⊢
  generalize ctx.this = this at sound safe ⊢
  cases this with
  | none => exact .stop sound (by simp)
  | some r =>
    dsimp only at safe ⊢
    split
    · exact .pure sound (sound.receiver r rfl)
    · exact .stop sound (by simp)

theorem write_variable_recorded (x : Variable) {v : Value} (within : v.Within f.heap.size) :
    Recorded ctx.program ctx.this f (fun _ _ => True) ((writeVariable x v).run.run f) [] :=
  .quiet (write_variable_safe sound x within) rfl fun _ _ failed => by cases failed

theorem read_field_recorded {v : Value} (within : v.Within f.heap.size) (name : String) :
    Recorded ctx.program ctx.this f Value.Within ((readField v name).run.run f) [] := by
  have safe := read_field_safe sound v name
  cases v with
  | object k =>
    rw [read_field_run] at safe ⊢
    cases found : f.heap.field? k name with
    | some w =>
      rw [found] at safe
      exact .quiet safe rfl (by simp)
    | none =>
      rw [found] at safe
      refine ⟨safe, .none _, ?_⟩
      rintro _ _ ⟨⟩
      exact ⟨f.heap, List.mem_cons_self, k, within, rfl, found⟩
  | _ => exact .stop sound (by simp)

theorem write_field_recorded {v : Value} (within : v.Within f.heap.size) (name : String)
    {w : Value} (fits : w.Within f.heap.size) :
    Recorded ctx.program ctx.this f (fun _ _ => True) ((writeField v name w).run.run f)
      (change (writeField v name w) f) := by
  have safe := write_field_safe sound v name fits
  unfold change onward
  cases v with
  | object k =>
    rw [write_field_run] at safe ⊢
    cases found : f.heap.field? k name with
    | some old =>
      rw [found] at safe
      exact ⟨safe, .one (.write found w), by simp⟩
    | none =>
      rw [found] at safe
      refine ⟨safe, .none _, ?_⟩
      rintro _ _ ⟨⟩
      exact ⟨f.heap, List.mem_cons_self, k, within, rfl, found⟩
  | _ => exact .stop sound (by simp)

theorem truth_recorded (v : Value) :
    Recorded ctx.program ctx.this f (fun _ _ => True) ((truth v).run.run f) [] := by
  cases v with
  | boolean b => exact .pure sound trivial
  | _ => exact .stop sound (by simp)

theorem operate_recorded (op : Operator) (operands : List Value) :
    Recorded ctx.program ctx.this f Value.Within ((operate op operands).run.run f) [] := by
  have safe := operate_safe sound op operands
  have run : (operate op operands).run.run f =
      (ofExcept (op.apply f.heap operands)).run.run f := rfl
  rw [run] at safe ⊢
  cases result : op.apply f.heap operands with
  | ok v => exact .pure sound (operator_within result _)
  | error e =>
    refine .stop sound ?_
    rintro cls name ⟨⟩
    rcases operator_error result with same | ⟨found, same⟩ <;> cases same

theorem allocate_recorded {cls : Class} (declared : cls ∈ ctx.program.classes) :
    Recorded ctx.program ctx.this f (fun size address => address < size)
      ((allocate cls).run.run f) (change (allocate cls) f) :=
  ⟨allocate_safe sound cls, .one (.create declared), fun _ _ failed => by cases failed⟩

theorem class_recorded (name : TypeName) {next : Class → Eval α} {later : Class → Trace}
    {fits : Nat → α → Prop}
    (rest : ∀ cls ∈ ctx.program.classes,
      Recorded ctx.program ctx.this f fits ((next cls).run.run f) (later cls f)) :
    Recorded ctx.program ctx.this f fits
      ((ofExcept (ctx.program.runtimeClass name) >>= next).run.run f)
      (andThen (ofExcept (ctx.program.runtimeClass name)) still later f) := by
  unfold Program.runtimeClass
  split
  · rename_i cls found
    exact rest cls (List.mem_reverse.mp (List.mem_of_find?_eq_some found))
  · exact .stop sound (by simp)

theorem callee_recorded (cls : Class) (method : String) (args : List Value)
    {next : Method → Eval α} {later : Method → Trace} {fits : Nat → α → Prop}
    (rest : ∀ m, Recorded ctx.program ctx.this f fits ((next m).run.run f) (later m f)) :
    Recorded ctx.program ctx.this f fits
      ((ofExcept (cls.callee method args) >>= next).run.run f)
      (andThen (ofExcept (cls.callee method args)) still later f) := by
  unfold Class.callee
  split
  · rename_i m found
    exact rest m
  · exact .stop sound (by simp)

end

def Chronicled (program : Program) (invoke : Invocation → Heap → Except Stop Value × Heap)
    (calls : CallTrace) : Prop :=
  ∀ invocation heap, heap.Sound → (∀ r, invocation.this = some r → r < heap.size) →
    (∀ v ∈ invocation.args, v.Within heap.size) →
    Heap.Steps program heap (calls invocation heap) (invoke invocation heap).2 ∧
      ∀ cls name, (invoke invocation heap).1 = .error (.fault (.unknownField cls name)) →
        ∃ passed ∈ heap :: calls invocation heap, passed.Misses cls name

section

variable {ctx : Context} {f : Frame} (sound : f.Sound ctx.this) (trusted : Trusted ctx.invoke)
  {calls : CallTrace} (chronicled : Chronicled ctx.program ctx.invoke calls)
include sound trusted chronicled

theorem call_recorded (invocation : Invocation)
    (receiver : ∀ r, invocation.this = some r → r < f.heap.size)
    (args : ∀ v ∈ invocation.args, v.Within f.heap.size) :
    Recorded ctx.program ctx.this f Value.Within ((ctx.call invocation).run.run f)
      (calls invocation f.heap) := by
  have safe := call_safe sound trusted invocation receiver args
  obtain ⟨steps, missing⟩ := chronicled invocation f.heap sound.heap receiver args
  rw [call_run] at safe ⊢
  exact ⟨safe, steps, missing⟩

theorem call_static_recorded (cls : TypeName) (method : String) {args : List Value}
    (within : ∀ v ∈ args, v.Within f.heap.size) :
    Recorded ctx.program ctx.this f Value.Within ((ctx.callStatic cls method args).run.run f)
      (ctx.callStaticTrace calls cls method args f) := by
  refine class_recorded sound cls ?_
  intro owner _
  refine callee_recorded sound owner method args ?_
  intro m
  exact call_recorded sound trusted chronicled _ (by rintro r ⟨⟩) within

theorem call_method_recorded {receiver : Value} (here : receiver.Within f.heap.size)
    (method : String) {args : List Value} (within : ∀ v ∈ args, v.Within f.heap.size) :
    Recorded ctx.program ctx.this f Value.Within ((ctx.callMethod receiver method args).run.run f)
      (ctx.callMethodTrace calls receiver method args f) := by
  cases receiver with
  | object k =>
    rw [call_method_run]
    refine class_recorded sound (f.heap.className k) ?_
    intro owner _
    refine callee_recorded sound owner method args ?_
    intro m
    refine call_recorded sound trusted chronicled _ ?_ within
    rintro r ⟨⟩
    exact here
  | _ => exact .stop sound (by simp)

theorem construct_recorded (ty : Ty) {args : List Value}
    (within : ∀ v ∈ args, v.Within f.heap.size) :
    Recorded ctx.program ctx.this f Value.Within ((ctx.construct ty args).run.run f)
      (ctx.constructTrace calls ty args f) := by
  unfold Context.construct Context.constructTrace
  cases ty.erasure? with
  | none => exact .stop sound (by simp)
  | some name =>
    refine class_recorded sound name ?_
    intro cls declared
    split
    · exact .stop sound (by simp)
    · refine (allocate_recorded sound declared).bind ?_
      intro address g sound' grows below
      have built := call_recorded sound' trusted chronicled
        ⟨cls.constructor.params, cls.constructor.body, some address, args⟩
        (by rintro r ⟨⟩; exact below) fun v member => (within v member).mono grows
      refine built.discard.andQuiet ?_
      intro _ last still later _
      exact .pure still (Nat.lt_of_lt_of_le below later)

end

def Node.Records (ctx : Context) (calls : CallTrace) : Node → Prop
  | .expr e =>
    ClosureLift.Records ctx.program ctx.this Value.Within (e.eval ctx) (e.trace ctx calls)
  | .stmt s => ClosureLift.Records ctx.program ctx.this Flow.Within (s.exec ctx) (s.trace ctx calls)
  | _ => True

section

variable {ctx : Context} {calls : CallTrace}

theorem expression_list_records {es : List Expr}
    (each : ∀ e ∈ es, (Node.expr e).Records ctx calls) :
    Records ctx.program ctx.this (fun size vs => ∀ v ∈ vs, v.Within size) (Expr.evalAll ctx es)
      (Expr.traceAll ctx calls es) := by
  induction es with
  | nil => exact fun f sound => .pure sound (by simp)
  | cons e rest ih =>
    intro f sound
    rw [Expr.evalAll, Expr.traceAll]
    refine (each e List.mem_cons_self f sound).bind ?_
    intro v g sound' _ fits
    refine (ih (fun e member => each e (List.mem_cons_of_mem _ member)) g sound').andQuiet ?_
    intro vs h sound'' grows within
    exact .pure sound'' (List.forall_mem_cons.mpr ⟨fits.mono grows, within⟩)

theorem statement_list_records {ss : List Stmt}
    (each : ∀ s ∈ ss, (Node.stmt s).Records ctx calls) :
    Records ctx.program ctx.this Flow.Within (Stmt.execAll ctx ss)
      (Stmt.traceAll ctx calls ss) := by
  induction ss with
  | nil => exact fun f sound => .pure sound trivial
  | cons s rest ih =>
    intro f sound
    rw [Stmt.execAll, Stmt.traceAll]
    refine (each s List.mem_cons_self f sound).bind ?_
    intro flow g sound' _ fits
    cases flow with
    | normal => exact ih (fun s member => each s (List.mem_cons_of_mem _ member)) g sound'
    | returned v => exact .pure sound' fits

theorem condition_records {m : Eval Value} {trace : Trace}
    (value : Records ctx.program ctx.this Value.Within m trace) :
    Records ctx.program ctx.this (fun _ _ => True) (m >>= truth) trace :=
  fun f sound => (value f sound).andQuiet fun v _ sound' _ _ => truth_recorded sound' v

theorem operation_trace (op : Operator) (args : List Expr) (ty : Ty)
    (strict : args.length = 2 → op ≠ .booleanAnd ∧ op ≠ .booleanOr) :
    (Expr.operation op args ty).trace ctx calls = Expr.traceAll ctx calls args := by
  rw [Expr.trace]
  · rintro left right rfl rfl
    exact (strict rfl).1 rfl
  · rintro left right rfl rfl
    exact (strict rfl).2 rfl

theorem operation_records (op : Operator) (args : List Expr) (ty : Ty)
    (each : ∀ e ∈ args, (Node.expr e).Records ctx calls) :
    (Node.expr (.operation op args ty)).Records ctx calls := by
  intro f sound
  rcases operation_cases op args with ⟨left, right, rfl, which⟩ | strict
  · have leftTest := condition_records (each left (by simp))
    have rightTest := condition_records (each right (by simp))
    rcases which with rfl | rfl
    · rw [Expr.eval, Expr.trace]
      refine (leftTest f sound).bind ?_
      intro holds g sound' _ _
      cases holds with
      | false => exact .pure sound' trivial
      | true => exact (rightTest g sound').andQuiet fun _ _ sound'' _ _ => .pure sound'' trivial
    · rw [Expr.eval, Expr.trace]
      refine (leftTest f sound).bind ?_
      intro holds g sound' _ _
      cases holds with
      | true => exact .pure sound' trivial
      | false => exact (rightTest g sound').andQuiet fun _ _ sound'' _ _ => .pure sound'' trivial
  · rw [operation_eval ctx op args ty strict, operation_trace op args ty strict]
    exact (expression_list_records each f sound).andQuiet fun vs _ sound' _ _ =>
      operate_recorded sound' op vs

theorem assignment_records {target value : Expr} (computed : (Node.expr value).Records ctx calls)
    (under : ∀ c ∈ Node.ofExpr target, c.Records ctx calls) :
    (Node.expr (.assign target value)).Records ctx calls := by
  intro f sound
  have evaluated := computed f sound
  rw [assign_eval]
  cases target with
  | reference ref =>
    cases ref with
    | «variable» x =>
      rw [Expr.trace]
      refine evaluated.andQuiet ?_
      intro v g sound' _ fits
      exact (write_variable_recorded sound' x fits).andQuiet fun _ _ sound'' grows _ =>
        .pure sound'' (fits.mono grows)
    | this cls => exact evaluated.andQuiet fun _ _ sound' _ _ => .stop sound' (by simp)
  | fieldAccess receiver name ty =>
    have asked : (Node.expr receiver).Records ctx calls := under _ (by simp [Node.ofExpr])
    rw [Expr.trace]
    refine evaluated.bind ?_
    intro v g sound' _ fits
    refine (asked g sound').bind ?_
    intro object h sound'' grows within
    refine (write_field_recorded sound'' within name (fits.mono grows)).andQuiet ?_
    intro _ last still later _
    exact .pure still (fits.mono (Nat.le_trans grows later))
  | _ => exact evaluated.andQuiet fun _ _ sound' _ _ => .stop sound' (by simp)

variable (trusted : Trusted ctx.invoke) (chronicled : Chronicled ctx.program ctx.invoke calls)
include trusted chronicled

theorem expression_records (e : Expr) (under : ∀ c ∈ Node.ofExpr e, c.Records ctx calls)
    (deeper : ∀ c ∈ Node.ofExpr e, ∀ d ∈ c.children, d.Records ctx calls) :
    (Node.expr e).Records ctx calls := by
  intro f sound
  cases e with
  | literal value => exact .pure sound (by cases value <;> trivial)
  | reference ref =>
    cases ref with
    | «variable» x => exact read_variable_recorded sound x
    | this cls => exact self_recorded sound cls
  | assign target value =>
    simp only [Node.ofExpr, List.forall_mem_cons] at under
    exact assignment_records under.2.1 (deeper (.expr target) (by simp [Node.ofExpr])) f sound
  | fieldAccess receiver name ty =>
    simp only [Node.ofExpr, List.forall_mem_singleton] at under
    rw [Expr.eval, Expr.trace]
    exact (under f sound).andQuiet fun v _ sound' _ within => read_field_recorded sound' within name
  | methodCall receiver method args typeArgs ty =>
    simp only [Node.ofExpr, List.forall_mem_cons, List.forall_mem_map] at under
    rw [Expr.eval, Expr.trace]
    refine (under.1 f sound).bind ?_
    intro object g sound' _ fits
    refine (expression_list_records under.2 g sound').bind ?_
    intro values h sound'' grows within
    exact call_method_recorded sound'' trusted chronicled (fits.mono grows) method within
  | staticCall cls method args typeArgs ty =>
    simp only [Node.ofExpr, List.forall_mem_map] at under
    rw [Expr.eval, Expr.trace]
    refine (expression_list_records under f sound).bind ?_
    intro values g sound' _ within
    exact call_static_recorded sound' trusted chronicled cls method within
  | construct ty args =>
    simp only [Node.ofExpr, List.forall_mem_map] at under
    rw [Expr.eval, Expr.trace]
    refine (expression_list_records under f sound).bind ?_
    intro values g sound' _ within
    exact construct_recorded sound' trusted chronicled ty within
  | operation op args ty =>
    simp only [Node.ofExpr, List.forall_mem_map] at under
    exact operation_records op args ty under f sound
  | conditional condition ifTrue ifFalse ty =>
    simp only [Node.ofExpr, List.forall_mem_cons] at under
    rw [Expr.eval, Expr.trace]
    refine (condition_records under.1 f sound).bind ?_
    intro holds g sound' _ _
    cases holds with
    | true => exact under.2.1 g sound'
    | false => exact under.2.2.1 g sound'
  | lambda | methodReference | anonymousClass => exact .stop sound (by simp)

omit trusted chronicled in
theorem statement_records (s : Stmt) (under : ∀ c ∈ Node.ofStmt s, c.Records ctx calls) :
    (Node.stmt s).Records ctx calls := by
  intro f sound
  cases s with
  | expr value =>
    simp only [Node.ofStmt, List.forall_mem_singleton] at under
    rw [Stmt.exec, Stmt.trace]
    exact (under f sound).discard.andQuiet fun _ _ sound' _ _ => .pure sound' trivial
  | ret value =>
    cases value with
    | none => exact .pure sound trivial
    | some value =>
      simp only [Node.ofStmt, Option.map_some, Option.toList_some, List.forall_mem_singleton]
        at under
      rw [Stmt.exec, Stmt.trace]
      exact (under f sound).andQuiet fun _ _ sound' _ fits => .pure sound' fits
  | decl x init =>
    simp only [Node.ofStmt, List.forall_mem_singleton] at under
    rw [Stmt.exec, Stmt.trace]
    refine (under f sound).andQuiet ?_
    intro v g sound' _ fits
    exact (write_variable_recorded sound' x fits).andQuiet fun _ _ sound'' _ _ =>
      .pure sound'' trivial
  | cond condition thenBranch elseBranch =>
    simp only [Node.ofStmt, List.forall_mem_cons, List.forall_mem_append, List.forall_mem_map]
      at under
    rw [Stmt.exec, Stmt.trace]
    refine (condition_records under.1 f sound).bind ?_
    intro holds g sound' _ _
    cases holds with
    | true => exact statement_list_records under.2.1 g sound'
    | false => exact statement_list_records under.2.2 g sound'
  | loop condition body =>
    simp only [Node.ofStmt, List.forall_mem_cons, List.forall_mem_map] at under
    rw [Stmt.exec, Stmt.trace]
    exact (condition_records under.1).iterate (statement_list_records under.2) (fun _ => trivial)
      _ f sound

theorem parts_record (n : Node) :
    n.Records ctx calls ∧ ∀ c ∈ n.children, c.Records ctx calls := by
  induction n using Node.by_children with
  | step n ih =>
    have under : ∀ c ∈ n.children, c.Records ctx calls := fun c child => (ih c child).1
    refine ⟨?_, under⟩
    cases n with
    | expr e => exact expression_records trusted chronicled e under fun c child => (ih c child).2
    | stmt s => exact statement_records s under
    | _ => trivial

end

theorem invoke_chronicled (program : Program) (limits : Limits) (n : Nat) :
    Chronicled program (program.invoke limits n) (program.invokeTrace limits n) := by
  induction n with
  | zero =>
    intro invocation heap _ _ _
    exact ⟨.none heap, by rintro cls name ⟨⟩⟩
  | succ n ih =>
    intro invocation heap sound receiver args
    let ctx := program.inside limits n invocation.this
    have body : Records ctx.program ctx.this Flow.Within (Stmt.execAll ctx invocation.body)
        (Stmt.traceAll ctx (program.invokeTrace limits n) invocation.body) := by
      apply statement_list_records
      intro s _
      exact (parts_record (invoke_trusted program limits n) ih (.stmt s)).1
    have run := body ⟨heap, .ofArguments invocation.params invocation.args⟩
      ⟨sound, Locals.of_arguments_within args, receiver⟩
    rw [invoke_succ]
    refine ⟨run.steps, ?_⟩
    have missing := run.missing
    dsimp only [ctx] at missing ⊢
    intro cls name failed
    apply missing cls name
    generalize (Stmt.execAll _ _).run.run _ = ended at failed ⊢
    obtain ⟨result, frame⟩ := ended
    cases result with
    | ok flow => cases failed
    | error stop =>
      cases failed
      rfl

end ClosureLift
