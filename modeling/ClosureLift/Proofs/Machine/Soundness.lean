import ClosureLift.Proofs.Machine.Calls

/-!
No address leads out of the heap. The only addresses that a program gets hold of are those of
objects it has created, and no object goes away, so a run that starts from a frame of this kind ends
in one, and with a value of this kind.
-/
namespace ClosureLift

open Eval

theorem Value.Within.mono {v : Value} {size larger : Nat} (within : v.Within size)
    (grows : size ≤ larger) : v.Within larger := by
  cases v with
  | object address => exact Nat.lt_of_lt_of_le within grows
  | _ => trivial

structure Frame.Sound (this : Option Nat) (frame : Frame) : Prop where
  heap : frame.heap.Sound
  locals : ∀ id v, frame.locals.get? id = some v → v.Within frame.heap.size
  receiver : ∀ r, this = some r → r < frame.heap.size

namespace Heap.Sound

variable {heap : Heap} (sound : heap.Sound)
include sound

theorem field_within {k : Nat} {name : String} {v : Value} (found : heap.field? k name = some v) :
    v.Within heap.size := by
  obtain ⟨object, there, held⟩ := Option.bind_eq_some_iff.mp found
  obtain ⟨before, after, split, _⟩ := List.lookup_eq_some_iff.mp held
  exact sound k object there (name, v) (by rw [split]; simp)

theorem alloc (cls : Class) : (heap.alloc (.new cls)).2.Sound := by
  intro k object there f member
  rw [Heap.size_alloc]
  rw [Heap.object_alloc] at there
  split at there
  · cases there
    obtain ⟨name, _, rfl⟩ := List.mem_map.mp member
    trivial
  · exact (sound k object there f member).mono (Nat.le_succ _)

theorem store (k : Nat) (name : String) {v : Value} (within : v.Within heap.size) :
    (heap.store k name v).Sound := by
  unfold Heap.store
  cases found : heap.object? k with
  | none => exact sound
  | some old =>
    intro j object there f member
    rw [Heap.size_set]
    rw [Heap.object_set] at there
    split at there
    · cases there
      obtain ⟨g, inside, rfl⟩ := List.mem_map.mp member
      split
      · exact within
      · exact sound k old found g inside
    · exact sound j object there f member

end Heap.Sound

namespace Frame.Sound

variable {this : Option Nat} {frame : Frame} (sound : frame.Sound this)
include sound

theorem grow {heap : Heap} (inside : heap.Sound) (grows : frame.heap.size ≤ heap.size) :
    Frame.Sound this { frame with heap } where
  heap := inside
  locals := fun id v found => (sound.locals id v found).mono grows
  receiver := fun r here => Nat.lt_of_lt_of_le (sound.receiver r here) grows

theorem set (id : Identifier) {v : Value} (within : v.Within frame.heap.size) :
    Frame.Sound this { frame with locals := frame.locals.set id v } where
  heap := sound.heap
  locals := by
    intro other w found
    rw [Locals.get_set] at found
    split at found
    · cases found
      exact within
    · exact sound.locals other w found
  receiver := sound.receiver

end Frame.Sound

/-- What is left of a frame: a sound one, with a heap that did not shrink, and a result that fits
into that heap. -/
structure Safe (this : Option Nat) (f : Frame) (fits : Nat → α → Prop)
    (outcome : Except Stop α × Frame) : Prop where
  sound : outcome.2.Sound this
  grows : f.heap.size ≤ outcome.2.heap.size
  result : ∀ a, outcome.1 = .ok a → fits outcome.2.heap.size a

def Confined (this : Option Nat) (fits : Nat → α → Prop) (m : Eval α) : Prop :=
  ∀ f, f.Sound this → Safe this f fits (m.run.run f)

section

variable {this : Option Nat} {fits : Nat → α → Prop} {fits' : Nat → β → Prop} {f : Frame}

theorem Safe.pure (sound : f.Sound this) {a : α} (fit : fits f.heap.size a) :
    Safe this f fits (.ok a, f) := by
  refine ⟨sound, Nat.le_refl _, ?_⟩
  rintro _ ⟨⟩
  exact fit

theorem Safe.stop (sound : f.Sound this) (stop : Stop) : Safe this f fits (.error stop, f) :=
  ⟨sound, Nat.le_refl _, by rintro _ ⟨⟩⟩

theorem Safe.bind {m : Eval α} {next : α → Eval β} (first : Safe this f fits (m.run.run f))
    (later : ∀ a g, g.Sound this → f.heap.size ≤ g.heap.size → fits g.heap.size a →
      Safe this g fits' ((next a).run.run g)) :
    Safe this f fits' ((m >>= next).run.run f) := by
  rw [run_bind]
  generalize m.run.run f = outcome at first ⊢
  obtain ⟨result, g⟩ := outcome
  cases result with
  | error stop => exact ⟨first.sound, first.grows, by rintro _ ⟨⟩⟩
  | ok a =>
    have rest := later a g first.sound first.grows (first.result a rfl)
    exact ⟨rest.sound, Nat.le_trans first.grows rest.grows, rest.result⟩

theorem Safe.discard {m : Eval α} (safe : Safe this f fits (m.run.run f)) :
    Safe this f (fun _ _ => True) ((Functor.discard m).run.run f) := by
  rw [discard_eq]
  exact safe.bind fun _ g sound' _ _ => .pure sound' trivial

theorem Safe.lookup (sound : f.Sound this) (result : Except EvalError α) :
    Safe this f (fun _ _ => True) ((ofExcept result).run.run f) := by
  cases result with
  | ok a => exact .pure sound trivial
  | error e => exact .stop sound _

theorem Confined.iterate {condition : Eval Bool} {body : Eval Flow} {fits : Nat → Flow → Prop}
    (test : Confined this (fun _ _ => True) condition) (turn : Confined this fits body)
    (normal : ∀ size, fits size .normal) (turns : Nat) :
    Confined this fits (Eval.iterate turns condition body) := by
  induction turns with
  | zero => exact fun f sound => .stop sound _
  | succ turns ih =>
    intro f sound
    refine (test f sound).bind ?_
    intro again g sound' _ _
    cases again with
    | false => exact .pure sound' (normal _)
    | true =>
      refine (turn g sound').bind ?_
      intro flow h sound'' _ fit
      cases flow with
      | normal => exact ih h sound''
      | returned v => exact .pure sound'' fit

end

theorem integer_operator_within {op : Operator} {m n : Int64} {e : EvalError} {v : Value}
    (result : (op.onIntegers m n).getD (.error e) = .ok v) (size : Nat) : v.Within size := by
  cases op with
  | divide | modulus =>
    simp only [Operator.onIntegers, Option.getD_some] at result
    split at result
    · cases result
    · cases result
      trivial
  | equals | notEquals | booleanAnd | booleanOr | booleanNot => cases result
  | _ =>
    cases result
    trivial

theorem operator_within {op : Operator} {heap : Heap} {operands : List Value} {v : Value}
    (result : op.apply heap operands = .ok v) (size : Nat) : v.Within size := by
  unfold Operator.apply at result
  split at result
  case h_6 => exact integer_operator_within result size
  case h_7 => cases result
  all_goals
    cases result
    trivial

def Trusted (invoke : Invocation → Heap → Except Stop Value × Heap) : Prop :=
  ∀ invocation heap, heap.Sound → (∀ r, invocation.this = some r → r < heap.size) →
    (∀ v ∈ invocation.args, v.Within heap.size) →
    (invoke invocation heap).2.Sound ∧ heap.size ≤ (invoke invocation heap).2.size ∧
      ∀ v, (invoke invocation heap).1 = .ok v → v.Within (invoke invocation heap).2.size

section

variable {ctx : Context} {f : Frame} (sound : f.Sound ctx.this)
include sound

theorem read_variable_safe (x : Variable) :
    Safe ctx.this f Value.Within ((readVariable x).run.run f) := by
  rw [read_variable_run]
  cases found : f.locals.get? x.id with
  | none => exact .stop sound _
  | some v => exact .pure sound (sound.locals x.id v found)

theorem write_variable_safe (x : Variable) {v : Value} (within : v.Within f.heap.size) :
    Safe ctx.this f (fun _ _ => True) ((writeVariable x v).run.run f) :=
  ⟨sound.set x.id within, Nat.le_refl _, fun _ _ => trivial⟩

theorem self_safe (cls : TypeName) :
    Safe ctx.this f Value.Within ((ctx.self cls).run.run f) := by
  rw [self_run]
  generalize ctx.this = this at sound ⊢
  cases this with
  | none => exact .stop sound _
  | some r =>
    dsimp only
    split
    · exact .pure sound (sound.receiver r rfl)
    · exact .stop sound _

theorem read_field_safe (v : Value) (name : String) :
    Safe ctx.this f Value.Within ((readField v name).run.run f) := by
  cases v with
  | object k =>
    rw [read_field_run]
    cases found : f.heap.field? k name with
    | none => exact .stop sound _
    | some w => exact .pure sound (sound.heap.field_within found)
  | _ => exact .stop sound _

theorem write_field_safe (v : Value) (name : String) {w : Value} (within : w.Within f.heap.size) :
    Safe ctx.this f (fun _ _ => True) ((writeField v name w).run.run f) := by
  cases v with
  | object k =>
    rw [write_field_run]
    cases f.heap.field? k name with
    | none => exact .stop sound _
    | some old =>
      have grows := (f.heap.keeps_store k name w).grows
      exact ⟨sound.grow (sound.heap.store k name within) grows, grows, fun _ _ => trivial⟩
  | _ => exact .stop sound _

theorem truth_safe (v : Value) : Safe ctx.this f (fun _ _ => True) ((truth v).run.run f) := by
  cases v with
  | boolean b => exact .pure sound trivial
  | _ => exact .stop sound _

theorem operate_safe (op : Operator) (operands : List Value) :
    Safe ctx.this f Value.Within ((operate op operands).run.run f) := by
  have run : (operate op operands).run.run f =
      (ofExcept (op.apply f.heap operands)).run.run f := rfl
  rw [run]
  cases result : op.apply f.heap operands with
  | ok v => exact .pure sound (operator_within result _)
  | error e => exact .stop sound _

theorem allocate_safe (cls : Class) :
    Safe ctx.this f (fun size address => address < size) ((allocate cls).run.run f) := by
  have larger := (f.heap.keeps_alloc (.new cls)).grows
  refine ⟨sound.grow (sound.heap.alloc cls) larger, larger, ?_⟩
  rintro address ⟨⟩
  exact Nat.lt_of_lt_of_eq (Nat.lt_succ_self _) (f.heap.size_alloc (.new cls)).symm

variable (trusted : Trusted ctx.invoke)
include trusted

theorem call_safe (invocation : Invocation)
    (receiver : ∀ r, invocation.this = some r → r < f.heap.size)
    (args : ∀ v ∈ invocation.args, v.Within f.heap.size) :
    Safe ctx.this f Value.Within ((ctx.call invocation).run.run f) := by
  obtain ⟨inside, grows, result⟩ := trusted invocation f.heap sound.heap receiver args
  rw [call_run]
  exact ⟨sound.grow inside grows, grows, result⟩

theorem call_static_safe (cls : TypeName) (method : String) {args : List Value}
    (within : ∀ v ∈ args, v.Within f.heap.size) :
    Safe ctx.this f Value.Within ((ctx.callStatic cls method args).run.run f) := by
  refine (Safe.lookup sound _).bind ?_
  intro owner g sound' grows _
  refine (Safe.lookup sound' _).bind ?_
  intro m h sound'' grows' _
  refine call_safe sound'' trusted _ (by rintro r ⟨⟩) ?_
  intro v member
  exact (within v member).mono (Nat.le_trans grows grows')

theorem call_method_safe {receiver : Value} (here : receiver.Within f.heap.size) (method : String)
    {args : List Value} (within : ∀ v ∈ args, v.Within f.heap.size) :
    Safe ctx.this f Value.Within ((ctx.callMethod receiver method args).run.run f) := by
  cases receiver with
  | object k =>
    rw [call_method_run]
    refine (Safe.lookup sound _).bind ?_
    intro owner g sound' grows _
    refine (Safe.lookup sound' _).bind ?_
    intro m h sound'' grows' _
    have larger := Nat.le_trans grows grows'
    refine call_safe sound'' trusted _ ?_ fun v member => (within v member).mono larger
    rintro r ⟨⟩
    exact Nat.lt_of_lt_of_le here larger
  | _ => exact .stop sound _

theorem construct_safe (ty : Ty) {args : List Value} (within : ∀ v ∈ args, v.Within f.heap.size) :
    Safe ctx.this f Value.Within ((ctx.construct ty args).run.run f) := by
  unfold Context.construct
  cases ty.erasure? with
  | none => exact .stop sound _
  | some name =>
    refine (Safe.lookup sound _).bind ?_
    intro cls g sound' grows _
    split
    · exact .stop sound' _
    · refine (allocate_safe sound' cls).bind ?_
      intro address h sound'' grows' below
      have larger := Nat.le_trans grows grows'
      have built := call_safe sound'' trusted
        ⟨cls.constructor.params, cls.constructor.body, some address, args⟩
        (by rintro r ⟨⟩; exact below) fun v member => (within v member).mono larger
      refine built.discard.bind ?_
      intro _ last still later _
      exact .pure still (Nat.lt_of_lt_of_le below later)

end

def Flow.Within (size : Nat) : Flow → Prop
  | .normal => True
  | .returned v => v.Within size

section

variable {ctx : Context}

theorem expression_list_confined {es : List Expr}
    (each : ∀ e ∈ es, Confined ctx.this Value.Within (e.eval ctx)) :
    Confined ctx.this (fun size vs => ∀ v ∈ vs, v.Within size) (Expr.evalAll ctx es) := by
  induction es with
  | nil => exact fun f sound => .pure sound (by simp)
  | cons e rest ih =>
    intro f sound
    rw [Expr.evalAll]
    refine (each e List.mem_cons_self f sound).bind ?_
    intro v g sound' _ fits
    refine (ih (fun e member => each e (List.mem_cons_of_mem _ member)) g sound').bind ?_
    intro vs h sound'' grows within
    exact .pure sound'' (List.forall_mem_cons.mpr ⟨fits.mono grows, within⟩)

theorem statement_list_confined {ss : List Stmt}
    (each : ∀ s ∈ ss, Confined ctx.this Flow.Within (s.exec ctx)) :
    Confined ctx.this Flow.Within (Stmt.execAll ctx ss) := by
  induction ss with
  | nil => exact fun f sound => .pure sound trivial
  | cons s rest ih =>
    intro f sound
    rw [Stmt.execAll]
    refine (each s List.mem_cons_self f sound).bind ?_
    intro flow g sound' _ fits
    cases flow with
    | normal => exact ih (fun s member => each s (List.mem_cons_of_mem _ member)) g sound'
    | returned v => exact .pure sound' fits

theorem condition_confined {m : Eval Value} (value : Confined ctx.this Value.Within m) :
    Confined ctx.this (fun _ _ => True) (m >>= truth) :=
  fun f sound => (value f sound).bind fun v _ sound' _ _ => truth_safe sound' v

theorem operation_confined (op : Operator) (args : List Expr) (ty : Ty)
    (each : ∀ e ∈ args, Confined ctx.this Value.Within (e.eval ctx)) :
    Confined ctx.this Value.Within ((Expr.operation op args ty).eval ctx) := by
  intro f sound
  rcases operation_cases op args with ⟨left, right, rfl, which⟩ | strict
  · have leftTest := condition_confined (each left (by simp))
    have rightTest := condition_confined (each right (by simp))
    rcases which with rfl | rfl
    · rw [Expr.eval]
      refine (leftTest f sound).bind ?_
      intro holds g sound' _ _
      cases holds with
      | false => exact .pure sound' trivial
      | true => exact (rightTest g sound').bind fun _ _ sound'' _ _ => .pure sound'' trivial
    · rw [Expr.eval]
      refine (leftTest f sound).bind ?_
      intro holds g sound' _ _
      cases holds with
      | true => exact .pure sound' trivial
      | false => exact (rightTest g sound').bind fun _ _ sound'' _ _ => .pure sound'' trivial
  · rw [operation_eval ctx op args ty strict]
    exact (expression_list_confined each f sound).bind fun vs _ sound' _ _ =>
      operate_safe sound' op vs

def Node.Confined (ctx : Context) : Node → Prop
  | .expr e => ClosureLift.Confined ctx.this Value.Within (e.eval ctx)
  | .stmt s => ClosureLift.Confined ctx.this Flow.Within (s.exec ctx)
  | _ => True

theorem assignment_confined {target value : Expr}
    (computed : Confined ctx.this Value.Within (value.eval ctx))
    (under : ∀ c ∈ Node.ofExpr target, c.Confined ctx) :
    Confined ctx.this Value.Within ((Expr.assign target value).eval ctx) := by
  intro f sound
  rw [assign_eval]
  refine (computed f sound).bind ?_
  intro v g sound' _ fits
  cases target with
  | reference ref =>
    rcases ref with x | cls
    · exact (write_variable_safe sound' x fits).bind fun _ _ sound'' grows _ =>
        .pure sound'' (fits.mono grows)
    · exact .stop sound' _
  | fieldAccess receiver name ty =>
    have evaluated : Confined ctx.this Value.Within (receiver.eval ctx) :=
      under (.expr receiver) (by simp [Node.ofExpr])
    refine (evaluated g sound').bind ?_
    intro object h sound'' grows _
    refine (write_field_safe sound'' object name (fits.mono grows)).bind ?_
    intro _ last still later _
    exact .pure still (fits.mono (Nat.le_trans grows later))
  | _ => exact .stop sound' _

variable (trusted : Trusted ctx.invoke)
include trusted

theorem expression_confined (e : Expr) (under : ∀ c ∈ Node.ofExpr e, c.Confined ctx)
    (deeper : ∀ c ∈ Node.ofExpr e, ∀ d ∈ c.children, d.Confined ctx) :
    (Node.expr e).Confined ctx := by
  intro f sound
  cases e with
  | literal value => exact .pure sound (by cases value <;> trivial)
  | reference ref =>
    rcases ref with x | cls
    · exact read_variable_safe sound x
    · exact self_safe sound cls
  | assign target value =>
    simp only [Node.ofExpr, List.forall_mem_cons] at under
    exact assignment_confined under.2.1 (deeper (.expr target) (by simp [Node.ofExpr])) f sound
  | fieldAccess receiver name ty =>
    simp only [Node.ofExpr, List.forall_mem_singleton] at under
    rw [Expr.eval]
    exact (under f sound).bind fun v _ sound' _ _ => read_field_safe sound' v name
  | methodCall receiver method args typeArgs ty =>
    simp only [Node.ofExpr, List.forall_mem_cons, List.forall_mem_map] at under
    rw [Expr.eval]
    refine (under.1 f sound).bind ?_
    intro object g sound' _ fits
    refine (expression_list_confined under.2 g sound').bind ?_
    intro values h sound'' grows within
    exact call_method_safe sound'' trusted (fits.mono grows) method within
  | staticCall cls method args typeArgs ty =>
    simp only [Node.ofExpr, List.forall_mem_map] at under
    rw [Expr.eval]
    refine (expression_list_confined under f sound).bind ?_
    intro values g sound' _ within
    exact call_static_safe sound' trusted cls method within
  | construct ty args =>
    simp only [Node.ofExpr, List.forall_mem_map] at under
    rw [Expr.eval]
    refine (expression_list_confined under f sound).bind ?_
    intro values g sound' _ within
    exact construct_safe sound' trusted ty within
  | operation op args ty =>
    simp only [Node.ofExpr, List.forall_mem_map] at under
    exact operation_confined op args ty under f sound
  | conditional condition ifTrue ifFalse ty =>
    simp only [Node.ofExpr, List.forall_mem_cons] at under
    rw [Expr.eval]
    refine (condition_confined under.1 f sound).bind ?_
    intro holds g sound' _ _
    cases holds with
    | true => exact under.2.1 g sound'
    | false => exact under.2.2.1 g sound'
  | lambda | methodReference | anonymousClass => exact .stop sound _

omit trusted in
theorem statement_confined (s : Stmt) (under : ∀ c ∈ Node.ofStmt s, c.Confined ctx) :
    (Node.stmt s).Confined ctx := by
  intro f sound
  cases s with
  | expr value =>
    simp only [Node.ofStmt, List.forall_mem_singleton] at under
    rw [Stmt.exec]
    exact (under f sound).discard.bind fun _ _ sound' _ _ => .pure sound' trivial
  | ret value =>
    cases value with
    | none => exact .pure sound trivial
    | some value =>
      simp only [Node.ofStmt, Option.map_some, Option.toList_some, List.forall_mem_singleton]
        at under
      rw [Stmt.exec]
      exact (under f sound).bind fun _ _ sound' _ fits => .pure sound' fits
  | decl x init =>
    simp only [Node.ofStmt, List.forall_mem_singleton] at under
    rw [Stmt.exec]
    refine (under f sound).bind ?_
    intro v g sound' _ fits
    exact (write_variable_safe sound' x fits).bind fun _ _ sound'' _ _ => .pure sound'' trivial
  | cond condition thenBranch elseBranch =>
    simp only [Node.ofStmt, List.forall_mem_cons, List.forall_mem_append, List.forall_mem_map]
      at under
    rw [Stmt.exec]
    refine (condition_confined under.1 f sound).bind ?_
    intro holds g sound' _ _
    cases holds with
    | true => exact statement_list_confined under.2.1 g sound'
    | false => exact statement_list_confined under.2.2 g sound'
  | loop condition body =>
    simp only [Node.ofStmt, List.forall_mem_cons, List.forall_mem_map] at under
    rw [Stmt.exec]
    exact (condition_confined under.1).iterate (statement_list_confined under.2)
      (fun _ => trivial) _ f sound

end

theorem parts_confined (ctx : Context) (trusted : Trusted ctx.invoke) (n : Node) :
    n.Confined ctx ∧ ∀ c ∈ n.children, c.Confined ctx := by
  -- The children come along, for an assignment evaluates the receiver of its target alone.
  induction n using Node.by_children with
  | step n ih =>
    have under : ∀ c ∈ n.children, c.Confined ctx := fun c child => (ih c child).1
    refine ⟨?_, under⟩
    cases n with
    | expr e => exact expression_confined trusted e under fun c child => (ih c child).2
    | stmt s => exact statement_confined s under
    | _ => trivial

namespace Locals

theorem fold_within {size : Nat} {bindings : List (Variable × Value)} {locals : Locals}
    {id : Identifier} (all : ∀ b ∈ bindings, b.2.Within size)
    (before : ∀ v, locals.get? id = some v → v.Within size) {v : Value}
    (found : (bindings.foldl (fun locals (x, v) => locals.set x.id v) locals).get? id = some v) :
    v.Within size := by
  induction bindings generalizing locals with
  | nil => exact before v found
  | cons b rest ih =>
    rw [List.forall_mem_cons] at all
    refine ih all.2 ?_ found
    intro w held
    rw [get_set] at held
    split at held
    · cases held
      exact all.1
    · exact before w held

theorem of_arguments_within {params : List Variable} {args : List Value} {size : Nat}
    (within : ∀ v ∈ args, v.Within size) (id : Identifier) (v : Value)
    (found : (ofArguments params args).get? id = some v) : v.Within size := by
  apply fold_within _ _ found
  · intro b member
    exact within b.2 (List.of_mem_zip member).2
  · rintro w ⟨⟩

end Locals

theorem invoke_trusted (program : Program) (limits : Limits) (n : Nat) :
    Trusted (program.invoke limits n) := by
  induction n with
  | zero =>
    intro invocation heap sound _ _
    exact ⟨sound, Nat.le_refl _, by rintro v ⟨⟩⟩
  | succ n ih =>
    intro invocation heap sound receiver args
    have body : Confined (program.inside limits n invocation.this).this Flow.Within
        (Stmt.execAll (program.inside limits n invocation.this) invocation.body) := by
      apply statement_list_confined
      intro s _
      exact (parts_confined (program.inside limits n invocation.this) ih (.stmt s)).1
    have run := body ⟨heap, .ofArguments invocation.params invocation.args⟩
      ⟨sound, Locals.of_arguments_within args, receiver⟩
    rw [invoke_succ]
    refine ⟨run.sound.heap, run.grows, ?_⟩
    dsimp only
    generalize (Stmt.execAll _ _).run.run _ = ended at run ⊢
    obtain ⟨result, frame⟩ := ended
    cases result with
    | error stop => rintro v ⟨⟩
    | ok flow =>
      have fits := run.result flow rfl
      rintro v ⟨⟩
      cases flow with
      | normal => trivial
      | returned v => exact fits

theorem evaluation_sound (program : Program) (limits : Limits) (levels : Nat) (this : Option Nat)
    (e : Expr) : Confined this Value.Within (e.eval (program.inside limits levels this)) :=
  (parts_confined (program.inside limits levels this) (invoke_trusted program limits levels)
    (.expr e)).1

end ClosureLift
