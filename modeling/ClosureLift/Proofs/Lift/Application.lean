import ClosureLift.Proofs.Lift.Capturing
import ClosureLift.Proofs.Machine.Soundness

/-!
Calling a lifted closure. A call of the method on a new instance goes as if the body ran where the
closure stood, with the captured variables as further parameters. The values and the errors are the
same, and so is the heap, but for the instance itself, which the body does not see.
-/
namespace ClosureLift

open Eval

/-- Two outcomes that differ by an object added at `a` only. -/
structure Beside (a : Nat) (extra : Object) (plain beside : Except Stop Value × Frame) : Prop where
  result : beside.1 = plain.1.map (Value.shift a)
  heap : Displaced a extra plain.2.heap beside.2.heap
  locals : Locals.ShiftedOutside a [] plain.2.locals beside.2.locals

theorem method_call_eval {ctx : Context} {receiver : Expr} {v : Value} {f g : Frame}
    (evaluated : (receiver.eval ctx).run.run f = (.ok v, g)) (method : String) (args : List Expr)
    (typeArgs : List Ty) (ty : Ty) :
    ((Expr.methodCall receiver method args typeArgs ty).eval ctx).run.run f =
      (Expr.evalAll ctx args >>= fun given => ctx.callMethod v method given).run.run g := by
  rw [Expr.eval, run_bind, evaluated]

namespace ClosureBody

variable (closure : ClosureBody) {name : TypeName} {slots : List Slot} {params : List Variable}

theorem lifted_callee {args : List Value} (arity : args.length = closure.params.length) :
    ((closure.shape name).outcome slots params).cls.callee closure.method args =
      .ok ⟨closure.method, false, [], closure.params, closure.returnType,
        Stmt.replacedAll ((closure.shape name).substitution slots) closure.body⟩ := by
  simp [Class.callee, Class.method?, Shape.outcome, Shape.rewritten, shape, arity]

theorem call_lifted {program : Program} (limits : Limits) (levels : Nat) (this : Option Nat)
    {f : Frame} {a : Nat} {args : List Value}
    (known : program.runtimeClass name = .ok ((closure.shape name).outcome slots params).cls)
    (own : f.heap.className a = name) (arity : args.length = closure.params.length) :
    ((program.inside limits (levels + 1) this).callMethod (.object a) closure.method
        args).run.run f =
      let ended := (Stmt.execAll (program.inside limits levels (some a))
        (Stmt.replacedAll ((closure.shape name).substitution slots) closure.body)).run.run
          ⟨f.heap, .ofArguments closure.params args⟩
      (ended.1.map Flow.value, { f with heap := ended.2.heap }) := by
  have found : (program.inside limits (levels + 1) this).program.runtimeClass name = _ := known
  rw [call_method_run, own, found, of_except_ok, pure_bind, closure.lifted_callee arity,
    of_except_ok, pure_bind, call_run]
  dsimp only [Program.inside]
  rw [invoke_succ]
  rfl

theorem lifted_call {program : Program} {limits : Limits} {levels a : Nat} {this : Option Nat}
    {f g : Frame} {filled : Object} {bound : List Variable} {values given : List Value}
    (supplies : Supplies slots closure.body) (separates : Separates closure.body)
    (known : program.runtimeClass name = .ok ((closure.shape name).outcome slots params).cls)
    (arity : given.length = closure.params.length)
    (displaced : Displaced a filled f.heap g.heap)
    (locals : Locals.ShiftedOutside a [] f.locals g.locals)
    (carries : Carries a name this slots filled f.heap (.ofArguments bound values)
      (.ofArguments closure.params (given.map (Value.shift a)))) :
    ∃ object : Object, object.cls = name ∧ Beside a object
      (((program.inside limits (levels + 1) this).call
        ⟨bound, closure.body, this, values⟩).run.run f)
      (((program.inside limits (levels + 1) this).callMethod (.object a) closure.method
        (given.map (Value.shift a))).run.run g) := by
  have mirrors : Mirrors a (program.inside limits levels this)
      (program.inside limits levels (some a)) :=
    ⟨rfl, rfl, invoke_answers program limits a levels⟩
  have linked := lifted_body_linked (closure.shape name) (program.inside limits levels this)
    (program.inside limits levels (some a)) supplies separates rfl
  obtain ⟨same, object, moved, carried⟩ :=
    body_simulates carries_lasting mirrors closure.body linked
    ⟨f.heap, .ofArguments bound values⟩
    ⟨g.heap, .ofArguments closure.params (given.map (Value.shift a))⟩ ⟨filled, displaced, carries⟩
  refine ⟨object, carried.cls, ?_⟩
  have own : g.heap.className a = name := displaced.className_added.trans carries.cls
  rw [closure.call_lifted limits levels this known own (by rw [List.length_map, arity]), call_run]
  dsimp only [Program.inside]
  rw [invoke_succ]
  refine ⟨?_, moved, locals⟩
  rw [← value_shift, ← same]
  rfl

theorem captured_bound (locals : Locals) (given : List Value) {x : Variable}
    (member : x ∈ closure.captured) :
    (Locals.ofArguments (closure.captured ++ closure.params)
      (closure.captured.map (locals.held ·.id) ++ given)).get? x.id = some (locals.held x.id) := by
  rw [Locals.of_arguments_append (List.length_map _).symm, Locals.get_fold_outside]
  · exact Locals.get_fold_held locals closure.captured (Or.inl (List.mem_map_of_mem member))
  · intro inside
    obtain ⟨b, among, same⟩ := List.mem_map.mp inside
    exact closure.captured_not_parameter member (List.of_mem_zip among).1 same.symm

/-- The body run where the closure stands: the captured variables are read first, then the arguments
are evaluated, and the body finds both in its locals. -/
def inPlace (ctx : Context) (args : List Expr) : Eval Value := do
  let held ← Expr.evalAll ctx (closure.captured.map .var)
  let given ← Expr.evalAll ctx args
  ctx.call ⟨closure.captured ++ closure.params, closure.body, ctx.this, held ++ given⟩

/-- A frame that has what a closure takes: the captured variables are bound, and the current
instance is one of every class whose instance the body names. -/
structure Provided (this : Option Nat) (frame : Frame) : Prop where
  bound : ∀ x ∈ closure.captured, (frame.locals.get? x.id).isSome = true
  receiver : ∀ cls, .expr (.this cls) ∈ Stmt.nodesAll closure.body →
    ∃ r, this = some r ∧ frame.heap.className r = cls

end ClosureBody

theorem Frame.Sound.locals_shift {this : Option Nat} {frame : Frame} (sound : frame.Sound this) :
    Locals.ShiftedOutside frame.heap.size [] frame.locals frame.locals := by
  intro id _
  cases found : frame.locals.get? id with
  | none => rfl
  | some v => rw [Option.map_some, Value.shift_within (sound.locals id v found)]

theorem Frame.Sound.receiver_past {this : Option Nat} {frame : Frame} (sound : frame.Sound this) :
    this.map (past frame.heap.size) = this := by
  cases this with
  | none => rfl
  | some r => rw [Option.map_some, past_below (sound.receiver r rfl)]

def Capture.valueIn (this : Option Nat) (locals : Locals) : Capture → Value
  | .variable x => locals.held x.id
  | .this _ => this.elim .unit .object
  | .value _ _ => .unit

theorem Capture.Holds.within {this : Option Nat} {frame : Frame} (sound : frame.Sound this)
    {c : Capture} {v : Value} (holds : c.Holds this frame.heap frame.locals v) :
    v.Within frame.heap.size := by
  rcases c with x | cls | _
  · exact sound.locals x.id v holds
  · obtain ⟨r, _, below, _, rfl⟩ := holds
    exact below
  · cases holds

theorem evaluated_length (ctx : Context) (es : List Expr) (f : Frame) {vs : List Value}
    (run : ((Expr.evalAll ctx es).run.run f).1 = .ok vs) : vs.length = es.length := by
  induction es generalizing f vs with
  | nil =>
    cases run
    rfl
  | cons e rest ih =>
    rw [Expr.evalAll] at run
    obtain ⟨v, g, _, later⟩ := ok_of_bind (Prod.ext run rfl)
    obtain ⟨vs, g', evaluated, done⟩ := ok_of_bind later
    cases done
    exact congrArg (· + 1) (ih g (congrArg Prod.fst evaluated))

namespace ClosureBody.Provided

variable {closure : ClosureBody} {this : Option Nat} {frame : Frame}
  (provided : closure.Provided this frame)
include provided

theorem reads {x : Variable} (member : x ∈ closure.captured) :
    frame.locals.get? x.id = some (frame.locals.held x.id) := by
  obtain ⟨v, bound⟩ := Option.isSome_iff_exists.mp (provided.bound x member)
  rw [Locals.held, bound, Option.getD_some]

theorem in_place_run (ctx : Context) (args : List Expr) :
    (closure.inPlace ctx args).run.run frame =
      (Expr.evalAll ctx args >>= fun given => ctx.call ⟨closure.captured ++ closure.params,
        closure.body, ctx.this,
        closure.captured.map (frame.locals.held ·.id) ++ given⟩).run.run frame := by
  have captured : (Expr.evalAll ctx (closure.captured.map .var)).run.run frame =
      (.ok (closure.captured.map (frame.locals.held ·.id)), frame) := by
    apply expression_list_run
    rw [List.forall₂_map_left_iff, List.forall₂_map_right_iff, List.forall₂_same]
    intro x member
    rw [Expr.var, Expr.eval, read_variable_run, provided.reads member]
  rw [inPlace, run_bind, captured]

variable (sound : frame.Sound this) {name : TypeName} {options : LiftOptions}
include sound

theorem holds {slot : Slot} (member : slot ∈ (closure.shape name).slots [] options) :
    slot.capture.Holds this frame.heap frame.locals (slot.capture.valueIn this frame.locals) := by
  obtain ⟨ref, free, found⟩ := (closure.shape name).slot_of_free_reference member
  rw [found]
  rcases ref with x | cls
  · exact provided.reads (closure.captured_of_free free)
  · obtain ⟨r, here, own⟩ := provided.receiver cls (closure.free_reference_in_body free)
    exact ⟨r, here, sound.receiver r here, own, by rw [here]; rfl⟩

theorem carries {filled : Object} {heap : Heap} (own : filled.cls = name)
    (stored : ∀ slot ∈ (closure.shape name).slots [] options,
      filled.fields.lookup slot.field = some (slot.capture.valueIn this frame.locals))
    (kept : frame.heap.Keeps heap) (given : List Value) :
    Carries frame.heap.size name this ((closure.shape name).slots [] options) filled heap
      (.ofArguments (closure.captured ++ closure.params)
        (closure.captured.map (frame.locals.held ·.id) ++ given))
      (.ofArguments closure.params (given.map (Value.shift frame.heap.size))) where
  cls := own
  held := by
    intro slot member
    have before := provided.holds sound member
    refine ⟨slot.capture.valueIn this frame.locals, ?_, ?_⟩
    · obtain ⟨ref, free, found⟩ := (closure.shape name).slot_of_free_reference member
      have later := before.keep kept
      rw [found] at later ⊢
      rcases ref with x | cls
      · exact closure.captured_bound frame.locals given (closure.captured_of_free free)
      · exact later
    · rw [stored slot member, Value.shift_within (before.within sound)]
  others := by
    have start : Locals.ShiftedOutside frame.heap.size
        (((closure.shape name).slots [] options).map (·.capture.key))
        (.ofArguments closure.captured (closure.captured.map (frame.locals.held ·.id))) [] := by
      intro id outside
      rw [Locals.get_of_arguments_outside]
      · rfl
      · intro member
        obtain ⟨x, captured, rfl⟩ := List.mem_map.mp member
        exact outside (closure.captured_key captured)
    rw [Locals.of_arguments_append (List.length_map _).symm]
    exact start.fold closure.params given

theorem called_beside {program : Program} (limits : Limits) (levels : Nat) {params : List Variable}
    (separates : Separates closure.body)
    (known : program.runtimeClass name =
      .ok ((closure.shape name).outcome ((closure.shape name).slots [] options) params).cls)
    {filled : Object} {heap : Heap} (own : filled.cls = name)
    (stored : ∀ slot ∈ (closure.shape name).slots [] options,
      filled.fields.lookup slot.field = some (slot.capture.valueIn this frame.locals))
    (displaced : Displaced frame.heap.size filled frame.heap heap)
    {args : List Expr} (arity : args.length = closure.params.length) :
    ∃ object : Object, object.cls = name ∧ Beside frame.heap.size object
      ((closure.inPlace (program.inside limits (levels + 1) this) args).run.run frame)
      ((Expr.evalAll (program.inside limits (levels + 1) this) args >>= fun given =>
        (program.inside limits (levels + 1) this).callMethod (.object frame.heap.size)
          closure.method given).run.run ⟨heap, frame.locals⟩) := by
  obtain ⟨same, object, moved, rfl, kept, locals⟩ :=
    expressions_aside program limits (levels + 1) sound.receiver_past filled frame.heap args
      frame ⟨heap, frame.locals⟩ ⟨filled, displaced, rfl, .refl _, sound.locals_shift⟩
  have lengths := @evaluated_length (program.inside limits (levels + 1) this) args frame
  rw [provided.in_place_run, run_bind, run_bind]
  generalize (Expr.evalAll _ args).run.run frame = plain at same moved kept locals lengths ⊢
  generalize (Expr.evalAll _ args).run.run ⟨heap, frame.locals⟩ = beside at same moved locals ⊢
  obtain ⟨result, f⟩ := plain
  obtain ⟨result', g⟩ := beside
  cases result with
  | error stop =>
    -- An argument that fails ends both sides, with the instance built on one of them.
    cases same
    exact ⟨object, own, rfl, moved, locals⟩
  | ok given =>
    cases same
    exact closure.lifted_call (closure.supplies name options) separates known
      ((lengths rfl).trans arity) moved locals (provided.carries sound own stored kept given)

end ClosureBody.Provided

/-- Calling a lifted closure does what its body does in place, at any depth of nesting that allows a
call. The values, the errors and the effects are the same, but for the address of the one object
that the call is made on. -/
theorem ClosureBody.application_preserved (closure : ClosureBody) {scope : Identifier}
    {enclosing : TypeName} {options : LiftOptions} {table table' : ScopeTable} {lifted : Lifted}
    (lifts : (closure.lift scope enclosing options).run.run table = (.ok lifted, table'))
    (free : Node.ClosureFree (closure.body.map .stmt)) (separates : Separates closure.body)
    {program : Program} (known : program.runtimeClass lifted.cls.name = .ok lifted.cls)
    {limits : Limits} {depth : Nat} (shallow : depth < limits.depth) {this : Option Nat}
    {frame : Frame} (sound : frame.Sound this) (provided : closure.Provided this frame)
    (args : List Expr) (arity : args.length = closure.params.length) (typeArgs : List Ty)
    (ty : Ty) :
    let ctx := program.inside limits (limits.depth - depth) this
    let called := ((Expr.methodCall lifted.construction closure.method args typeArgs ty).eval
      ctx).run.run frame
    called.2.Sound this ∧ ∃ object : Object, object.cls = lifted.cls.name ∧
      Beside frame.heap.size object ((closure.inPlace ctx args).run.run frame) called := by
  intro ctx called
  refine ⟨(evaluation_sound program limits _ this _ frame sound).sound, ?_⟩
  obtain ⟨name, params, rfl, each, distinct⟩ := closure.lift_inversion free lifts
  obtain ⟨levels, left⟩ : ∃ levels, limits.depth - depth = levels + 1 :=
    ⟨limits.depth - depth - 1, by omega⟩
  have holds : ∀ slot ∈ (closure.shape name).slots [] options, slot.capture.Holds this frame.heap
      frame.locals (slot.capture.valueIn this frame.locals) :=
    fun _ member => provided.holds sound member
  obtain ⟨filled, heap, displaced, own, built, stored⟩ :=
    construction_runs (closure.shape name) limits levels
      (List.forall₂_map_right_iff.mpr (List.forall₂_same.mpr holds)) each distinct
      (closure.supplies name options).fields known sound.heap
  rw [List.forall₂_map_right_iff, List.forall₂_same] at stored
  simp only [called, ctx, left]
  rw [method_call_eval built]
  exact provided.called_beside sound limits levels separates known own stored displaced arity

/-- A closure that assigns to what it captures, a variable and a field of the instance around it. -/
def ClosureBody.tally : ClosureBody :=
  let n : Variable := ⟨((Identifier.top.type ⟨"Counter"⟩).method "run").var "n", "n", .integer⟩
  let k : Variable := ⟨((Identifier.top.type ⟨"Counter"⟩).method "run").var "k", "k", .integer⟩
  let total : Expr := .fieldAccess (.this ⟨"Counter"⟩) "total" .integer
  ⟨⟨"IntUnaryOperator"⟩, "applyAsInt", [k], .integer,
    [.expr (.assign (.var n) (.operation .add [.var n, .var k] .integer)),
      .expr (.assign total (.operation .add [total, .var n] .integer)), .ret (some (.var n))],
    [], .dummy⟩

def Frame.counting : Frame where
  heap := ⟨#[⟨⟨"Counter"⟩, [("total", .integer 5)]⟩]⟩
  locals := [(((Identifier.top.type ⟨"Counter"⟩).method "run").var "n", .integer 3)]

theorem counting_sound : Frame.counting.Sound (some 0) where
  heap := by
    intro k object there
    cases k with
    | zero =>
      cases there
      intro f member
      rw [List.mem_singleton.mp member]
      trivial
    | succ k => cases there
  locals := by
    intro id v found
    simp only [Locals.get?, Frame.counting, List.lookup_cons, List.lookup_nil] at found
    split at found
    · cases found
      trivial
    · cases found
  receiver := by
    rintro r ⟨⟩
    exact Nat.zero_lt_one

theorem tally_captured : ClosureBody.tally.captured = List.replicate 4
    ⟨((Identifier.top.type ⟨"Counter"⟩).method "run").var "n", "n", .integer⟩ := by
  decide +kernel

theorem tally_provided : ClosureBody.tally.Provided (some 0) Frame.counting where
  bound := by
    rw [tally_captured]
    decide
  receiver := by
    intro cls occurs
    simp [ClosureBody.tally, Stmt.nodesAll, Stmt.nodes, Expr.nodes, Expr.nodesAll, Expr.this,
      Expr.var] at occurs
    exact ⟨0, rfl, occurs ▸ rfl⟩

theorem tally_separates : Separates ClosureBody.tally.body where
  apart := by
    intro x cls inside occurs
    simp [ClosureBody.tally, Stmt.nodesAll, Stmt.nodes, Expr.nodes, Expr.nodesAll, Expr.this,
      Expr.var] at inside occurs
    subst occurs
    rcases inside with rfl | rfl | rfl <;> decide
  fixed := by
    intro cls value
    simp [ClosureBody.tally, Stmt.nodesAll, Stmt.nodes, Expr.nodes, Expr.nodesAll, Expr.this,
      Expr.var]

theorem ClosureBody.tally_application_preserved :
    ∃ lifted table, (tally.lift .top ⟨"Counter"⟩ .standard).run.run (.empty "_cassis_tmp_") =
        (.ok lifted, table) ∧
      let called := ((Expr.methodCall lifted.construction "applyAsInt" [.literal (.integer 4)] []
        .integer).eval ((Program.mk "tally" ⟨[]⟩ [lifted.cls]).inside .standard 64
          (some 0))).run.run Frame.counting
      called.1 = .ok (.integer 7) ∧ called.2.heap.field? 0 "total" = some (.integer 12) := by
  have runs : (((tally.lift .top ⟨"Counter"⟩ .standard).run.run (.empty "_cassis_tmp_")).1.map
      (·.slots.length)) = .ok 2 := by decide +kernel
  cases lifts : (tally.lift .top ⟨"Counter"⟩ .standard).run.run (.empty "_cassis_tmp_") with
  | mk result table =>
    rw [lifts] at runs
    cases result with
    | error e => cases runs
    | ok lifted =>
      have known : (Program.mk "tally" ⟨[]⟩ [lifted.cls]).runtimeClass lifted.cls.name =
          .ok lifted.cls := by simp [Program.runtimeClass]
      have depth : 0 < Limits.standard.depth := by decide
      have free : Node.ClosureFree (tally.body.map .stmt) := by
        unfold Node.ClosureFree
        decide
      obtain ⟨_, object, _, beside⟩ := application_preserved tally lifts free tally_separates known
        depth counting_sound tally_provided [.literal (.integer 4)] rfl [] .integer
      have plain : ∃ heap, heap.field? 0 "total" = some (.integer 12) ∧
          (tally.inPlace ((Program.mk "tally" ⟨[]⟩ [lifted.cls]).inside .standard 64 (some 0))
            [.literal (.integer 4)]).run.run Frame.counting =
            (.ok (.integer 7), ⟨heap, Frame.counting.locals⟩) := by
        rw [inPlace, tally_captured]
        exact ⟨_, rfl, rfl⟩
      obtain ⟨heap, total, ran⟩ := plain
      have moved := beside.heap.field_past 0 "total"
      refine ⟨lifted, table, rfl, beside.result.trans ?_, moved.trans ?_⟩
      · exact congrArg (fun outcome => outcome.1.map (Value.shift 1)) ran
      · exact (congrArg (fun outcome => (outcome.2.heap.field? 0 "total").map (Value.shift 1))
          ran).trans (congrArg (Option.map (Value.shift 1)) total)

end ClosureLift
