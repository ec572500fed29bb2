import ClosureLift.Proofs.Machine.Simulation

/-!
Calls beside an object that nobody knows of. A body sees the heap through its parameters and its
instance, so a call with displaced arguments on a displaced heap is answered by the displaced
answer, at any nesting.
-/
namespace ClosureLift

open Eval

namespace Locals

theorem get_set (locals : Locals) (id other : Identifier) (v : Value) :
    (locals.set id v).get? other = if other = id then some v else locals.get? other := by
  induction locals with
  | nil =>
    by_cases same : other = id
    · simp [set, get?, same]
    · simp [set, get?, List.lookup_cons, same, beq_eq_false_iff_ne.mpr same]
  | cons entry rest ih =>
    obtain ⟨key, w⟩ := entry
    simp only [get?] at ih
    simp only [set]
    by_cases here : key = id
    · subst here
      by_cases same : other = key
      · simp [get?, same]
      · simp [get?, List.lookup_cons, same, beq_eq_false_iff_ne.mpr same]
    · rw [if_neg here]
      by_cases same : other = key
      · subst same
        simp [get?, here]
      · simp only [get?, List.lookup_cons, beq_eq_false_iff_ne.mpr same, ih]

def ShiftedOutside (a : Nat) (ids : List Identifier) (locals locals' : Locals) : Prop :=
  ∀ id, id ∉ ids → locals'.get? id = (locals.get? id).map (Value.shift a)

theorem ShiftedOutside.set {a : Nat} {ids : List Identifier} {locals locals' : Locals}
    (shifted : ShiftedOutside a ids locals locals') (id : Identifier) (v : Value) :
    ShiftedOutside a ids (locals.set id v) (locals'.set id (v.shift a)) := by
  intro other outside
  rw [get_set, get_set, shifted other outside]
  split <;> rfl

theorem ShiftedOutside.fold {a : Nat} {ids : List Identifier} {locals locals' : Locals}
    (shifted : ShiftedOutside a ids locals locals') (params : List Variable) (args : List Value) :
    ShiftedOutside a ids
      ((params.zip args).foldl (fun locals (x, v) => locals.set x.id v) locals)
      ((params.zip (args.map (Value.shift a))).foldl (fun locals (x, v) => locals.set x.id v)
        locals') := by
  rw [List.zip_map_right]
  generalize params.zip args = bindings
  induction bindings generalizing locals locals' with
  | nil => exact shifted
  | cons b rest ih => exact ih (shifted.set b.1.id b.2)

theorem of_arguments_shift (a : Nat) (params : List Variable) (args : List Value) :
    ShiftedOutside a [] (ofArguments params args)
      (ofArguments params (args.map (Value.shift a))) := by
  have empty : ShiftedOutside a [] [] [] := fun _ _ => rfl
  exact empty.fold params args

end Locals

mutual

theorem Expr.replaced_nil : (e : Expr) → e.replaced [] = e
  | .literal _ | .reference _ | .lambda _ | .methodReference _ | .anonymousClass _ => rfl
  | .assign target value => by
    rw [Expr.replaced, Expr.replaced_nil target, Expr.replaced_nil value]
  | .fieldAccess receiver _ _ => by rw [Expr.replaced, Expr.replaced_nil receiver]
  | .methodCall receiver _ args _ _ => by
    rw [Expr.replaced, Expr.replaced_nil receiver, Expr.replacedAll_nil args]
  | .staticCall _ _ args _ _ | .construct _ args | .operation _ args _ => by
    rw [Expr.replaced, Expr.replacedAll_nil args]
  | .conditional condition ifTrue ifFalse _ => by
    rw [Expr.replaced, Expr.replaced_nil condition, Expr.replaced_nil ifTrue,
      Expr.replaced_nil ifFalse]

theorem Expr.replacedAll_nil : (es : List Expr) → Expr.replacedAll [] es = es
  | [] => rfl
  | e :: rest => by rw [Expr.replacedAll, Expr.replaced_nil e, Expr.replacedAll_nil rest]

end

mutual

theorem Stmt.replaced_nil : (s : Stmt) → s.replaced [] = s
  | .expr value => by rw [Stmt.replaced, Expr.replaced_nil value]
  | .ret none => rfl
  | .ret (some value) => by rw [Stmt.replaced, Expr.replaced_nil value]
  | .decl _ init => by rw [Stmt.replaced, Expr.replaced_nil init]
  | .cond condition thenBranch elseBranch => by
    rw [Stmt.replaced, Expr.replaced_nil condition, Stmt.replacedAll_nil thenBranch,
      Stmt.replacedAll_nil elseBranch]
  | .loop condition body => by
    rw [Stmt.replaced, Expr.replaced_nil condition, Stmt.replacedAll_nil body]

theorem Stmt.replacedAll_nil : (ss : List Stmt) → Stmt.replacedAll [] ss = ss
  | [] => rfl
  | s :: rest => by rw [Stmt.replacedAll, Stmt.replaced_nil s, Stmt.replacedAll_nil rest]

end

theorem read_variable_run (x : Variable) (f : Frame) :
    (readVariable x).run.run f =
      match f.locals.get? x.id with
      | some v => (.ok v, f)
      | none => (.error (.fault (.unboundVariable x.name)), f) := by
  have run : (readVariable x).run.run f =
      (match f.locals.get? x.id with
        | some v => (pure v : Eval Value)
        | none => fault (.unboundVariable x.name)).run.run f := rfl
  rw [run]
  cases f.locals.get? x.id <;> rfl

section

variable {a : Nat} {coupling : Coupling}

theorem read_variable_simulates (x : Variable)
    (shifted : ∀ extra heap locals locals', coupling extra heap locals locals' →
      locals'.get? x.id = (locals.get? x.id).map (Value.shift a)) :
    Simulates (coupling.Frames a) (Value.shift a) (readVariable x) (readVariable x) := by
  intro f g holds
  obtain ⟨extra, displaced, coupled⟩ := holds
  rw [read_variable_run, read_variable_run, shifted _ _ _ _ coupled]
  cases f.locals.get? x.id <;> exact ⟨rfl, extra, displaced, coupled⟩

theorem write_variable_simulates (x : Variable) (v : Value)
    (kept : ∀ extra heap locals locals', coupling extra heap locals locals' →
      coupling extra heap (locals.set x.id v) (locals'.set x.id (v.shift a))) :
    Simulates (coupling.Frames a) id (writeVariable x v) (writeVariable x (v.shift a)) := by
  intro f g holds
  obtain ⟨extra, displaced, coupled⟩ := holds
  exact ⟨rfl, extra, displaced, kept _ _ _ _ coupled⟩

theorem self_run (ctx : Context) (cls : TypeName) (f : Frame) :
    (ctx.self cls).run.run f =
      (match ctx.this with
        | some address =>
          if f.heap.className address = cls then (pure (.object address) : Eval Value)
          else fault (.missingThis cls)
        | none => fault (.missingThis cls)).run.run f := rfl

end

def Coupling.aside (a : Nat) (extra : Object) (base : Heap) : Coupling :=
  fun object heap locals locals' =>
    object = extra ∧ base.Keeps heap ∧ Locals.ShiftedOutside a [] locals locals'

theorem aside_lasting (a : Nat) (extra : Object) (base : Heap) :
    (Coupling.aside a extra base).Lasting := by
  intro object before after locals locals' coupled kept
  exact ⟨coupled.1, coupled.2.1.trans kept, coupled.2.2⟩

theorem aside_linked {a : Nat} {extra : Object} {base : Heap} {first second : Context}
    (this : second.this = first.this.map (past a)) (n : Node) :
    Linked (Coupling.aside a extra base) a [] first second n where
  reads := by
    intro ref _
    rcases ref with x | cls
    · apply read_variable_simulates
      intro object heap locals locals' coupled
      exact coupled.2.2 x.id (by simp)
    · intro f g holds
      have displaced := holds.choose_spec.1
      rw [Expr.eval, self_run, Substitution.reference, Substitution.get?, List.reverse_nil,
        List.lookup_nil, Option.getD_none, Expr.eval, self_run, this]
      cases first.this with
      | none => exact ⟨rfl, holds⟩
      | some address =>
        simp only [Option.map_some, displaced.className_past]
        split <;> exact ⟨rfl, holds⟩
  writes := by
    intro ref value _ v
    rcases ref with x | cls
    · refine (write_variable_simulates x v ?_).bind fun _ => .pure v
      intro object heap locals locals' coupled
      exact ⟨coupled.1, coupled.2.1, coupled.2.2.set x.id v⟩
    · exact .fault _
  declares := by
    intro x init _ v
    apply write_variable_simulates
    intro object heap locals locals' coupled
    exact ⟨coupled.1, coupled.2.1, coupled.2.2.set x.id v⟩

def Flow.value : Flow → Value
  | .normal => .unit
  | .returned v => v

theorem value_shift (a : Nat) (result : Except Stop Flow) :
    (result.map (Flow.shift a)).map Flow.value = (result.map Flow.value).map (Value.shift a) := by
  cases result with
  | error stop => rfl
  | ok flow => cases flow <;> rfl

def Program.inside (program : Program) (limits : Limits) (levels : Nat) (this : Option Nat) :
    Context :=
  ⟨program, limits, this, program.invoke limits levels⟩

theorem invoke_succ (program : Program) (limits : Limits) (n : Nat) (invocation : Invocation)
    (heap : Heap) :
    program.invoke limits (n + 1) invocation heap =
      let ended := (Stmt.execAll (program.inside limits n invocation.this)
        invocation.body).run.run ⟨heap, .ofArguments invocation.params invocation.args⟩
      (ended.1.map Flow.value, ended.2.heap) := by
  rw [Program.invoke, Program.inside]
  generalize (Stmt.execAll _ _).run.run _ = ended
  obtain ⟨result, frame⟩ := ended
  cases result with
  | error stop => rfl
  | ok flow => cases flow <;> rfl

/-- Calls are answered the same way wherever the added object stands. -/
theorem invoke_answers (program : Program) (limits : Limits) (a n : Nat) :
    Answers a (program.invoke limits n) (program.invoke limits n) := by
  induction n with
  | zero =>
    intro invocation extra before after displaced
    exact ⟨rfl, displaced, .refl before⟩
  | succ n ih =>
    intro invocation extra before after displaced
    have mirrors : Mirrors a (program.inside limits n invocation.this)
        (program.inside limits n (invocation.shift a).this) := ⟨rfl, rfl, ih⟩
    have run := body_simulates (aside_lasting a extra before) mirrors
      invocation.body (fun m _ => aside_linked rfl m)
      ⟨before, .ofArguments invocation.params invocation.args⟩
      ⟨after, .ofArguments invocation.params (invocation.args.map (Value.shift a))⟩
      ⟨extra, displaced, rfl, .refl before, Locals.of_arguments_shift a _ _⟩
    rw [Stmt.replacedAll_nil] at run
    obtain ⟨same, object, moved, rfl, kept, _⟩ := run
    rw [invoke_succ, invoke_succ]
    refine ⟨?_, moved, kept⟩
    rw [← value_shift, ← same]
    rfl

theorem expressions_aside (program : Program) (limits : Limits) (levels : Nat) {a : Nat}
    {this : Option Nat} (unmoved : this.map (past a) = this) (extra : Object) (base : Heap)
    (es : List Expr) :
    Simulates ((Coupling.aside a extra base).Frames a) (List.map (Value.shift a))
      (Expr.evalAll (program.inside limits levels this) es)
      (Expr.evalAll (program.inside limits levels this) es) := by
  have mirrors : Mirrors a (program.inside limits levels this)
      (program.inside limits levels this) := ⟨rfl, rfl, invoke_answers program limits a levels⟩
  have simulated : Simulates ((Coupling.aside a extra base).Frames a) (List.map (Value.shift a))
      (Expr.evalAll (program.inside limits levels this) es)
      (Expr.evalAll (program.inside limits levels this) (Expr.replacedAll [] es)) := by
    apply expression_list_simulates
    intro e _
    exact parts_simulate (aside_lasting a extra base) mirrors (.expr e)
      (fun m _ => aside_linked unmoved.symm m) (.expr e) (Node.self_mem_preorder _)
  rw [Expr.replacedAll_nil] at simulated
  exact simulated

end ClosureLift
