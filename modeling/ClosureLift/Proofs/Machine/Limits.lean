import ClosureLift.Proofs.Machine.Calls
import ClosureLift.Proofs.Machine.Congruence

/-!
The limits of a run only cut it off. A run with more levels of nesting to spend, or with more turns
for each loop, does step for step what the run with less does, until that one is stopped by its
limit. So the limits decide whether there is an answer and never which one.
-/
namespace ClosureLift

open Eval

/-- The second evaluation does what the first does, or goes on where the first stops in a way that
is excused. -/
def Continues (excused : Stop → Prop) (m n : Eval α) : Prop :=
  ∀ f, (∃ stop, (m.run.run f).1 = .error stop ∧ excused stop) ∨ n.run.run f = m.run.run f

theorem bind_stopped {m : Eval α} {f : Frame} {stop : Stop}
    (stopped : (m.run.run f).1 = .error stop) (next : α → Eval β) :
    ((m >>= next).run.run f).1 = .error stop := by
  rw [run_bind]
  generalize m.run.run f = outcome at stopped ⊢
  obtain ⟨result, g⟩ := outcome
  cases stopped
  rfl

namespace Continues

variable {excused : Stop → Prop}

theorem refl (m : Eval α) : Continues excused m m := fun _ => Or.inr rfl

theorem bind {m n : Eval α} {next next' : α → Eval β} (head : Continues excused m n)
    (tail : ∀ a, Continues excused (next a) (next' a)) :
    Continues excused (m >>= next) (n >>= next') := by
  intro f
  rcases head f with ⟨stop, stopped, excuse⟩ | same
  · exact Or.inl ⟨stop, bind_stopped stopped next, excuse⟩
  · rw [run_bind, run_bind, same]
    generalize m.run.run f = outcome
    obtain ⟨result, g⟩ := outcome
    cases result with
    | ok a => exact tail a g
    | error stop => exact Or.inr rfl

theorem discard {m n : Eval α} (same : Continues excused m n) :
    Continues excused (Functor.discard m) (Functor.discard n) := by
  rw [discard_eq, discard_eq]
  exact same.bind fun _ => .refl _

theorem iterate {test test' : Eval Bool} {turn turn' : Eval Flow}
    (tests : Continues excused test test') (once : Continues excused turn turn') {turns more : Nat}
    (fewer : turns ≤ more) (short : turns < more → excused .outOfTurns) :
    Continues excused (Eval.iterate turns test turn) (Eval.iterate more test' turn') := by
  induction turns generalizing more with
  | zero =>
    cases more with
    | zero => exact .refl _
    | succ more => exact fun f => Or.inl ⟨.outOfTurns, rfl, short (Nat.succ_pos more)⟩
  | succ turns ih =>
    cases more with
    | zero => omega
    | succ more =>
      rw [Eval.iterate, Eval.iterate]
      refine tests.bind ?_
      intro again
      cases again with
      | false => exact .refl _
      | true =>
        refine once.bind ?_
        intro flow
        cases flow with
        | normal => exact ih (by omega) fun less => short (by omega)
        | returned v => exact .refl _

end Continues

/-- The second context runs the same code on the same instance, with no fewer turns and with calls
that go on where those of the first stop. -/
structure Outlasts (excused : Stop → Prop) (first second : Context) : Prop where
  program : second.program = first.program
  this : second.this = first.this
  turns : first.limits.turns ≤ second.limits.turns
  short : first.limits.turns < second.limits.turns → excused .outOfTurns
  calls : ∀ invocation, Continues excused (first.call invocation) (second.call invocation)

section

variable {excused : Stop → Prop} {first second : Context} (outlasts : Outlasts excused first second)
include outlasts

theorem call_static_continues (cls : TypeName) (method : String) (args : List Value) :
    Continues excused (first.callStatic cls method args) (second.callStatic cls method args) := by
  unfold Context.callStatic
  rw [outlasts.program]
  refine (Continues.refl _).bind ?_
  intro owner
  refine (Continues.refl _).bind ?_
  intro m
  exact outlasts.calls _

theorem call_method_continues (receiver : Value) (method : String) (args : List Value) :
    Continues excused (first.callMethod receiver method args)
      (second.callMethod receiver method args) := by
  cases receiver with
  | object k =>
    intro f
    rw [call_method_run, call_method_run, outlasts.program]
    refine (Continues.refl _).bind ?_ f
    intro owner
    refine (Continues.refl _).bind ?_
    intro m
    exact outlasts.calls _
  | _ => exact .refl _

theorem construct_continues (ty : Ty) (args : List Value) :
    Continues excused (first.construct ty args) (second.construct ty args) := by
  unfold Context.construct
  rw [outlasts.program]
  cases ty.erasure? with
  | none => exact .refl _
  | some name =>
    refine (Continues.refl _).bind ?_
    intro cls
    split
    · exact .refl _
    · refine (Continues.refl _).bind ?_
      intro address
      exact (outlasts.calls _).discard.bind fun _ => .refl _

theorem continues_congruence : Congruence (fun _ => Continues excused) first second where
  pure := fun a => .refl _
  bind := Continues.bind
  target := .refl _
  self := by
    intro cls
    have same : second.self cls = first.self cls := by
      unfold Context.self
      rw [outlasts.this]
    rw [same]
    exact .refl _
  readVariable := fun x => .refl _
  writeVariable := fun x v => .refl _
  readField := fun v name => .refl _
  writeField := fun v name w => .refl _
  truth := fun v => .refl _
  operate := fun op operands => .refl _
  callStatic := call_static_continues outlasts
  callMethod := call_method_continues outlasts
  construct := construct_continues outlasts

theorem same_corresponds : Correspondence (fun _ => Continues excused) first second Eq where
  parts := by
    rintro n _ rfl _
    exact ⟨rfl, List.forall₂_same.mpr fun _ _ => rfl⟩
  closures := by
    rintro e _ rfl literal
    refine ⟨e, rfl, ?_, closure_not_target second literal⟩
    rw [closure_eval second literal]
    exact .refl _
  loops := fun _ _ _ _ _ tests turns => tests.iterate turns outlasts.turns outlasts.short

theorem parts_continue (n : Node) : n.Related (fun _ => Continues excused) first second n :=
  ((continues_congruence outlasts).parts (same_corresponds outlasts) n n rfl).1

theorem expression_list_continues (es : List Expr) :
    Continues excused (Expr.evalAll first es) (Expr.evalAll second es) :=
  (continues_congruence outlasts).expression_list
    (List.forall₂_same.mpr fun n _ => parts_continue outlasts n)

theorem body_continues (body : List Stmt) :
    Continues excused (Stmt.execAll first body) (Stmt.execAll second body) :=
  (continues_congruence outlasts).statement_list
    (List.forall₂_same.mpr fun n _ => parts_continue outlasts n)

end

namespace Program

theorem inside_call_run (program : Program) (limits : Limits) (levels : Nat) (this : Option Nat)
    (invocation : Invocation) (f : Frame) :
    ((program.inside limits (levels + 1) this).call invocation).run.run f =
      let ended := (Stmt.execAll (program.inside limits levels invocation.this)
        invocation.body).run.run ⟨f.heap, .ofArguments invocation.params invocation.args⟩
      (ended.1.map Flow.value, { f with heap := ended.2.heap }) := by
  rw [call_run]
  dsimp only [inside]
  rw [invoke_succ]
  rfl

theorem inside_outlasts {excused : Stop → Prop} (program : Program) (limits : Limits)
    {turns levels more : Nat} (fewer : limits.turns ≤ turns)
    (short : limits.turns < turns → excused .outOfTurns) (below : levels ≤ more)
    (cut : levels < more → excused (.fault (.stackOverflow limits.depth))) (this : Option Nat) :
    Outlasts excused (program.inside limits levels this)
      (program.inside ⟨limits.depth, turns⟩ more this) := by
  -- On the levels of the first run: its last level fails at once, and above it the bodies that are
  -- run go the same way by what is known of their calls.
  induction levels generalizing more this with
  | zero =>
    refine ⟨rfl, rfl, fewer, short, ?_⟩
    intro invocation f
    rw [call_run, call_run]
    cases more with
    | zero => exact Or.inr rfl
    | succ more => exact Or.inl ⟨_, rfl, cut (Nat.succ_pos more)⟩
  | succ levels ih =>
    cases more with
    | zero => omega
    | succ more =>
      refine ⟨rfl, rfl, fewer, short, ?_⟩
      intro invocation f
      have inner : Outlasts excused (program.inside limits levels invocation.this)
          (program.inside ⟨limits.depth, turns⟩ more invocation.this) :=
        ih (by omega) (fun less => cut (by omega)) invocation.this
      have body := body_continues inner invocation.body
        ⟨f.heap, .ofArguments invocation.params invocation.args⟩
      rw [inside_call_run, inside_call_run]
      dsimp only
      rcases body with ⟨stop, stopped, excuse⟩ | same
      · exact Or.inl ⟨stop, by rw [stopped]; rfl, excuse⟩
      · rw [same]
        exact Or.inr rfl

theorem more_levels_outlast {excused : Stop → Prop} (program : Program) (limits : Limits)
    {levels more : Nat} (below : levels ≤ more)
    (cut : levels < more → excused (.fault (.stackOverflow limits.depth))) (this : Option Nat) :
    Outlasts excused (program.inside limits levels this) (program.inside limits more this) :=
  program.inside_outlasts limits (Nat.le_refl _) (fun less => absurd less (Nat.lt_irrefl _)) below
    cut this

theorem call_static_more_turns (program : Program) (limits : Limits) {turns : Nat}
    (fewer : limits.turns ≤ turns) (cls : TypeName) (method : String) (args : List Value)
    (heap : Heap)
    (ended : (program.callStatic limits cls method args heap).1 ≠ .error .outOfTurns) :
    program.callStatic ⟨limits.depth, turns⟩ cls method args heap =
      program.callStatic limits cls method args heap := by
  have outlasts : Outlasts (· = .outOfTurns) (program.inside limits limits.depth none)
      (program.inside ⟨limits.depth, turns⟩ limits.depth none) := by
    refine program.inside_outlasts limits fewer ?_ (Nat.le_refl _) ?_ none
    · exact fun _ => rfl
    · exact fun less => absurd less (Nat.lt_irrefl _)
  rcases call_static_continues outlasts cls method args ⟨heap, []⟩ with ⟨stop, stopped, rfl⟩ | same
  · exact absurd stopped ended
  · exact congrArg (fun outcome => (outcome.1, outcome.2.heap)) same

end Program

end ClosureLift
