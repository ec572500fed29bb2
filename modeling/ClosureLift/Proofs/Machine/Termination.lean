import ClosureLift.Proofs.Machine.Endings
import ClosureLift.Proofs.Machine.Limits

/-!
Runs that are sure to end. Calls nest no deeper than the limit, and a body is a finite text, so a
run can go on for ever only in a loop. Of a program without loops every call ends, in a value or in
an error of the program, however its methods and constructors call each other; and it ends so
without ever being granted a turn.
-/
namespace ClosureLift

open Eval

/-- Running out of turns stands for running for ever: an idle loop does so whatever it is granted.
-/
theorem idle_loop_never_ends (ctx : Context) (f : Frame) :
    ((Stmt.loop (.literal (.boolean true)) []).exec ctx).run.run f = (.error .outOfTurns, f) := by
  rw [Stmt.exec]
  generalize ctx.limits.turns = turns
  induction turns with
  | zero => rfl
  | succ turns ih =>
    rw [iterate]
    exact ih

def Node.isLoop : Node → Bool
  | .stmt (.loop _ _) => true
  | _ => false

namespace Program

def LoopFree (program : Program) : Prop :=
  ∀ n ∈ Node.preorderAll (program.classes.map .cls), n.isLoop = false

instance (program : Program) : Decidable program.LoopFree :=
  inferInstanceAs (Decidable (∀ n ∈ Node.preorderAll (program.classes.map .cls), n.isLoop = false))

theorem LoopFree.silent {program : Program} (free : program.LoopFree) :
    ∀ n ∈ Node.preorderAll (program.classes.map .cls), ¬ n.Raises .outOfTurns := by
  intro n member raises
  rcases raises with ⟨_, same⟩ | ⟨⟨condition, body, rfl⟩, _⟩
  · cases same
  · cases free _ member

/-- Every call of a program without loops ends, in a value or in an error, and the turns that loops
are granted play no part in it. -/
theorem loop_free_call_ends {program : Program} (free : program.LoopFree) (depth : Nat)
    (cls : TypeName) (method : String) (args : List Value) (heap : Heap) :
    ∃ (result : Except EvalError Value) (after : Heap), ∀ turns,
      program.callStatic ⟨depth, turns⟩ cls method args heap =
        (result.mapError .fault, after) := by
  have ended : (program.callStatic ⟨depth, 0⟩ cls method args heap).1 ≠ .error .outOfTurns :=
    program.call_static_never_ends (Or.inr rfl) free.silent ⟨depth, 0⟩ cls method args heap
  have same : ∀ turns, program.callStatic ⟨depth, turns⟩ cls method args heap =
      program.callStatic ⟨depth, 0⟩ cls method args heap := fun turns =>
    program.call_static_more_turns ⟨depth, 0⟩ (Nat.zero_le turns) cls method args heap ended
  generalize program.callStatic ⟨depth, 0⟩ cls method args heap = outcome at ended same
  obtain ⟨result, after⟩ := outcome
  cases result with
  | ok v => exact ⟨.ok v, after, same⟩
  | error stop =>
    cases stop with
    | fault e => exact ⟨.error e, after, same⟩
    | outOfTurns => exact absurd rfl ended

def knot : Program :=
  let ty : Ty := .scalar ⟨"Knot"⟩
  ⟨"knot", ⟨[]⟩,
    [⟨⟨"Knot"⟩, [], [], [], ⟨[], [.expr (.staticCall ⟨"Knot"⟩ "tie" [] [] ty)]⟩,
      [⟨"tie", true, [], [], ty, [.ret (some (.construct ty []))]⟩], .dummy⟩]⟩

theorem knot_ends :
    knot.LoopFree ∧ ∀ turns, (knot.callStatic ⟨64, turns⟩ ⟨"Knot"⟩ "tie" [] .empty).1 =
      .error (.fault (.stackOverflow 64)) := by
  have free : knot.LoopFree := by decide +kernel
  have atOnce : (knot.callStatic ⟨64, 0⟩ ⟨"Knot"⟩ "tie" [] .empty).1 =
      .error (.fault (.stackOverflow 64)) := by decide +kernel
  obtain ⟨result, after, ends⟩ := loop_free_call_ends free 64 ⟨"Knot"⟩ "tie" [] .empty
  refine ⟨free, ?_⟩
  intro turns
  rw [ends 0] at atOnce
  rw [ends turns]
  exact atOnce

end Program

end ClosureLift
