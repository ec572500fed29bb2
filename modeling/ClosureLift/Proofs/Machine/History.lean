import ClosureLift.Proofs.Machine.Calls

/-!
The heaps that a run passes. An evaluation changes the heap in two ways only: it creates an object,
or it writes a field that is there. The history of an evaluation lists the heaps after each such
change, those inside calls included. It follows the evaluation, which decides where to go.
-/
namespace ClosureLift

open Eval

namespace Heap

/-- The two changes that a running program makes to the heap. -/
inductive Step (program : Program) : Heap → Heap → Prop where
  | create {heap : Heap} {cls : Class} (declared : cls ∈ program.classes) :
      Step program heap (heap.alloc (.new cls)).2
  | write {heap : Heap} {address : Nat} {name : String} {old : Value}
      (there : heap.field? address name = some old) (v : Value) :
      Step program heap (heap.store address name v)

inductive Steps (program : Program) : Heap → List Heap → Heap → Prop where
  | none (heap : Heap) : Steps program heap [] heap
  | more {first next last : Heap} {rest : List Heap} (step : Step program first next)
      (later : Steps program next rest last) : Steps program first (next :: rest) last

namespace Steps

variable {program : Program} {first middle last : Heap} {past later : List Heap}

theorem append (early : Steps program first past middle) (late : Steps program middle later last) :
    Steps program first (past ++ later) last := by
  induction early with
  | none heap => exact late
  | more step _ ih => exact .more step (ih late)

theorem one (step : Step program first last) : Steps program first [last] last :=
  .more step (.none last)

theorem last_passed (steps : Steps program first past last) : last ∈ first :: past := by
  induction steps with
  | none heap => exact List.mem_cons_self
  | more _ _ ih => exact List.mem_cons_of_mem _ ih

theorem preserved {good : Heap → Prop} (steps : Steps program first past last) (start : good first)
    (step : ∀ before after, Step program before after → good before → good after) :
    good last ∧ ∀ heap ∈ past, good heap := by
  induction steps with
  | none heap => exact ⟨start, by simp⟩
  | more here _ ih =>
    have next := step _ _ here start
    obtain ⟨ended, passed⟩ := ih next
    exact ⟨ended, List.forall_mem_cons.mpr ⟨next, passed⟩⟩

theorem related {relation : Heap → Heap → Prop} (steps : Steps program first past last)
    (trans : ∀ a b c, relation a b → relation b c → relation a c)
    (step : ∀ before after, Step program before after → relation before after) :
    (first :: past).Pairwise relation := by
  induction steps with
  | none heap => exact List.pairwise_singleton _ _
  | @more first next last rest here _ ih =>
    refine List.pairwise_cons.mpr ⟨?_, ih⟩
    have one := step _ _ here
    intro heap member
    rcases List.mem_cons.mp member with rfl | far
    · exact one
    · exact trans _ _ _ one ((List.pairwise_cons.mp ih).1 heap far)

end Steps

end Heap

/-- The heaps that an evaluation passes from a frame on, one for each change. -/
abbrev Trace := Frame → List Heap

namespace Trace

def still : Trace := fun _ => []

def onward (m : Eval α) (next : α → Trace) : Trace := fun f =>
  match m.run.run f with
  | (.ok a, g) => next a g
  | (.error _, _) => []

def andThen (m : Eval α) (past : Trace) (next : α → Trace) : Trace := fun f =>
  past f ++ onward m next f

def change (m : Eval α) : Trace := onward m fun _ f => [f.heap]

def iterate (condition : Eval Bool) (tested : Trace) (body : Eval Flow) (turned : Trace) :
    Nat → Trace
  | 0 => still
  | n + 1 =>
    andThen condition tested fun again =>
      if again then
        andThen body turned fun
          | .returned _ => still
          | .normal => iterate condition tested body turned n
      else still

end Trace

open Trace

abbrev CallTrace := Invocation → Heap → List Heap

namespace Context

variable (ctx : Context) (calls : CallTrace)

def callStaticTrace (cls : TypeName) (method : String) (args : List Value) : Trace :=
  andThen (ofExcept (ctx.program.runtimeClass cls)) still fun cls =>
    andThen (ofExcept (cls.callee method args)) still fun m f =>
      calls ⟨m.params, m.body, none, args⟩ f.heap

def callMethodTrace (receiver : Value) (method : String) (args : List Value) : Trace := fun f =>
  match receiver with
  | .object address =>
    (andThen (ofExcept (ctx.program.runtimeClass (f.heap.className address))) still fun cls =>
      andThen (ofExcept (cls.callee method args)) still fun m f =>
        calls ⟨m.params, m.body, some address, args⟩ f.heap) f
  | _ => []

def constructTrace (ty : Ty) (args : List Value) : Trace :=
  match ty.erasure? with
  | none => still
  | some name =>
    andThen (ofExcept (ctx.program.runtimeClass name)) still fun cls =>
      if cls.constructor.params.length ≠ args.length then still
      else
        andThen (allocate cls) (change (allocate cls)) fun address f =>
          calls ⟨cls.constructor.params, cls.constructor.body, some address, args⟩ f.heap

end Context

mutual

def Expr.trace (ctx : Context) (calls : CallTrace) : Expr → Trace
  | .literal _ | .reference _ => still
  | .assign (.reference (.variable _)) value => value.trace ctx calls
  | .assign (.fieldAccess receiver field _) value =>
    andThen (value.eval ctx) (value.trace ctx calls) fun v =>
      andThen (receiver.eval ctx) (receiver.trace ctx calls) fun object =>
        change (writeField object field v)
  | .assign _ value => value.trace ctx calls
  | .fieldAccess receiver _ _ => receiver.trace ctx calls
  | .methodCall receiver method args _ _ =>
    andThen (receiver.eval ctx) (receiver.trace ctx calls) fun object =>
      andThen (Expr.evalAll ctx args) (Expr.traceAll ctx calls args) fun values =>
        ctx.callMethodTrace calls object method values
  | .staticCall cls method args _ _ =>
    andThen (Expr.evalAll ctx args) (Expr.traceAll ctx calls args) fun values =>
      ctx.callStaticTrace calls cls method values
  | .construct ty args =>
    andThen (Expr.evalAll ctx args) (Expr.traceAll ctx calls args) fun values =>
      ctx.constructTrace calls ty values
  | .operation .booleanAnd [left, right] _ =>
    andThen (left.eval ctx >>= truth) (left.trace ctx calls) fun holds =>
      if holds then right.trace ctx calls else still
  | .operation .booleanOr [left, right] _ =>
    andThen (left.eval ctx >>= truth) (left.trace ctx calls) fun holds =>
      if holds then still else right.trace ctx calls
  | .operation _ args _ => Expr.traceAll ctx calls args
  | .conditional condition ifTrue ifFalse _ =>
    andThen (condition.eval ctx >>= truth) (condition.trace ctx calls) fun holds =>
      if holds then ifTrue.trace ctx calls else ifFalse.trace ctx calls
  | .lambda _ | .methodReference _ | .anonymousClass _ => still

def Expr.traceAll (ctx : Context) (calls : CallTrace) : List Expr → Trace
  | [] => still
  | e :: rest => andThen (e.eval ctx) (e.trace ctx calls) fun _ => Expr.traceAll ctx calls rest

end

mutual

def Stmt.trace (ctx : Context) (calls : CallTrace) : Stmt → Trace
  | .expr value | .ret (some value) | .decl _ value => value.trace ctx calls
  | .ret none => still
  | .cond condition thenBranch elseBranch =>
    andThen (condition.eval ctx >>= truth) (condition.trace ctx calls) fun holds =>
      if holds then Stmt.traceAll ctx calls thenBranch else Stmt.traceAll ctx calls elseBranch
  | .loop condition body =>
    iterate (condition.eval ctx >>= truth) (condition.trace ctx calls) (Stmt.execAll ctx body)
      (Stmt.traceAll ctx calls body) ctx.limits.turns

def Stmt.traceAll (ctx : Context) (calls : CallTrace) : List Stmt → Trace
  | [] => still
  | s :: rest =>
    andThen (s.exec ctx) (s.trace ctx calls) fun
      | .returned _ => still
      | .normal => Stmt.traceAll ctx calls rest

end

namespace Program

variable (program : Program) (limits : Limits)

def invokeTrace : Nat → CallTrace
  | 0, _, _ => []
  | n + 1, call, heap =>
    Stmt.traceAll (program.inside limits n call.this) (invokeTrace n) call.body
      ⟨heap, .ofArguments call.params call.args⟩

def callStaticTrace (cls : TypeName) (method : String) (args : List Value) (heap : Heap) :
    List Heap :=
  (program.outside limits).callStaticTrace (program.invokeTrace limits limits.depth) cls method args
    ⟨heap, []⟩

end Program

end ClosureLift
