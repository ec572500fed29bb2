import ClosureLift.Proofs.Lift.Replacement
import ClosureLift.Proofs.Machine.Endings
import ClosureLift.Proofs.Machine.Limits

/-!
Runs that need no closure. A run of the program before its conversion stops as soon as it comes to a
closure; up to there, every step of it is a step of the converted program on the same heap. The two
can only part where the first program stops: at a closure, or for want of a class that the
conversion has added.
-/
namespace ClosureLift

open Eval

/-- Where a run before conversion stops and the run after it may go on. -/
def Stop.Unsettled : Stop → Prop
  | .fault .unliftedClosure => True
  | .fault (.unknownClass _) => True
  | _ => False

def Follows (m n : Eval α) : Prop :=
  ∀ f, (∃ stop, (m.run.run f).1 = .error stop ∧ stop.Unsettled) ∨ n.run.run f = m.run.run f

namespace Follows

theorem refl (m : Eval α) : Follows m m := Continues.refl m

theorem bind {m n : Eval α} {next next' : α → Eval β} (head : Follows m n)
    (tail : ∀ a, Follows (next a) (next' a)) : Follows (m >>= next) (n >>= next') :=
  Continues.bind head tail

end Follows

def Answered (first second : Invocation → Heap → Except Stop Value × Heap) : Prop :=
  ∀ params body body' this args heap, List.Forall₂ Becomes (body.map .stmt) (body'.map .stmt) →
    (∃ stop, (first ⟨params, body, this, args⟩ heap).1 = .error stop ∧ stop.Unsettled) ∨
      second ⟨params, body', this, args⟩ heap = first ⟨params, body, this, args⟩ heap

def Program.KeptBy (first second : Program) : Prop :=
  ∀ name cls, first.runtimeClass name = .ok cls →
    ∃ cls', second.runtimeClass name = .ok cls' ∧ Becomes (.cls cls) (.cls cls')

structure Tracks (first second : Context) : Prop where
  limits : second.limits = first.limits
  this : second.this = first.this
  program : first.program.KeptBy second.program
  calls : Answered first.invoke second.invoke

section

variable {first second : Context} (tracks : Tracks first second)
include tracks

theorem call_follows {params : List Variable} {body body' : List Stmt} (this : Option Nat)
    (args : List Value) (each : List.Forall₂ Becomes (body.map .stmt) (body'.map .stmt)) :
    Follows (first.call ⟨params, body, this, args⟩) (second.call ⟨params, body', this, args⟩) := by
  intro f
  rw [call_run, call_run]
  rcases tracks.calls params body body' this args f.heap each with stopped | same
  · exact Or.inl stopped
  · rw [same]
    exact Or.inr rfl

theorem class_follows (name : TypeName) {next next' : Class → Eval α}
    (later : ∀ cls cls', Becomes (.cls cls) (.cls cls') → Follows (next cls) (next' cls')) :
    Follows (ofExcept (first.program.runtimeClass name) >>= next)
      (ofExcept (second.program.runtimeClass name) >>= next') := by
  cases found : first.program.runtimeClass name with
  | ok cls =>
    obtain ⟨cls', same, becomes⟩ := tracks.program name cls found
    rw [same]
    exact later cls cls' becomes
  | error e =>
    have missing : e = .unknownClass name := by
      unfold Program.runtimeClass at found
      split at found
      · cases found
      · cases found
        rfl
    rw [missing]
    exact fun f => Or.inl ⟨_, rfl, trivial⟩

omit tracks in
theorem method_found {ms ms' : List Method} (name : String) (arity : Nat)
    (each : List.Forall₂ (fun m m' => Becomes (.method m) (.method m')) ms ms') :
    let wanted := fun m : Method => m.name == name && m.params.length == arity
    (ms.find? wanted = none ∧ ms'.find? wanted = none) ∨
      ∃ m m', ms.find? wanted = some m ∧ ms'.find? wanted = some m' ∧
        Becomes (.method m) (.method m') := by
  induction each with
  | nil => exact Or.inl ⟨rfl, rfl⟩
  | @cons m m' _ _ head tail ih =>
    obtain ⟨sameName, _, _, sameParams, _, _⟩ := Method.mk.inj (becomes_method head).1
    simp only [List.find?_cons, sameName, sameParams]
    cases m.name == name && m.params.length == arity with
    | true => exact Or.inr ⟨m, m', rfl, rfl, head⟩
    | false => exact ih

omit tracks in
theorem callee_follows {cls cls' : Class} (becomes : Becomes (.cls cls) (.cls cls'))
    (method : String) (args : List Value) {next next' : Method → Eval α}
    (later : ∀ m m', Becomes (.method m) (.method m') → Follows (next m) (next' m')) :
    Follows (ofExcept (cls.callee method args) >>= next)
      (ofExcept (cls'.callee method args) >>= next') := by
  obtain ⟨headers, _, methods⟩ := becomes_class becomes
  have named : cls'.name = cls.name := (Class.mk.inj headers).1
  rcases method_found method args.length methods with ⟨absent, absent'⟩ | ⟨m, m', here, there, same⟩
  · simp only [Class.callee, Class.method?, absent, absent', named]
    exact fun f => Or.inr rfl
  · simp only [Class.callee, Class.method?, here, there]
    exact later m m' same

theorem method_follows {m m' : Method} (becomes : Becomes (.method m) (.method m'))
    (this : Option Nat) (args : List Value) :
    Follows (first.call ⟨m.params, m.body, this, args⟩)
      (second.call ⟨m'.params, m'.body, this, args⟩) := by
  obtain ⟨headers, bodies⟩ := becomes_method becomes
  have params : m'.params = m.params := (Method.mk.inj headers).2.2.2.1
  rw [params]
  exact call_follows tracks this args bodies

theorem call_static_follows (cls : TypeName) (method : String) (args : List Value) :
    Follows (first.callStatic cls method args) (second.callStatic cls method args) := by
  unfold Context.callStatic
  refine class_follows tracks cls ?_
  intro owner owner' becomes
  refine callee_follows becomes method args ?_
  intro m m' same
  exact method_follows tracks same none args

theorem call_method_follows (receiver : Value) (method : String) (args : List Value) :
    Follows (first.callMethod receiver method args) (second.callMethod receiver method args) := by
  cases receiver with
  | object k =>
    intro f
    rw [call_method_run, call_method_run]
    refine class_follows tracks (f.heap.className k) ?_ f
    intro owner owner' becomes
    refine callee_follows becomes method args ?_
    intro m m' same
    exact method_follows tracks same (some k) args
  | _ => exact .refl _

theorem construct_follows (ty : Ty) (args : List Value) :
    Follows (first.construct ty args) (second.construct ty args) := by
  unfold Context.construct
  cases ty.erasure? with
  | none => exact .refl _
  | some name =>
    refine class_follows tracks name ?_
    intro cls cls' becomes
    obtain ⟨headers, constructor, _⟩ := becomes_class becomes
    obtain ⟨params, bodies⟩ := becomes_constructor constructor
    obtain ⟨named, _, _, fields, _⟩ := Class.mk.inj headers
    have object : Object.new cls' = Object.new cls := by
      simp only [Object.new, named, fields]
    rw [params, named, object]
    split
    · exact .refl _
    · refine (Follows.refl _).bind ?_
      intro address
      rw [discard_eq, discard_eq]
      exact ((call_follows tracks (some address) args bodies).bind fun _ => .refl _).bind
        fun _ => .refl _

theorem follows_congruence : Congruence (fun _ => Follows) first second where
  pure := fun a => .refl _
  bind := Follows.bind
  target := .refl _
  self := by
    intro cls
    have same : second.self cls = first.self cls := by
      unfold Context.self
      rw [tracks.this]
    rw [same]
    exact .refl _
  readVariable := fun x => .refl _
  writeVariable := fun x v => .refl _
  readField := fun v name => .refl _
  writeField := fun v name w => .refl _
  truth := fun v => .refl _
  operate := fun op operands => .refl _
  callStatic := call_static_follows tracks
  callMethod := call_method_follows tracks
  construct := construct_follows tracks

theorem becomes_corresponds : Correspondence (fun _ => Follows) first second Becomes where
  parts := by
    intro n n' becomes plain
    rcases becomes_cases becomes with ⟨literal, _⟩ | ⟨_, alike, each⟩
    · rw [plain] at literal
      cases literal
    · exact ⟨alike, each⟩
  closures := by
    intro e n' becomes literal
    rcases becomes_cases becomes with ⟨_, ty, args, same⟩ | ⟨plain, _⟩
    · refine ⟨_, same, ?_, fun v => rfl⟩
      exact fun f => Or.inl ⟨_, rfl, trivial⟩
    · rw [Node.isClosure, literal] at plain
      cases plain
  loops := by
    intro condition body n' _ test test' turn turn' tests turns
    rw [tracks.limits]
    exact (follows_congruence tracks).iterate (.refl _) tests turns _

end

theorem Program.KeptBy.invoke_answered {first second : Program} (kept : first.KeptBy second)
    (limits : Limits) (n : Nat) :
    Answered (first.invoke limits n) (second.invoke limits n) := by
  induction n with
  | zero => exact fun _ _ _ _ _ _ _ => Or.inr rfl
  | succ n ih =>
    intro params body body' this args heap each
    have tracks : Tracks (first.inside limits n this) (second.inside limits n this) :=
      ⟨rfl, rfl, kept, ih⟩
    have follows := (follows_congruence tracks).bodies (becomes_corresponds tracks) each
      ⟨heap, .ofArguments params args⟩
    rw [invoke_succ, invoke_succ]
    rcases follows with ⟨stop, stopped, unsettled⟩ | same
    · refine Or.inl ⟨stop, ?_, unsettled⟩
      simp only [stopped]
      rfl
    · right
      simp only [same]

namespace Program

theorem runtime_class_mem {program : Program} {name : TypeName} {cls : Class}
    (found : program.runtimeClass name = .ok cls) : cls ∈ program.classes ∧ cls.name = name := by
  unfold runtimeClass at found
  split at found
  · rename_i last here
    cases found
    exact ⟨List.mem_reverse.mp (List.mem_of_find?_eq_some here),
      by simpa using List.find?_some here⟩
  · cases found

theorem runtime_class_of_mem {program : Program} (distinct : (program.classes.map (·.name)).Nodup)
    {cls : Class} (member : cls ∈ program.classes) : program.runtimeClass cls.name = .ok cls := by
  unfold runtimeClass
  cases last : program.classes.reverse.find? (·.name == cls.name) with
  | none =>
    rw [List.find?_eq_none] at last
    exact absurd (beq_self_eq_true cls.name) (last cls (List.mem_reverse.mpr member))
  | some other =>
    have same : other = cls := by
      apply List.inj_on_of_nodup_map distinct _ member
      · simpa using List.find?_some last
      · exact List.mem_reverse.mp (List.mem_of_find?_eq_some last)
    rw [same]

variable {program : Program} {options : LiftOptions} {c : Conversion}

theorem converted_keeps (converted : program.convert options = .ok c) :
    program.KeptBy c.program := by
  have names := class_names_nodup (converted_declares_once converted)
  obtain ⟨_, _, kept, extracts, t, t', minted, converts, rfl⟩ :=
    program.converts_of_convert options converted
  obtain ⟨entries, replaced, _⟩ := classes_replaced converts
  have each := replaced_each replaced
  rw [List.forall₂_map_left_iff, List.forall₂_map_right_iff] at each
  intro name cls found
  obtain ⟨member, rfl⟩ := runtime_class_mem found
  obtain ⟨cls', there, becomes⟩ : ∃ cls' ∈ kept, Becomes (.cls cls) (.cls cls') := by
    obtain ⟨i, inside, rfl⟩ := List.mem_iff_getElem.mp member
    have below : i < kept.length := each.length_eq ▸ inside
    exact ⟨kept[i], List.getElem_mem below, each.get inside below⟩
  have named : cls'.name = cls.name := (Class.mk.inj (becomes_class becomes).1).1
  refine ⟨cls', ?_, becomes⟩
  rw [← named]
  exact runtime_class_of_mem names (List.mem_append_left _ there)

/-- A call that comes to its end without a closure or a missing class comes to the same end after
conversion, on the same heap; and no call then ends at a closure. -/
theorem conversion_undisturbed (converted : program.convert options = .ok c) (limits : Limits)
    (cls : TypeName) (method : String) (args : List Value) (heap : Heap) :
    ((program.callStatic limits cls method args heap).1 ≠ .error (.fault .unliftedClosure) →
      (∀ name, (program.callStatic limits cls method args heap).1 ≠
        .error (.fault (.unknownClass name))) →
      c.program.callStatic limits cls method args heap =
        program.callStatic limits cls method args heap) ∧
    (c.program.callStatic limits cls method args heap).1 ≠ .error (.fault .unliftedClosure) := by
  constructor
  · intro lifted known
    have kept := converted_keeps converted
    have tracks : Tracks (program.outside limits) (c.program.outside limits) :=
      ⟨rfl, rfl, kept, kept.invoke_answered limits limits.depth⟩
    rcases call_static_follows tracks cls method args ⟨heap, []⟩ with
      ⟨stop, stopped, unsettled⟩ | same
    · have ended : (program.callStatic limits cls method args heap).1 = .error stop := stopped
      unfold Stop.Unsettled at unsettled
      split at unsettled
      · exact absurd ended lifted
      · exact absurd ended (known _)
      · cases unsettled
    · exact congrArg (fun outcome => (outcome.1, outcome.2.heap)) same
  · apply call_static_never_ends (Or.inl rfl)
    intro n inside raises
    rcases raises with ⟨literal, _⟩ | ⟨_, other⟩
    · rw [converted_without_closures converted n inside] at literal
      cases literal
    · cases other

/-- A method that makes a closure only if it is asked to. -/
def guarded : Program :=
  let scope := (Identifier.top.type ⟨"Main"⟩).method "pick"
  let flag : Variable := ⟨scope.var "flag", "flag", .boolean⟩
  let closure : Expr := .lambda
    ⟨⟨"Supplier"⟩, "get", [], .boolean, [.ret (some (.var flag))], .dummy⟩
  ⟨"guarded", ⟨[]⟩,
    [⟨⟨"Main"⟩, [], [], [], ⟨[], []⟩,
      [⟨"pick", true, [], [flag], .scalar ⟨"Supplier"⟩,
        [.cond (.var flag) [.ret (some closure)] [],
          .ret (some (.literal (.string "no closure")))]⟩], .dummy⟩]⟩

theorem guarded_conversion_undisturbed :
    ∃ c, guarded.convert .standard = .ok c ∧ c.reports.length = 1 ∧
      (guarded.callStatic .standard ⟨"Main"⟩ "pick" [.boolean true] .empty).1 =
        .error (.fault .unliftedClosure) ∧
      (c.program.callStatic .standard ⟨"Main"⟩ "pick" [.boolean true] .empty).1 ≠
        .error (.fault .unliftedClosure) ∧
      (c.program.callStatic .standard ⟨"Main"⟩ "pick" [.boolean false] .empty).1 =
        .ok (.string "no closure") := by
  have runs : (guarded.convert .standard).map (·.reports.length) = .ok 1 := by decide +kernel
  have ends : (guarded.callStatic .standard ⟨"Main"⟩ "pick" [.boolean false] .empty).1 =
      .ok (.string "no closure") := by decide +kernel
  cases converted : guarded.convert .standard with
  | error e =>
    rw [converted] at runs
    cases runs
  | ok c =>
    rw [converted] at runs
    have undisturbed := conversion_undisturbed converted .standard ⟨"Main"⟩ "pick"
    have same := (undisturbed [.boolean false] .empty).1
      (by rw [ends]; simp) (by rw [ends]; simp)
    exact ⟨c, rfl, Except.ok.inj runs, by decide +kernel, (undisturbed [.boolean true] .empty).2,
      by rw [same, ends]⟩

end Program

end ClosureLift
