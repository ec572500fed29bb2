import ClosureLift.Lift.Conversion
import ClosureLift.Proofs.Codec.RoundTrip
import ClosureLift.Proofs.Lift.Replacement

/-!
Lifting what was lifted. The text that is written for a lifted program is read back and comes out of
another lift as it is, as long as it nests no deeper than the reader allows. That a program was read
is not enough for this: the call that stands for a closure names the class made from it together
with the type parameters of that class, and these can nest deeper than anything in the closure did.
-/
namespace ClosureLift

theorem lift_text_ok {wording : Wording} {options : LiftOptions} {text : String} {c : Conversion} :
    liftText wording options text = .ok c ↔
      ∃ program, Program.ofText? text = some program ∧ program.convert options = .ok c := by
  unfold liftText
  cases Program.ofText? text with
  | none => simp
  | some program =>
    cases converted : program.convert options with
    | error e => simp [converted]
    | ok other => simp [converted]

namespace Program

variable {program : Program} {options : LiftOptions} {c : Conversion}

theorem unreported_unchanged (converted : program.convert options = .ok c)
    (silent : c.reports = []) : c.program = program := by
  obtain ⟨distinct, _, classes, extracts, t, t', _, converts, rfl⟩ :=
    program.converts_of_convert options converted
  obtain ⟨entries, _, rfl, sources⟩ := classes_replaced converts
  have none : entries = [] := List.map_eq_nil_iff.mp (List.map_eq_nil_iff.mp silent)
  rw [none] at sources
  have literals : program.closures = [] := List.forall₂_nil_right_iff.mp sources
  have free : Node.ClosureFree (program.classes.map .cls) := by
    intro n inside
    obtain ⟨part, member, under⟩ := Node.mem_preorderAll.mp inside
    obtain ⟨cls, among, rfl⟩ := List.mem_map.mp member
    cases n with
    | expr e =>
      cases literal : e.isClosure with
      | false => exact literal
      | true =>
        have listed := program.mem_closures.mpr ⟨among, under, literal⟩
        rw [literals] at listed
        cases listed
    | _ => rfl
  rw [program.convert_closure_free options distinct free] at converted
  exact (congrArg Conversion.program (Except.ok.inj converted)).symm

theorem depth_of_reread {wording : Wording}
    (reread : liftText wording options program.toJson.pretty = .ok ⟨program, []⟩) :
    program.toJson.depth ≤ nestingLimit := by
  obtain ⟨read, text, converted⟩ := lift_text_ok.mp reread
  have same : program = read := unreported_unchanged converted rfl
  rw [same]
  exact depth_of_text text

/-- What is written for a lifted program can be lifted again, with any options, and is then neither
changed nor reported on, exactly if it nests no deeper than the reader allows. -/
theorem lifted_text_reread {wording again : Wording} {text : String}
    (lifted : liftText wording options text = .ok c) (others : LiftOptions) :
    liftText again others c.program.toJson.pretty = .ok ⟨c.program, []⟩ ↔
      c.program.toJson.depth ≤ nestingLimit := by
  constructor
  · exact depth_of_reread
  · intro shallow
    obtain ⟨program, _, converted⟩ := lift_text_ok.mp lifted
    refine lift_text_ok.mpr ⟨c.program, (text_of_depth shallow).2, ?_⟩
    exact c.program.convert_closure_free others (converted_declares_once converted)
      (converted_without_closures converted)

theorem nested_text_reread :
    ∃ c, liftText .standard .standard nested.toJson.pretty = .ok c ∧ c.reports.length = 3 ∧
      liftText .standard .standard c.program.toJson.pretty = .ok ⟨c.program, []⟩ := by
  have read := (text_of_depth (p := nested) (by decide +kernel)).2
  have runs : (nested.convert .standard).map (·.reports.length) = .ok 3 := by decide +kernel
  have shallow : (nested.convert .standard).map
      (fun c => decide (c.program.toJson.depth ≤ nestingLimit)) = .ok true := by decide +kernel
  cases converted : nested.convert .standard with
  | error e =>
    rw [converted] at runs
    cases runs
  | ok c =>
    rw [converted] at runs shallow
    have lifted : liftText .standard .standard nested.toJson.pretty = .ok c :=
      lift_text_ok.mpr ⟨nested, read, converted⟩
    refine ⟨c, lifted, Except.ok.inj runs, ?_⟩
    exact (lifted_text_reread lifted .standard).mpr (of_decide_eq_true (Except.ok.inj shallow))

def reach : Nat → Expr → Expr
  | 0, e => e
  | n + 1, e => .fieldAccess (reach n e) "next" (.scalar ⟨"Node"⟩)

/-- A generic class with a lambda that mentions the type parameter, far down. -/
def deep : Program :=
  let p : TypeParameter := ⟨⟨"Main"⟩, "T"⟩
  let closure : Expr := .lambda ⟨⟨"Supplier"⟩, "get", [], .parameter p, [], .dummy⟩
  ⟨"deep", ⟨[]⟩,
    [⟨⟨"Main"⟩, [p], [], [], ⟨[], []⟩,
      [⟨"run", false, [], [], .parameter p, [.ret (some (reach 58 closure))]⟩], .dummy⟩]⟩

theorem deep_text_not_reread :
    ∃ c, liftText .standard .standard deep.toJson.pretty = .ok c ∧
      liftText .standard .standard c.program.toJson.pretty ≠ .ok ⟨c.program, []⟩ := by
  have read := (text_of_depth (p := deep) (by decide +kernel)).2
  have runs : (deep.convert .standard).map (·.program.toJson.depth) = .ok 129 := by decide +kernel
  cases converted : deep.convert .standard with
  | error e =>
    rw [converted] at runs
    cases runs
  | ok c =>
    rw [converted] at runs
    refine ⟨c, lift_text_ok.mpr ⟨deep, read, converted⟩, ?_⟩
    intro reread
    have shallow := depth_of_reread reread
    have depth : c.program.toJson.depth = 129 := Except.ok.inj runs
    rw [depth] at shallow
    exact absurd shallow (by decide)

end Program

end ClosureLift
