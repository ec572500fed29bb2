import Mathlib.Data.List.Induction
import ClosureLift.Proofs.Lift.Conversion

/-!
When a program can be converted, and what is wrong with it when it cannot. Two things are asked of a
program: that it declares nothing twice, and that its lambdas and method references say which method
they implement. The first is looked at before any closure is lifted.
-/
namespace ClosureLift

/-- A lambda or a method reference says which method it implements. -/
def Expr.Named : Expr → Prop
  | .lambda closure => closure.method ≠ ""
  | .methodReference closure => closure.method ≠ ""
  | _ => True

theorem unnamed_eq_none {e : Expr} : e.unnamed? = none ↔ e.Named := by
  cases e <;> simp [Expr.unnamed?, Expr.Named]

theorem unnamed_eq_some {e : Expr} (unnamed : ¬ e.Named) : e.unnamed? = some e.span := by
  cases e <;> simp_all [Expr.unnamed?, Expr.Named, Expr.span, Expr.closureSpan?]

theorem unnamed_in_eq_none {literal : Class × Expr} :
    unnamedIn? literal = none ↔ literal.2.Named := by
  rw [unnamedIn?, Option.map_eq_none_iff, unnamed_eq_none]

theorem first_repeated [DecidableEq α] {as : List α} (repeated : ¬ as.Nodup) :
    ∃ before a after, as = before ++ a :: after ∧ before.Nodup ∧ a ∈ before := by
  induction as using List.reverseRecOn with
  | nil => exact absurd List.nodup_nil repeated
  | append_singleton rest a ih =>
    by_cases distinct : rest.Nodup
    · refine ⟨rest, a, [], rfl, distinct, ?_⟩
      apply Classical.byContradiction
      intro absent
      apply repeated
      rw [List.nodup_append]
      refine ⟨distinct, by simp, ?_⟩
      intro b member c last same
      rw [List.mem_singleton] at last
      exact absent (last ▸ same ▸ member)
    · obtain ⟨before, b, after, split, first, again⟩ := ih distinct
      exact ⟨before, b, after ++ [a], by rw [split]; simp, first, again⟩

namespace Program

variable (program : Program) (options : LiftOptions)

def site : Site := ⟨.top, ⟨program.name⟩⟩

theorem convert_reserved {t : ScopeTable}
    (reserved : (ScopeTable.empty options.temporaryName).reserveAll program.declaredIds =
      (.ok (), t)) :
    program.convert options =
      match (Class.convertAll options program.classes).run.run t with
      | (.error e, _) => .error e
      | (.ok (classes, extracts), _) =>
        .ok { program := { program with classes := classes ++ extracts.map (·.cls) }
              reports := extracts.map (·.report) } := by
  unfold convert ScopeTable.reserveProgram
  generalize (ScopeTable.empty options.temporaryName).reserveAll program.declaredIds = outcome
    at reserved ⊢
  subst reserved
  rfl

theorem convert_distinct (distinct : program.declaredIds.Nodup) :
    ∃ t, Minted (.empty options.temporaryName) t program.declaredIds ∧
      match program.closures.findSome? unnamedIn? with
      | none => ∃ classes extracts t',
          Converts options program.site (program.classes.map .cls) t (classes.map .cls)
            extracts t' ∧
          program.convert options = .ok
            ⟨{ program with classes := classes ++ extracts.map (·.cls) }, extracts.map (·.report)⟩
      | some span => program.convert options = .error ⟨.missingFunctionalMethod, span⟩ := by
  obtain ⟨t, reserved, minted⟩ := (ScopeTable.empty options.temporaryName).reserve_all_ok
    program.declaredIds distinct (fun _ _ => rfl)
  refine ⟨t, minted, ?_⟩
  have spec := class_list_converts options program.site program.classes t
  have run := program.convert_reserved options reserved
  unfold Yields at spec
  rw [← closures] at spec
  rw [run]
  cases blame : program.closures.findSome? unnamedIn? with
  | none =>
    rw [blame] at spec
    obtain ⟨⟨classes, extracts⟩, t', converted, converts⟩ := spec
    exact ⟨classes, extracts, t', converts, by rw [converted]⟩
  | some span =>
    rw [blame] at spec
    obtain ⟨t', failed⟩ := spec
    rw [failed]

theorem convert_repeated {before after : List Identifier} {id : Identifier}
    (split : program.declaredIds = before ++ id :: after) (distinct : before.Nodup)
    (repeated : id ∈ before) :
    program.convert options = .error ⟨.invalidState (.redeclared id), .dummy⟩ := by
  obtain ⟨t, refused⟩ := (ScopeTable.empty options.temporaryName).reserve_all_repeated before id
    after distinct (fun _ _ => rfl) (Or.inl repeated)
  simp only [convert, ScopeTable.reserveProgram, split, refused]
  rfl

theorem convert_cases :
    (∃ id, program.convert options = .error ⟨.invalidState (.redeclared id), .dummy⟩) ∨
    (∃ span, program.convert options = .error ⟨.missingFunctionalMethod, span⟩) ∨
    (program.declaredIds.Nodup ∧ program.closures.findSome? unnamedIn? = none ∧
      ∃ classes extracts t t', Minted (.empty options.temporaryName) t program.declaredIds ∧
        Converts options program.site (program.classes.map .cls) t (classes.map .cls) extracts t' ∧
        program.convert options = .ok
          ⟨{ program with classes := classes ++ extracts.map (·.cls) },
            extracts.map (·.report)⟩) := by
  by_cases distinct : program.declaredIds.Nodup
  · obtain ⟨t, minted, outcome⟩ := program.convert_distinct options distinct
    cases blame : program.closures.findSome? unnamedIn? with
    | none =>
      rw [blame] at outcome
      obtain ⟨classes, extracts, t', converts, result⟩ := outcome
      exact Or.inr (Or.inr ⟨distinct, rfl, classes, extracts, t, t', minted, converts, result⟩)
    | some span =>
      rw [blame] at outcome
      exact Or.inr (Or.inl ⟨span, outcome⟩)
  · obtain ⟨before, id, after, split, first, again⟩ := first_repeated distinct
    exact Or.inl ⟨id, program.convert_repeated options split first again⟩

theorem converts_of_convert {c : Conversion} (converted : program.convert options = .ok c) :
    program.declaredIds.Nodup ∧ program.closures.findSome? unnamedIn? = none ∧
      ∃ classes extracts t t', Minted (.empty options.temporaryName) t program.declaredIds ∧
        Converts options program.site (program.classes.map .cls) t (classes.map .cls) extracts t' ∧
        c = ⟨{ program with classes := classes ++ extracts.map (·.cls) },
          extracts.map (·.report)⟩ := by
  rcases program.convert_cases options with ⟨id, failed⟩ | ⟨span, failed⟩ |
    ⟨distinct, named, classes, extracts, t, t', minted, converts, result⟩
  · rw [failed] at converted
    cases converted
  · rw [failed] at converted
    cases converted
  · rw [result, Except.ok.injEq] at converted
    exact ⟨distinct, named, classes, extracts, t, t', minted, converts, converted.symm⟩

theorem mem_closures {c : Class} {e : Expr} :
    (c, e) ∈ program.closures ↔ c ∈ program.classes ∧ .expr e ∈ c.nodes ∧ e.isClosure = true := by
  simp only [closures, List.mem_flatMap, List.mem_map, Prod.mk.injEq]
  constructor
  · rintro ⟨d, member, e', inside, rfl, rfl⟩
    exact ⟨member, (Node.mem_closures (n := .cls d)).mp inside⟩
  · rintro ⟨member, inside⟩
    exact ⟨c, member, e, (Node.mem_closures (n := .cls c)).mpr inside, rfl, rfl⟩

theorem all_named_iff :
    (∀ literal ∈ program.closures, unnamedIn? literal = none) ↔
      ∀ c ∈ program.classes, ∀ e, .expr e ∈ c.nodes → e.Named := by
  simp only [unnamed_in_eq_none, Prod.forall, mem_closures]
  constructor
  · intro named c member e inside
    cases literal : e.isClosure with
    | true => exact named c e ⟨member, inside, literal⟩
    | false =>
      cases e with
      | lambda | methodReference | anonymousClass => cases literal
      | _ => trivial
  · rintro named c e ⟨member, inside, _⟩
    exact named c member e inside

/-- A program is converted exactly if it declares nothing twice and its closures name their methods.
Otherwise the first identifier that is declared again is reported, without a place; and only if
there is none, the first closure in post-order that does not name its method, at its own place if
that is known and else at that of the class around it. No closure is ever found where it is not
expected. -/
theorem conversion_outcome_exact :
    ((∃ c, program.convert options = .ok c) ↔ program.declaredIds.Nodup ∧
      ∀ c ∈ program.classes, ∀ e, .expr e ∈ c.nodes → e.Named) ∧
    (∀ before id after, program.declaredIds = before ++ id :: after → before.Nodup → id ∈ before →
      program.convert options = .error ⟨.invalidState (.redeclared id), .dummy⟩) ∧
    (program.declaredIds.Nodup → ∀ before c e after,
      program.closures = before ++ (c, e) :: after →
      (∀ literal ∈ before, literal.2.Named) → ¬ e.Named →
      program.convert options =
        .error ⟨.missingFunctionalMethod, if e.span.isDummy then c.span else e.span⟩) ∧
    ∀ error construct, program.convert options = .error error →
      error.cause ≠ .unsupportedConstruct construct := by
  refine ⟨⟨?_, ?_⟩, ?_, ?_, ?_⟩
  · rintro ⟨c, converted⟩
    obtain ⟨distinct, named, _⟩ := program.converts_of_convert options converted
    exact ⟨distinct, program.all_named_iff.mp (List.findSome?_eq_none_iff.mp named)⟩
  · rintro ⟨distinct, named⟩
    obtain ⟨t, minted, outcome⟩ := program.convert_distinct options distinct
    rw [List.findSome?_eq_none_iff.mpr (program.all_named_iff.mpr named)] at outcome
    obtain ⟨classes, extracts, t', _, converted⟩ := outcome
    exact ⟨_, converted⟩
  · intro before id after split distinct repeated
    exact program.convert_repeated options split distinct repeated
  · intro distinct before c e after split named unnamed
    obtain ⟨t, minted, outcome⟩ := program.convert_distinct options distinct
    have earlier : before.findSome? unnamedIn? = none := by
      rw [List.findSome?_eq_none_iff]
      intro literal member
      exact unnamed_in_eq_none.mpr (named literal member)
    have blame : program.closures.findSome? unnamedIn? = some (e.span.orElse c.span) := by
      rw [split, List.findSome?_append, earlier, List.findSome?_cons]
      simp [unnamedIn?, unnamed_eq_some unnamed]
    rw [blame] at outcome
    exact outcome
  · intro error construct failed
    rcases program.convert_cases options with ⟨id, result⟩ | ⟨span, result⟩ |
      ⟨_, _, _, _, _, _, _, _, result⟩
    · rw [result] at failed
      cases failed
      simp
    · rw [result] at failed
      cases failed
      simp
    · rw [result] at failed
      cases failed

end Program

end ClosureLift
