import ClosureLift.Proofs.Lift.Instance
import ClosureLift.Proofs.Lift.Replacement

/-!
The reports of a conversion. Each closure of a program, wherever it stands, has one class at the end
of the output and one report, at the same place in both lists; the report tells the fields of the
class that hold what the closure captured. Nothing else of the program changes.
-/
namespace ClosureLift

open Node (introduced)

theorem carried_reports (e : Expr) (name : TypeName) (inner : List Extract) :
    (e.carry name inner).map (·.report) = inner.map (·.report) := by
  cases e with
  | anonymousClass closure => simp [Expr.carry, Extract.rename]
  | _ => rfl

theorem extract_names {options : LiftOptions} {site : Site} {ns ns' : List Node}
    {xs : List Extract} {t t' : ScopeTable} (converts : Converts options site ns t ns' xs t')
    (known : t.Knows ns) :
    xs.map (·.report.className) = xs.map (·.cls.name) := by
  induction converts with
  | nil site t => rfl
  | @cons _ n n' ns ns' first later t t₁ _ head tail ihHead ihTail =>
    obtain ⟨here, there⟩ := known.cons
    obtain ⟨ids, minted, _, _⟩ := converts_accounts head here
    rw [List.map_append, List.map_append, ihHead here, ihTail (there.grown minted)]
  | part plain alike under ih => exact ih known.children
  | @closure site e e' inner shape values params t _ _ _ alike under sketch mint ih =>
    have below : t.Knows (Node.ofExpr e) := known.children
    obtain ⟨ids, minted, named, _⟩ := converts_accounts under below
    have kept := carried_introduced e shape.name inner fun x member =>
      known.apart minted (named x member)
    have reports := congrArg (List.map LiftReport.className) (carried_reports e shape.name inner)
    rw [List.map_map, List.map_map] at reports
    rw [List.map_append, List.map_append, kept.1, ← ih below]
    exact congrArg (· ++ _) reports

theorem Slot.assign_preferred {options : LiftOptions} {taken : List String}
    {captures : List Capture} {slot : Slot} (member : slot ∈ Slot.assign options taken captures) :
    slot.preferred = slot.capture.preferred options := by
  induction captures generalizing taken with
  | nil => cases member
  | cons c rest ih =>
    rcases List.mem_cons.mp member with rfl | later
    · rfl
    · exact ih later

/-- What every lifted class has in common, whatever closure it was made from. -/
structure Lifted.Holds (options : LiftOptions) (made : Lifted) : Prop where
  fields : ∃ declared, made.cls.fields = declared ++ made.slots.map Slot.toField
  params : made.cls.constructor.params.length = made.slots.length
  preferred : ∀ slot ∈ made.slots, slot.preferred = slot.capture.preferred options

theorem Shape.lift_holds {shape : Shape} {scope : Identifier} {values : List (Variable × Expr)}
    {options : LiftOptions} {t t' : ScopeTable} {made : Lifted}
    (run : (shape.lift scope values options).run.run t = (.ok made, t')) : made.Holds options := by
  obtain ⟨_, params, each, _, rfl⟩ := shape.lift_builds run
  exact ⟨⟨shape.fields, rfl⟩, each, fun slot => Slot.assign_preferred⟩

theorem lifts_holds {options : LiftOptions} {site : Site} {e : Expr} {t t' : ScopeTable}
    {made : Lifted} (lifts : e.LiftsTo options site t made t') : made.Holds options := by
  cases e with
  | lambda closure =>
    rw [Expr.LiftsTo, ClosureBody.lift_eq] at lifts
    split at lifts
    · cases lifts
    · exact Shape.lift_holds lifts
  | methodReference closure =>
    rw [Expr.LiftsTo, MethodReference.lift_eq] at lifts
    split at lifts
    · cases lifts
    · exact Shape.lift_holds lifts
  | anonymousClass closure =>
    rw [Expr.LiftsTo, AnonymousClass.lift_eq] at lifts
    exact Shape.lift_holds lifts
  | _ => cases lifts

theorem Lifted.renamed_slots {options : LiftOptions} (made : Lifted)
    (preferred : ∀ slot ∈ made.slots, slot.preferred = slot.capture.preferred options) :
    (made.slots.map fun slot => (slot.capture.preferred options, slot.field)).filter
        (fun names => names.1 ≠ names.2) =
      (made.slots.filter (·.isRenamed)).map fun slot => (slot.preferred, slot.field) := by
  have wished : (made.slots.map fun slot => (slot.capture.preferred options, slot.field)) =
      made.slots.map fun slot => (slot.preferred, slot.field) := by
    apply List.map_congr_left
    intro slot member
    rw [preferred slot member]
  rw [wished, List.filter_map]
  congr 1
  apply List.filter_congr
  intro slot _
  by_cases same : slot.preferred = slot.field <;> simp [Slot.isRenamed, same]

namespace Class

theorem renamed_params (c : Class) (names : List (TypeName × TypeName)) :
    (c.renamed names).constructor.params.length = c.constructor.params.length := by
  induction names generalizing c with
  | nil => rfl
  | cons name rest ih =>
    refine (ih _).trans ?_
    simp [Class.rename, Constructor.rename]

theorem renamed_fields (c : Class) (names : List (TypeName × TypeName)) :
    (c.renamed names).fields.map (·.name) = c.fields.map (·.name) := by
  induction names generalizing c with
  | nil => rfl
  | cons name rest ih =>
    refine (ih _).trans ?_
    simp [Class.rename, Field.rename]

def lastFields (c : Class) (count : Nat) : List String :=
  (c.fields.drop (c.fields.length - count)).map (·.name)

theorem last_fields_append {c : Class} {declared captured : List String}
    (fields : c.fields.map (·.name) = declared ++ captured) :
    c.lastFields captured.length = captured := by
  have length := congrArg List.length fields
  rw [List.length_map, List.length_append] at length
  rw [lastFields, List.map_drop, fields]
  exact List.drop_left' (by omega)

end Class

/-- A class and a report account for a closure: the call that stands for it constructs the class
from as many arguments as the report lists captures, and these are held by the last fields. -/
structure Accounted (options : LiftOptions) (source : Class × Expr) (r : Replacement)
    (made : Lifted) (cls : Class) (report : LiftReport) : Prop where
  literal : r.literal = source.2
  makes : r.Makes options source.1.name made cls
  className : report.className = cls.name
  form : report.form = source.2.form
  span : report.span = source.2.span
  enclosing : report.enclosing = source.1.name.origin
  constructs : r.ty.erasure? = some cls.name
  params : cls.constructor.params.length = r.args.length
  captures : report.captures = cls.lastFields r.args.length
  count : report.captures.length = r.args.length
  renamed : report.renamed = (made.slots.map fun slot =>
    (slot.capture.preferred options, slot.field)).filter fun names => names.1 ≠ names.2

theorem documents_accounted {options : LiftOptions} {source : Class × Expr} {r : Replacement}
    {x : Extract} (same : r.literal = source.2) (documents : Documents options source.1.name r x)
    (named : x.report.className = x.cls.name) :
    ∃ made, Accounted options source r made x.cls x.report := by
  obtain ⟨made, makes, report⟩ := documents
  obtain ⟨site, t, t', names, inside, lifts, call, cls⟩ := makes
  obtain ⟨⟨declared, fields⟩, params, preferred⟩ := lifts_holds lifts
  obtain ⟨ty, args⟩ := Expr.construct.inj call
  have arity : r.args.length = made.slots.length := by
    rw [args, List.length_map]
  have captures : x.report.captures = made.slots.map (·.field) := by rw [report]; rfl
  have held : x.cls.fields.map (·.name) =
      declared.map (·.name) ++ made.slots.map (·.field) := by
    rw [cls, Class.renamed_fields, fields, List.map_append, List.map_map]
    rfl
  have last := Class.last_fields_append held
  refine ⟨made, same, ⟨site, t, t', names, inside, lifts, call, cls⟩, named,
    ?_, ?_, ?_, ?_, ?_, ?_, ?_, ?_⟩
  · rw [report, ← same]
    rfl
  · rw [report, ← same]
    rfl
  · rw [report]
    rfl
  · have own : x.report.className = made.cls.name := by rw [report]; rfl
    rw [ty, Lifted.type_erasure, ← named, own]
  · rw [cls, Class.renamed_params, params, arity]
  · rw [List.length_map] at last
    rw [captures, arity, last]
  · rw [captures, arity, List.length_map]
  · rw [report, made.renamed_slots preferred]
    rfl

namespace Program

variable {program : Program} {options : LiftOptions} {c : Conversion}

theorem class_headers {cs ks : List Class}
    (each : List.Forall₂ Becomes (cs.map .cls) (ks.map .cls)) :
    ks.map Class.header = cs.map Class.header := by
  rw [List.forall₂_map_left_iff, List.forall₂_map_right_iff] at each
  induction each with
  | nil => rfl
  | cons head tail ih => rw [List.map_cons, List.map_cons, (becomes_class head).1, ih]

/-- Conversion changes nothing but closures. The classes of the program keep their place, their
headers and their bodies, in which constructor calls replace the outermost closures; after them
comes one class for each closure in post-order, and the reports account for these classes one by
one. -/
theorem conversion_accounts (converted : program.convert options = .ok c) :
    c.program.name = program.name ∧ c.program.files = program.files ∧
    ∃ kept lifted replacements,
      c.program.classes = kept ++ lifted ∧
      kept.map Class.header = program.classes.map Class.header ∧
      Replaced (program.classes.map .cls) (kept.map .cls) replacements ∧
      replacements.length = program.closures.length ∧
      lifted.length = program.closures.length ∧
      c.reports.length = program.closures.length ∧
      ∀ (i : Nat) source r cls report, program.closures[i]? = some source →
        replacements[i]? = some r → lifted[i]? = some cls → c.reports[i]? = some report →
        ∃ made, Accounted options source r made cls report := by
  obtain ⟨_, _, kept, extracts, t, t', minted, converts, rfl⟩ :=
    program.converts_of_convert options converted
  have names := extract_names converts (.of_classes minted)
  obtain ⟨entries, replaced, rfl, sources⟩ := classes_replaced converts
  have length : program.closures.length = entries.length := sources.length_eq
  refine ⟨rfl, rfl, kept, entries.map (·.2.cls), entries.map (·.1),
    ?_, ?_, replaced, ?_, ?_, ?_, ?_⟩
  · rw [List.map_map]
    rfl
  · exact class_headers (replaced_each replaced)
  · rw [List.length_map, length]
  · rw [List.length_map, length]
  · rw [List.length_map, List.length_map, length]
  · intro i source r cls report written stands held told
    obtain ⟨inside, rfl⟩ := List.getElem?_eq_some_iff.mp written
    have below : i < entries.length := length ▸ inside
    have here : entries[i]? = some entries[i] := List.getElem?_eq_getElem below
    rw [List.getElem?_map, here] at stands held
    rw [List.getElem?_map, List.getElem?_map, here] at told
    cases stands
    cases held
    cases told
    obtain ⟨same, documents⟩ := sources.get inside below
    have named : entries[i].2.report.className = entries[i].2.cls.name := by
      have at_i := congrArg (·[i]?) names
      simpa [here] using at_i
    exact documents_accounted same documents named

theorem nested_conversion_accounts :
    ∃ c kept lifted replacements, nested.convert .standard = .ok c ∧
      c.program.classes = kept ++ lifted ∧
      Replaced (nested.classes.map .cls) (kept.map .cls) replacements ∧
      replacements.length = 3 ∧ lifted.length = 3 ∧ c.reports.length = 3 ∧
      ∀ (i : Nat) source r cls report, nested.closures[i]? = some source →
        replacements[i]? = some r → lifted[i]? = some cls → c.reports[i]? = some report →
        ∃ made, Accounted .standard source r made cls report := by
  have runs : (nested.convert .standard).isOk = true := by decide +kernel
  have three : nested.closures.length = 3 := by decide +kernel
  cases converted : nested.convert .standard with
  | error e =>
    rw [converted] at runs
    cases runs
  | ok c =>
    obtain ⟨_, _, kept, lifted, replacements, classes, _, replaced, calls, made, told, accounted⟩ :=
      conversion_accounts converted
    rw [three] at calls made told
    exact ⟨c, kept, lifted, replacements, rfl, classes, replaced, calls, made, told, accounted⟩

end Program

end ClosureLift
