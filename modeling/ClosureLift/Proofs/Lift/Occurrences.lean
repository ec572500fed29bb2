import ClosureLift.Proofs.Lift.Closed
import ClosureLift.Proofs.Program.Places
import Mathlib.Data.List.Forall2

/-!
What becomes of each occurrence. A lifted method has the parts of the method it was made from, at
the same places. Only references change, and those by key: a reference whose key is captured becomes
a read of the field. Captured variables are never the closure's own, so a variable that the closure
declares stays what it is, unless it goes by the identifier of an instance that the closure
captures.
-/
namespace ClosureLift

open Node (ClosureFree)

namespace Node

theorem part_replaced (σ : Substitution) {n m : Node} {place : List Nat} (free : ClosureFree [n])
    (there : n.part? place = some m) : (n.replaced σ).part? place = some (m.replaced σ) := by
  induction place generalizing n with
  | nil =>
    cases there
    rfl
  | cons i rest ih =>
    obtain ⟨c, child, under⟩ := Option.bind_eq_some_iff.mp there
    have plain := free.self List.mem_cons_self
    have other : n.reference? = none := by
      cases read : n.reference? with
      | none => rfl
      | some ref =>
        rw [reference_eq_some] at read
        subst read
        cases child
    have part := (free.children List.mem_cons_self).one (List.mem_of_getElem? child)
    rw [part?, children_replaced σ n plain other, List.getElem?_map, child]
    exact ih part under

end Node

/-- What a part becomes in a class with these slots. A reference is looked up by key, and every
other part stays the construct that it is, with as many parts. -/
inductive Appears (slots : List Slot) (owner : TypeName) : Node → Node → Prop where
  | same {n n' : Node} (other : n.reference? = none) (alike : n'.bare = n.bare)
      (parts : n'.children.length = n.children.length) : Appears slots owner n n'
  | kept {ref : Reference} (apart : ref.key ∉ slots.map (·.capture.key)) :
      Appears slots owner (.expr (.reference ref)) (.expr (.reference ref))
  | taken {ref : Reference} {slot : Slot} (member : slot ∈ slots)
      (key : slot.capture.key = ref.key) :
      Appears slots owner (.expr (.reference ref)) (.expr (slot.access owner))

namespace Shape

variable (shape : Shape)

theorem appears (slots : List Slot) {n : Node} (plain : n.isClosure = false) :
    Appears slots shape.name n (n.replaced (shape.substitution slots)) := by
  cases read : n.reference? with
  | none =>
    refine .same read (Node.bare_replaced _ n plain read) ?_
    rw [Node.children_replaced _ n plain read, List.length_map]
  | some ref =>
    rw [Node.reference_eq_some] at read
    subst read
    rw [Node.replaced, Expr.replaced]
    rcases shape.substitution_cases slots ref with ⟨apart, stays⟩ | ⟨slot, member, key, becomes⟩
    · rw [stays]
      exact .kept apart
    · rw [becomes]
      exact .taken member key

theorem declared_key {values : List (Variable × Expr)} {options : LiftOptions} {slot : Slot}
    (member : slot ∈ shape.slots values options)
    (declared : slot.capture.key ∈ Node.declared shape.nodes) :
    ∃ cls, slot.capture = .this cls := by
  obtain ⟨ref, free, captured⟩ := shape.slot_of_free_reference member
  rw [captured, Capture.key_of_reference] at declared
  rcases ref with x | cls
  · have outside := (free_reference_occurs free).2
    simp only [Reference.isFree, Bool.not_eq_true', List.contains_eq_mem,
      decide_eq_false_iff_not] at outside
    exact absurd declared outside
  · exact ⟨cls, captured⟩

theorem own_variable_kept (values : List (Variable × Expr)) (options : LiftOptions) {x : Variable}
    (own : x.id ∈ Node.declared shape.nodes) :
    (Node.expr (.var x)).replaced (shape.substitution (shape.slots values options)) =
        .expr (.var x) ↔
      ∀ slot ∈ shape.slots values options, ∀ cls, slot.capture = .this cls →
        x.id ≠ .thisOf cls := by
  rw [Node.replaced, Expr.var, Expr.replaced]
  rcases shape.substitution_cases (shape.slots values options) (.variable x) with
    ⟨apart, stays⟩ | ⟨slot, member, key, becomes⟩
  · rw [stays]
    refine iff_of_true rfl ?_
    intro slot member cls captured same
    apply apart
    rw [Reference.key, same]
    exact List.mem_map.mpr ⟨slot, member, by rw [captured]; rfl⟩
  · rw [becomes]
    have key : slot.capture.key = x.id := key
    refine iff_of_false (fun same => by cases same) ?_
    intro apart
    obtain ⟨cls, captured⟩ := shape.declared_key member (key ▸ own)
    apply apart slot member cls captured
    rw [← key, captured]
    rfl

end Shape

namespace Closure

def methods (closure : Closure) (site : Site) (t : ScopeTable) : List Method :=
  match closure with
  | .body closure =>
    [⟨closure.method, false, [], closure.params, closure.returnType, closure.body⟩]
  | .reference closure => ((Closure.reference closure).sketch site t).shape.methods
  | .anonymous closure => closure.methods

def renamed (closure : Closure) (name : TypeName) (n : Node) : Node :=
  match closure with
  | .anonymous closure => n.rename (closure.name.replace name)
  | _ => n

/-- The variables that are the closure's own: the parameters and locals that its methods declare. -/
def own (closure : Closure) (site : Site) (t : ScopeTable) : List Identifier :=
  Node.declared ((closure.methods site t).map .method)

variable (closure : Closure) (site : Site) (t : ScopeTable)

theorem sketch_methods :
    (closure.sketch site t).shape.methods.map Node.method =
      ((closure.methods site t).map .method).map
        (closure.renamed (closure.sketch site t).shape.name) := by
  cases closure with
  | body closure => rfl
  | reference closure => exact (List.map_id _).symm
  | anonymous closure =>
    rw [List.map_map]
    refine (congrArg (List.map Node.method) (method_list_rename _ _)).trans ?_
    exact List.map_map

theorem sketch_declared :
    Node.declared (closure.sketch site t).shape.nodes = closure.own site t := by
  rw [Shape.declared_nodes, sketch_methods]
  cases closure with
  | anonymous closure => exact Node.declared_rename _ _
  | _ => exact congrArg Node.declared (List.map_id _)

theorem part_renamed (name : TypeName) (n : Node) (place : List Nat) :
    (closure.renamed name n).part? place = (n.part? place).map (closure.renamed name) := by
  cases closure with
  | anonymous closure => exact Node.part_rename _ n place
  | _ => exact Option.map_id'.symm

theorem renamed_variable (name : TypeName) (x : Variable) :
    ∃ y : Variable, y.id = x.id ∧ closure.renamed name (.expr (.var x)) = .expr (.var y) := by
  cases closure with
  | anonymous closure => exact ⟨x.rename (closure.name.replace name), rfl, rfl⟩
  | _ => exact ⟨x, rfl, rfl⟩

theorem lifted_methods {closure : Closure} {site : Site} {options : LiftOptions}
    {t t' : ScopeTable} {made : Lifted}
    (lifts : (closure.lift site options).run.run t = (.ok made, t')) :
    List.Forall₂ (fun m m' => ClosureFree [closure.renamed made.cls.name (.method m)] ∧
        Node.method m' = (closure.renamed made.cls.name (.method m)).replaced
          ((closure.sketch site t).shape.substitution made.slots))
      (closure.methods site t) made.cls.methods := by
  obtain ⟨free, params, _, _, rfl⟩ := Shape.lift_builds _ (lift_sketched lifts)
  have methods := closure.sketch_methods site t
  rw [List.map_map] at methods
  have matched : List.Forall₂ (fun m n => ClosureFree [n] ∧
      n = closure.renamed (closure.sketch site t).shape.name (.method m))
      (closure.methods site t) ((closure.sketch site t).shape.methods.map .method) := by
    rw [methods, List.forall₂_map_right_iff, List.forall₂_same]
    intro m member
    refine ⟨?_, rfl⟩
    apply free.one
    rw [methods]
    exact List.mem_map_of_mem member
  rw [List.forall₂_map_right_iff] at matched
  refine List.forall₂_map_right_iff.mpr (matched.imp ?_)
  intro m original same
  rw [Shape.outcome, ← same.2]
  exact ⟨same.1, rfl⟩

end Closure

/-- In a lifted method every part of the original stands at its place, and only references whose
keys are captured are exchanged. A variable that the closure declares itself is never captured; it
is exchanged exactly if the closure captures an instance that goes by the same identifier. -/
theorem Closure.own_variables_kept {closure : Closure} {site : Site} {options : LiftOptions}
    {t t' : ScopeTable} {made : Lifted}
    (lifts : (closure.lift site options).run.run t = (.ok made, t')) :
    List.Forall₂ (fun m m' => ∀ place n, (Node.method m).part? place = some n →
        ∃ n', (Node.method m').part? place = some n' ∧
          Appears made.slots made.cls.name (closure.renamed made.cls.name n) n' ∧
          ∀ x, n = .expr (.var x) → x.id ∈ closure.own site t →
            (n' = closure.renamed made.cls.name n ↔
              ∀ slot ∈ made.slots, ∀ cls, slot.capture = .this cls → x.id ≠ .thisOf cls))
      (closure.methods site t) made.cls.methods := by
  have methods := lifted_methods lifts
  obtain ⟨_, params, _, _, rfl⟩ := Shape.lift_builds _ (lift_sketched lifts)
  refine methods.imp ?_
  intro m m' method place n there
  obtain ⟨free, lifted⟩ := method
  have renamed := closure.part_renamed (closure.sketch site t).shape.name (.method m) place
  rw [there, Option.map_some] at renamed
  refine ⟨_, (congrArg (·.part? place) lifted).trans (Node.part_replaced _ free renamed), ?_, ?_⟩
  · apply Shape.appears
    apply free
    exact Node.mem_preorderAll.mpr ⟨_, List.mem_cons_self, Node.part_mem_preorder renamed⟩
  · intro x same own
    obtain ⟨y, identified, becomes⟩ :=
      closure.renamed_variable (closure.sketch site t).shape.name x
    rw [← closure.sketch_declared, ← identified] at own
    rw [same, ← identified]
    change (closure.renamed (closure.sketch site t).shape.name _).replaced _ =
      closure.renamed (closure.sketch site t).shape.name _ ↔ _
    rw [becomes]
    exact Shape.own_variable_kept _ _ _ own

def Method.reads? (m : Method) (place : List Nat) : Option Reference :=
  ((Node.method m).part? place).bind Node.reference?

/-- A body that takes the instance of `Outer` from outside and returns its parameter, which goes by
the identifier of the instance of a class. -/
def ClosureBody.posing (cls : TypeName) : ClosureBody :=
  let p : Variable := ⟨.thisOf cls, "p", .integer⟩
  { interface := ⟨"IntUnaryOperator"⟩
    method := "apply"
    params := [p]
    returnType := .integer
    body := [.expr (.this ⟨"Outer"⟩), .ret (some (.var p))]
    fields := []
    span := .dummy }

theorem Closure.posing_variable_kept :
    ∃ made t', ((Closure.body (.posing ⟨"Other"⟩)).lift ⟨.top, ⟨"Outer"⟩⟩ .standard).run.run
        (.empty "_cassis_tmp_") = (.ok made, t') ∧
      made.slots.map (·.capture.key) = [.thisOf ⟨"Outer"⟩] ∧
      made.cls.methods.map (·.reads? [1, 0]) =
        [some (.variable ⟨.thisOf ⟨"Other"⟩, "p", .integer⟩)] := by
  have shown : (((Closure.body (.posing ⟨"Other"⟩)).lift ⟨.top, ⟨"Outer"⟩⟩ .standard).run.run
      (.empty "_cassis_tmp_")).1.map (·.slots.map (·.capture.key)) =
        .ok [.thisOf ⟨"Outer"⟩] := by decide +kernel
  obtain ⟨made, t', lifts, keys⟩ := lifted_of_view shown
  refine ⟨made, t', lifts, keys, ?_⟩
  have kept := own_variables_kept lifts
  cases methods : made.cls.methods with
  | nil =>
    rw [methods] at kept
    cases kept
  | cons m' rest =>
    rw [methods] at kept
    cases kept with
    | cons first none =>
      cases none
      obtain ⟨n', there, _, exact⟩ := first [1, 0] _ rfl
      have same := (exact ⟨.thisOf ⟨"Other"⟩, "p", .integer⟩ rfl (by decide)).mpr ?_
      · rw [same] at there
        rw [List.map_singleton, Method.reads?, there]
        rfl
      · intro slot member cls captured equal
        have key : slot.capture.key ∈ made.slots.map (·.capture.key) := List.mem_map_of_mem member
        rw [keys, captured, List.mem_singleton] at key
        exact absurd (equal.trans key) (by decide)

/-- The variable that the body declares, and returns, gives way to the field with the instance that
it takes from outside. -/
theorem Closure.posing_variable_replaced :
    let closure := Closure.body (.posing ⟨"Outer"⟩)
    let p : Variable := ⟨.thisOf ⟨"Outer"⟩, "p", .integer⟩
    p.id ∈ closure.own ⟨.top, ⟨"Outer"⟩⟩ (.empty "_cassis_tmp_") ∧
    (closure.methods ⟨.top, ⟨"Outer"⟩⟩ (.empty "_cassis_tmp_")).map (·.reads? [1, 0]) =
      [some (.variable p)] ∧
    ∃ made t', (closure.lift ⟨.top, ⟨"Outer"⟩⟩ .standard).run.run (.empty "_cassis_tmp_") =
        (.ok made, t') ∧
      made.cls.methods.map (fun m => (m.reads? [1, 0], m.reads? [1, 0, 0])) =
        [(none, some (.this ⟨"Outer_Anonymous_0"⟩))] := by
  refine ⟨by decide, by decide, ?_⟩
  apply lifted_of_view
  decide +kernel

end ClosureLift
