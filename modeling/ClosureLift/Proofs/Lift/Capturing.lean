import ClosureLift.Proofs.Lift.Instance
import Mathlib.Data.List.Nodup

/-!
A body and its lifted form, side by side. What the body keeps in a captured variable its lifted form
keeps in a field of the instance, and where the body reads or assigns the one, the lifted form reads
or writes the other. The variables that the body declares itself are variables on both sides.
-/
namespace ClosureLift

open Eval

structure Supplies (slots : List Slot) (body : List Stmt) : Prop where
  fields : (slots.map (·.field)).Nodup
  keys : (slots.map (·.capture.key)).Nodup
  taken : ∀ slot ∈ slots, ∃ ref, .expr (.reference ref) ∈ Stmt.nodesAll body ∧
    slot.capture = .ofReference [] ref
  undeclared : ∀ slot ∈ slots, ∀ x y init, slot.capture = .variable x →
    .stmt (.decl y init) ∈ Stmt.nodesAll body → x.id ≠ y.id
  instances : ∀ cls, .expr (.this cls) ∈ Stmt.nodesAll body →
    .thisOf cls ∈ slots.map (·.capture.key)

/-- A body in which variables and instances do not meet: no variable goes by the identifier of an
instance, and no instance is assigned to. -/
structure Separates (body : List Stmt) : Prop where
  apart : ∀ x cls, .expr (.var x) ∈ Stmt.nodesAll body → .expr (.this cls) ∈ Stmt.nodesAll body →
    x.id ≠ .thisOf cls
  fixed : ∀ cls value, .expr (.assign (.this cls) value) ∉ Stmt.nodesAll body

namespace Supplies

variable {slots : List Slot} {body : List Stmt} (supplies : Supplies slots body)
include supplies

theorem eq_of_field {first second : Slot} (one : first ∈ slots) (other : second ∈ slots)
    (same : first.field = second.field) : first = second :=
  List.inj_on_of_nodup_map supplies.fields one other same

theorem eq_of_key {first second : Slot} (one : first ∈ slots) (other : second ∈ slots)
    (same : first.capture.key = second.capture.key) : first = second :=
  List.inj_on_of_nodup_map supplies.keys one other same

theorem capture_cases (separates : Separates body) {slot : Slot} (member : slot ∈ slots)
    {ref : Reference} (occurs : .expr (.reference ref) ∈ Stmt.nodesAll body)
    (same : slot.capture.key = ref.key) :
    (∃ x y, ref = .variable x ∧ slot.capture = .variable y ∧ y.id = x.id) ∨
      ∃ cls, ref = .this cls ∧ slot.capture = .this cls := by
  obtain ⟨found, there, captured⟩ := supplies.taken slot member
  rw [captured, Capture.key_of_reference] at same
  rcases found with y | cls <;> rcases ref with x | cls'
  · exact Or.inl ⟨x, y, rfl, captured, same⟩
  · exact absurd same (separates.apart y cls' there occurs)
  · exact absurd same.symm (separates.apart x cls occurs there)
  · obtain rfl := this_of_inj same
    exact Or.inr ⟨cls, rfl, captured⟩

end Supplies

theorem Capture.Holds.keep {this : Option Nat} {before after : Heap} {locals : Locals}
    {c : Capture} {v : Value} (holds : c.Holds this before locals v) (kept : before.Keeps after) :
    c.Holds this after locals v := by
  rcases c with x | cls | _
  · exact holds
  · obtain ⟨r, here, below, own, same⟩ := holds
    refine ⟨r, here, Nat.lt_of_lt_of_le below kept.grows, ?_, same⟩
    rw [kept.classes r below, own]
  · cases holds

theorem Capture.Holds.set {this : Option Nat} {heap : Heap} {locals : Locals} {c : Capture}
    {v : Value} (holds : c.Holds this heap locals v) {id : Identifier}
    (other : ∀ x, c = .variable x → x.id ≠ id) (w : Value) :
    c.Holds this heap (locals.set id w) v := by
  rcases c with x | cls | _
  · rw [Capture.Holds, Locals.get_set, if_neg (other x rfl)]
    exact holds
  · exact holds
  · cases holds

/-- The object holds in its fields what the first frame holds for the captures; the other variables
of the frames hold the same. -/
structure Carries (a : Nat) (owner : TypeName) (this : Option Nat) (slots : List Slot)
    (extra : Object) (heap : Heap) (locals locals' : Locals) : Prop where
  cls : extra.cls = owner
  held : ∀ slot ∈ slots, ∃ v, slot.capture.Holds this heap locals v ∧
    extra.fields.lookup slot.field = some (v.shift a)
  others : Locals.ShiftedOutside a (slots.map (·.capture.key)) locals locals'

section

variable {a : Nat} {owner : TypeName} {this : Option Nat} {slots : List Slot} {body : List Stmt}

theorem carries_lasting : Coupling.Lasting (Carries a owner this slots) := by
  intro extra before after locals locals' carries kept
  refine ⟨carries.cls, ?_, carries.others⟩
  intro slot member
  obtain ⟨v, holds, held⟩ := carries.held slot member
  exact ⟨v, holds.keep kept, held⟩

theorem Carries.set {extra : Object} {heap : Heap} {locals locals' : Locals}
    (carries : Carries a owner this slots extra heap locals locals') {id : Identifier}
    (other : ∀ slot ∈ slots, ∀ x, slot.capture = .variable x → x.id ≠ id) (v : Value) :
    Carries a owner this slots extra heap (locals.set id v) (locals'.set id (v.shift a)) := by
  refine ⟨carries.cls, ?_, carries.others.set id v⟩
  intro slot member
  obtain ⟨w, holds, held⟩ := carries.held slot member
  exact ⟨w, holds.set (other slot member) v, held⟩

theorem Carries.write (supplies : Supplies slots body) {extra : Object} {heap : Heap}
    {locals locals' : Locals} (carries : Carries a owner this slots extra heap locals locals')
    {slot : Slot} (member : slot ∈ slots) {x : Variable} (captured : slot.capture = .variable x)
    (v : Value) :
    Carries a owner this slots
      { extra with fields := setField extra.fields slot.field (v.shift a) } heap
      (locals.set x.id v) locals' := by
  refine ⟨carries.cls, ?_, ?_⟩
  · intro other among
    obtain ⟨w, holds, held⟩ := carries.held other among
    -- One slot has one field and one key, so the write and the assignment miss the same slots.
    by_cases same : other.field = slot.field
    · obtain rfl := supplies.eq_of_field among member same
      refine ⟨v, ?_, ?_⟩
      · rw [captured, Capture.Holds, Locals.get_set, if_pos rfl]
      · rw [lookup_set_field, if_pos rfl, held, Option.map_some]
    · refine ⟨w, holds.set ?_ v, ?_⟩
      · intro y reads equal
        apply same
        rw [supplies.eq_of_key among member (by rw [reads, captured]; exact equal)]
      · rw [lookup_set_field, if_neg same, held]
  · intro id outside
    have different : id ≠ x.id := by
      rintro rfl
      exact outside (List.mem_map.mpr ⟨slot, member, by rw [captured]; rfl⟩)
    rw [Locals.get_set, if_neg different, carries.others id outside]

variable (shape : Shape) (first second : Context) (supplies : Supplies slots body)
  (separates : Separates body) (mine : second.this = some a)
include supplies separates mine

theorem captured_read {ref : Reference} (occurs : .expr (.reference ref) ∈ Stmt.nodesAll body) :
    Simulates (Coupling.Frames (Carries a shape.name first.this slots) a) (Value.shift a)
      ((Expr.reference ref).eval first)
      (((shape.substitution slots).reference ref).eval second) := by
  rcases shape.substitution_cases slots ref with ⟨outside, stays⟩ | ⟨slot, member, same, becomes⟩
  · rw [stays]
    rcases ref with x | cls
    · apply read_variable_simulates
      intro extra heap locals locals' carries
      exact carries.others x.id outside
    · -- An instance is always taken from outside.
      exact absurd (supplies.instances cls occurs) outside
  · rw [becomes]
    rintro ⟨heap, locals⟩ ⟨heap', locals'⟩ ⟨extra, displaced, carries⟩
    obtain ⟨v, holds, held⟩ := carries.held slot member
    have read := slot_read mine (displaced.className_added.trans carries.cls) slot
      ((displaced.field_added slot.field).trans held) locals'
    have plain : ((Expr.reference ref).eval first).run.run ⟨heap, locals⟩ =
        (.ok v, ⟨heap, locals⟩) := by
      rcases supplies.capture_cases separates member occurs same with
        ⟨x, y, rfl, captured, equal⟩ | ⟨cls, rfl, captured⟩
      · rw [captured, Capture.Holds, equal] at holds
        rw [Expr.eval, read_variable_run, holds]
      · rw [captured] at holds
        exact holds.read
    rw [read, plain]
    exact ⟨rfl, extra, displaced, carries⟩

theorem captured_write {ref : Reference} {value : Expr}
    (occurs : .expr (.assign (.reference ref) value) ∈ Stmt.nodesAll body)
    (inside : .expr (.reference ref) ∈ Stmt.nodesAll body) (v : Value) :
    Simulates (Coupling.Frames (Carries a shape.name first.this slots) a) (Value.shift a)
      (assignTo first (.reference ref) v)
      (assignTo second ((shape.substitution slots).reference ref) (v.shift a)) := by
  rcases ref with x | cls
  · rcases shape.substitution_cases slots (.variable x) with
      ⟨outside, stays⟩ | ⟨slot, member, same, becomes⟩
    · rw [stays]
      refine (write_variable_simulates x v ?_).bind fun _ => .pure v
      intro extra heap locals locals' carries
      apply carries.set
      intro slot member y captured equal
      exact outside (List.mem_map.mpr ⟨slot, member, by rw [captured]; exact equal⟩)
    · rw [becomes]
      rintro ⟨heap, locals⟩ ⟨heap', locals'⟩ ⟨extra, displaced, carries⟩
      obtain ⟨w, _, held⟩ := carries.held slot member
      have written := slot_write mine (displaced.className_added.trans carries.cls) slot
        ((displaced.field_added slot.field).trans held) locals' (v.shift a)
      rw [written]
      refine ⟨rfl, _, displaced.store_added slot.field (v.shift a), ?_⟩
      rcases supplies.capture_cases separates member inside same with
        ⟨_, y, ⟨⟩, captured, equal⟩ | ⟨cls, ⟨⟩, captured⟩
      have stored := carries.write supplies member captured v
      rw [equal] at stored
      exact stored
  · exact absurd occurs (separates.fixed cls value)

theorem lifted_body_linked : ∀ m ∈ Stmt.nodesAll body,
    Linked (Carries a shape.name first.this slots) a (shape.substitution slots) first second m := by
  intro m occurs
  constructor
  · rintro ref rfl
    exact captured_read shape first second supplies separates mine occurs
  · rintro ref value rfl v
    have inside : .expr (.reference ref) ∈ Stmt.nodesAll body := by
      rw [statement_list_walk] at occurs ⊢
      exact Node.child_of_mem_preorderAll occurs (by simp [Node.children, Node.ofExpr])
    exact captured_write shape first second supplies separates mine occurs inside v
  · rintro x init rfl v
    apply write_variable_simulates
    intro extra heap locals locals' carries
    apply carries.set
    intro slot member y captured
    exact supplies.undeclared slot member y x init captured occurs

end

namespace ClosureBody

variable (closure : ClosureBody)

def parts : List Node :=
  closure.fields.map .field ++
    [.method ⟨closure.method, false, [], closure.params, closure.returnType, closure.body⟩]

def declared : List Identifier :=
  (closure.params ++ (Stmt.nodesAll closure.body).flatMap Node.declares).map (·.id)

def captured : List Variable :=
  (((Stmt.nodesAll closure.body).filterMap Node.reference?).filterMap Reference.decl?).filter
    fun x => !closure.declared.contains x.id

theorem mem_captured {x : Variable} :
    x ∈ closure.captured ↔
      .expr (.var x) ∈ Stmt.nodesAll closure.body ∧ x.id ∉ closure.declared := by
  simp only [captured, List.mem_filter, List.mem_filterMap, Bool.not_eq_true',
    List.contains_eq_mem, decide_eq_false_iff_not]
  constructor
  · rintro ⟨⟨ref, ⟨n, member, reads⟩, found⟩, own⟩
    rw [Node.reference_eq_some] at reads
    subst reads
    rcases ref with y | cls
    · cases found
      exact ⟨member, own⟩
    · cases found
  · rintro ⟨member, own⟩
    exact ⟨⟨.variable x, ⟨_, member, rfl⟩, rfl⟩, own⟩

theorem mem_parts {n : Node} : n ∈ Node.preorderAll closure.parts ↔
    (∃ f ∈ closure.fields, n = .field f) ∨
    n = .method ⟨closure.method, false, [], closure.params, closure.returnType, closure.body⟩ ∨
    n ∈ Stmt.nodesAll closure.body := by
  simp only [parts, Node.preorderAll_append, Node.field_list_walk, Node.preorderAll_cons,
    Node.preorderAll_nil, List.append_nil, Node.preorder, method_walk, List.mem_append,
    List.mem_map, List.mem_cons, eq_comm (b := n)]

theorem free_reference_in_body {own : Option TypeName} {ref : Reference}
    (member : ref ∈ freeReferences own closure.parts) :
    .expr (.reference ref) ∈ Stmt.nodesAll closure.body := by
  rcases closure.mem_parts.mp (free_reference_occurs member).1 with ⟨_, _, ⟨⟩⟩ | ⟨⟨⟩⟩ | inside
  exact inside

theorem captured_variable {ref : Reference} {x : Variable}
    (same : Capture.ofReference [] ref = .variable x) : ref = .variable x := by
  rcases ref with y | cls
  · cases same
    rfl
  · cases same

theorem declared_parts : Node.declared closure.parts = closure.declared := by
  have fields : (closure.fields.map Node.field).flatMap Node.declares = [] := by
    rw [List.flatMap_eq_nil_iff]
    intro n member
    obtain ⟨f, _, rfl⟩ := List.mem_map.mp member
    rfl
  simp only [Node.declared, parts, Node.preorderAll_append, Node.field_list_walk,
    List.flatMap_append, fields, List.nil_append, Node.preorderAll_cons, Node.preorderAll_nil,
    List.append_nil, Node.preorder, method_walk, List.flatMap_cons, declared, Node.declares]

theorem captured_of_free {own : Option TypeName} {x : Variable}
    (free : .variable x ∈ freeReferences own closure.parts) : x ∈ closure.captured := by
  have outside := (free_reference_occurs free).2
  rw [declared_parts] at outside
  rw [mem_captured]
  exact ⟨closure.free_reference_in_body free, by simpa [Reference.isFree] using outside⟩

theorem supplies (name : TypeName) (options : LiftOptions) :
    Supplies ((closure.shape name).slots [] options) closure.body where
  fields := (Slot.assign_fields _ _ _).1
  keys := by
    rw [Shape.slot_keys]
    exact free_reference_keys_nodup _ _
  taken := by
    intro slot member
    obtain ⟨ref, free, captured⟩ := (closure.shape name).slot_of_free_reference member
    exact ⟨ref, closure.free_reference_in_body free, captured⟩
  undeclared := by
    intro slot member x y init captured declared same
    obtain ⟨ref, free, found⟩ := (closure.shape name).slot_of_free_reference member
    obtain rfl := captured_variable (found.symm.trans captured)
    apply (closure.mem_captured.mp (closure.captured_of_free free)).2
    rw [same]
    apply List.mem_map_of_mem
    exact List.mem_append_right _ (List.mem_flatMap.mpr ⟨_, declared, List.mem_singleton.mpr rfl⟩)
  instances := by
    intro cls occurs
    rw [Shape.slot_keys]
    exact free_reference_key_found (closure.mem_parts.mpr (Or.inr (Or.inr occurs))) rfl

theorem captured_key {name : TypeName} {options : LiftOptions} {x : Variable}
    (member : x ∈ closure.captured) :
    x.id ∈ ((closure.shape name).slots [] options).map (·.capture.key) := by
  obtain ⟨occurs, own⟩ := closure.mem_captured.mp member
  rw [← declared_parts] at own
  rw [Shape.slot_keys]
  apply free_reference_key_found (closure.mem_parts.mpr (Or.inr (Or.inr occurs)))
  simpa [Reference.isFree] using own

theorem captured_not_parameter {x y : Variable} (member : x ∈ closure.captured)
    (param : y ∈ closure.params) : x.id ≠ y.id := by
  intro same
  apply (closure.mem_captured.mp member).2
  rw [same]
  exact List.mem_map_of_mem (List.mem_append_left _ param)

theorem lift_inversion (free : Node.ClosureFree (closure.body.map .stmt)) {scope : Identifier}
    {enclosing : TypeName} {options : LiftOptions} {t t' : ScopeTable} {lifted : Lifted}
    (run : (closure.lift scope enclosing options).run.run t = (.ok lifted, t')) :
    ∃ name params,
      lifted = (closure.shape name).outcome ((closure.shape name).slots [] options) params ∧
      params.length = ((closure.shape name).slots [] options).length ∧
      (params.map (·.id)).Nodup := by
  have methods (name : TypeName) : Node.ClosureFree ((closure.shape name).methods.map .method) :=
    Node.closure_free_cons.mpr ⟨rfl, free, Node.closure_free_nil⟩
  by_cases named : closure.method = ""
  · simp only [lift, named, ↓reduceIte] at run
    cases run
  · let name := (t.freshClassName enclosing).1
    have minted := Shape.mint_params_minted (scope.type name).constructor
      ((closure.shape name).slots [] options) (t.freshClassName enclosing).2
    have lifts := (closure.shape name).lift_run scope [] options (methods name)
      (t.freshClassName enclosing).2 rfl
    have same : (closure.lift scope enclosing options).run.run t =
        ((closure.shape name).lift scope [] options).run.run (t.freshClassName enclosing).2 := by
      simp only [lift, named, ↓reduceIte]
      rfl
    rw [same, lifts] at run
    cases run
    exact ⟨name, _, rfl, minted.2, minted.1.distinct⟩

end ClosureBody

end ClosureLift
