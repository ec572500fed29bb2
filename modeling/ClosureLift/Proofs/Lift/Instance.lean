import ClosureLift.Proofs.Lift.Closure
import ClosureLift.Proofs.Machine.Calls
import Mathlib.Data.List.Forall2

/-!
The object that stands for a closure. Every capture has a field of its own in it, different from the
fields that the closure declares, and the constructor stores each argument in the field of its
capture and does nothing else.
-/
namespace ClosureLift

open Eval

theorem fresh_name_free (taken : List String) (name : String) :
    freshName taken.contains taken.length name ∉ taken := by
  have outside := first_free_outside (numbered name) (fun _ _ => numbered_inj name) taken 0
  simpa [freshName] using outside

theorem Slot.assign_fields (options : LiftOptions) (taken : List String)
    (captures : List Capture) :
    ((Slot.assign options taken captures).map (·.field)).Nodup ∧
      ∀ slot ∈ Slot.assign options taken captures, slot.field ∉ taken := by
  induction captures generalizing taken with
  | nil => exact ⟨List.nodup_nil, by simp [Slot.assign]⟩
  | cons c rest ih =>
    have free := fresh_name_free taken (c.preferred options)
    obtain ⟨distinct, others⟩ :=
      ih (freshName taken.contains taken.length (c.preferred options) :: taken)
    simp only [Slot.assign, List.map_cons, List.nodup_cons, List.mem_map]
    refine ⟨⟨?_, distinct⟩, ?_⟩
    · rintro ⟨slot, member, same⟩
      apply others slot member
      rw [same]
      exact List.mem_cons_self
    · intro slot member
      rcases List.mem_cons.mp member with rfl | later
      · exact free
      · intro inside
        exact others slot later (List.mem_cons_of_mem _ inside)

theorem new_object_field {cls : Class} {f : Field} (member : f ∈ cls.fields)
    (dynamic : f.isStatic = false) : (Object.new cls).fields.lookup f.name = some .unit := by
  have named : f.name ∈ sorted compare ((cls.fields.filter (!·.isStatic)).map (·.name)) := by
    rw [mem_sorted fun (a b : String) => Std.LawfulEqOrd.eq_of_compare]
    exact List.mem_map.mpr ⟨f, List.mem_filter.mpr ⟨member, by simp [dynamic]⟩, rfl⟩
  simp only [Object.new]
  generalize sorted compare ((cls.fields.filter (!·.isStatic)).map (·.name)) = names at named ⊢
  induction names with
  | nil => cases named
  | cons name rest ih =>
    simp only [List.map_cons, List.lookup_cons]
    cases same : f.name == name with
    | true => rfl
    | false =>
      apply ih
      rcases List.mem_cons.mp named with here | later
      · simp [here] at same
      · exact later

theorem lookup_set_field (fields : List (String × Value)) (name other : String) (v : Value) :
    (setField fields name v).lookup other =
      if other = name then (fields.lookup other).map fun _ => v else fields.lookup other := by
  induction fields with
  | nil => simp [setField]
  | cons f rest ih =>
    obtain ⟨key, w⟩ := f
    simp only [setField] at ih
    simp only [setField, List.map_cons]
    by_cases here : other = key
    · subst here
      by_cases same : other = name
      · simp [same]
      · simp [same]
    · by_cases same : key = name
      · subst same
        simp only [↓reduceIte, List.lookup_cons, beq_eq_false_iff_ne.mpr here, ih]
      · simp only [same, ↓reduceIte, List.lookup_cons, beq_eq_false_iff_ne.mpr here, ih]

namespace Locals

theorem get_fold_outside (bindings : List (Variable × Value)) (locals : Locals) (id : Identifier)
    (outside : id ∉ bindings.map (·.1.id)) :
    (bindings.foldl (fun locals (x, v) => locals.set x.id v) locals).get? id = locals.get? id := by
  induction bindings generalizing locals with
  | nil => rfl
  | cons b rest ih =>
    simp only [List.map_cons, List.mem_cons, not_or] at outside
    rw [List.foldl_cons, ih _ outside.2, get_set, if_neg outside.1]

theorem get_fold_inside (bindings : List (Variable × Value)) (locals : Locals)
    (distinct : (bindings.map (·.1.id)).Nodup) {x : Variable} {v : Value}
    (member : (x, v) ∈ bindings) :
    (bindings.foldl (fun locals (x, v) => locals.set x.id v) locals).get? x.id = some v := by
  induction bindings generalizing locals with
  | nil => cases member
  | cons b rest ih =>
    rw [List.map_cons, List.nodup_cons] at distinct
    rw [List.foldl_cons]
    rcases List.mem_cons.mp member with rfl | later
    · rw [get_fold_outside _ _ _ distinct.1, get_set, if_pos rfl]
    · exact ih _ distinct.2 later

theorem of_arguments_bound {params : List Variable} (distinct : (params.map (·.id)).Nodup)
    (args : List Value) (each : params.length = args.length) :
    List.Forall₂ (fun x v => (ofArguments params args).get? x.id = some v) params args := by
  rw [List.forall₂_iff_zip]
  refine ⟨each, ?_⟩
  intro x v member
  apply get_fold_inside _ _ _ member
  have keys : (params.zip args).map (·.1.id) = params.map (·.id) := by
    have firsts := congrArg (List.map (·.id)) (List.map_fst_zip (Nat.le_of_eq each))
    rw [List.map_map] at firsts
    exact firsts
  rw [keys]
  exact distinct

theorem of_arguments_append {params : List Variable} {args : List Value}
    (each : params.length = args.length) (params' : List Variable) (args' : List Value) :
    ofArguments (params ++ params') (args ++ args') =
      (params'.zip args').foldl (fun locals (x, v) => locals.set x.id v)
        (ofArguments params args) := by
  rw [ofArguments, List.zip_append each, List.foldl_append]
  rfl

def held (locals : Locals) (id : Identifier) : Value := (locals.get? id).getD .unit

theorem get_fold_held (locals : Locals) (xs : List Variable) {start : Locals} {id : Identifier}
    (before : id ∈ xs.map (·.id) ∨ start.get? id = some (locals.held id)) :
    ((xs.zip (xs.map fun x => locals.held x.id)).foldl (fun locals (x, v) => locals.set x.id v)
      start).get? id = some (locals.held id) := by
  induction xs generalizing start with
  | nil => simpa using before
  | cons x rest ih =>
    apply ih
    by_cases same : id = x.id
    · right
      rw [get_set, if_pos same, same]
    · rcases before with inside | before
      · left
        exact (List.mem_cons.mp inside).resolve_left same
      · right
        rw [get_set, if_neg same, before]

theorem get_of_arguments_outside (params : List Variable) (args : List Value) {id : Identifier}
    (outside : id ∉ params.map (·.id)) : (ofArguments params args).get? id = none := by
  rw [ofArguments, get_fold_outside]
  · rfl
  · intro member
    obtain ⟨b, bound, same⟩ := List.mem_map.mp member
    exact outside (List.mem_map.mpr ⟨b.1, (List.of_mem_zip bound).1, same⟩)

end Locals

theorem self_of_class {ctx : Context} {a : Nat} {cls : TypeName} {f : Frame}
    (this : ctx.this = some a) (own : f.heap.className a = cls) :
    (ctx.self cls).run.run f = (.ok (.object a), f) := by
  rw [self_run, this]
  simp only [own, ↓reduceIte]
  rfl

section

variable {ctx : Context} {a : Nat} {owner : TypeName} {heap : Heap} {v : Value}
  (this : ctx.this = some a) (own : heap.className a = owner) (slot : Slot)
  (held : heap.field? a slot.field = some v)
include this own held

theorem slot_read (locals : Locals) :
    ((slot.access owner).eval ctx).run.run ⟨heap, locals⟩ = (.ok v, ⟨heap, locals⟩) := by
  have self := self_of_class (f := ⟨heap, locals⟩) this own
  rw [Slot.access, Expr.eval, Expr.this, Expr.eval, run_bind, self]
  simp only [read_field_run, held]

theorem slot_write (locals : Locals) (w : Value) :
    (assignTo ctx (slot.access owner) w).run.run ⟨heap, locals⟩ =
      (.ok w, ⟨heap.store a slot.field w, locals⟩) := by
  have self := self_of_class (f := ⟨heap, locals⟩) this own
  rw [Slot.access, assignTo, Expr.this, Expr.eval, run_bind, self]
  simp only [run_bind, write_field_run, held]
  rfl

end

theorem Shape.storing_runs (shape : Shape) (ctx : Context) {heap : Heap}
    (this : ctx.this = some heap.size) {locals : Locals} {slots : List Slot}
    {params : List Variable} {values : List Value}
    (bound : List.Forall₂ (fun x v => locals.get? x.id = some v) params values)
    (each : params.length = slots.length) (distinct : (slots.map (·.field)).Nodup)
    {object : Object} (own : object.cls = shape.name)
    (there : ∀ slot ∈ slots, (object.fields.lookup slot.field).isSome = true) :
    ∃ filled : Object, filled.cls = shape.name ∧
      (Stmt.execAll ctx (shape.storing slots params)).run.run ⟨(heap.alloc object).2, locals⟩ =
        (.ok .normal, ⟨(heap.alloc filled).2, locals⟩) ∧
      List.Forall₂ (fun slot v => filled.fields.lookup slot.field = some v) slots values ∧
      ∀ name, name ∉ slots.map (·.field) →
        filled.fields.lookup name = object.fields.lookup name := by
  -- What is stored first must outlast the later writes, hence the last part of the conclusion.
  induction slots generalizing params values object with
  | nil =>
    cases params with
    | cons => simp at each
    | nil =>
      cases bound
      exact ⟨object, own, rfl, .nil, fun _ _ => rfl⟩
  | cons slot rest ih =>
    cases bound with
    | nil => simp at each
    | @cons x v params values first later =>
      rw [List.map_cons, List.nodup_cons] at distinct
      obtain ⟨old, held⟩ := Option.isSome_iff_exists.mp (there slot List.mem_cons_self)
      have others : ∀ other ∈ rest,
          ((setField object.fields slot.field v).lookup other.field).isSome = true := by
        intro other member
        have different : other.field ≠ slot.field := by
          intro same
          exact distinct.1 (same ▸ List.mem_map_of_mem member)
        rw [lookup_set_field, if_neg different]
        exact there other (List.mem_cons_of_mem _ member)
      have still : ({ object with fields := setField object.fields slot.field v } : Object).cls =
          shape.name := own
      obtain ⟨filled, cls, run, stored, kept⟩ :=
        ih later (by simpa using each) distinct.2 still others
      refine ⟨filled, cls, ?_, .cons ?_ stored, ?_⟩
      · have assigned :
            ((Expr.assign (slot.access shape.name) (.var x)).eval ctx).run.run
                ⟨(heap.alloc object).2, locals⟩ =
              (.ok v, ⟨(heap.alloc { object with
                fields := setField object.fields slot.field v }).2, locals⟩) := by
          rw [assign_eval, run_bind, Expr.var, Expr.eval, read_variable_run, first,
            ← heap.store_alloc]
          exact slot_write this ((heap.className_alloc object).trans own) slot
            ((heap.field_alloc object slot.field).trans held) locals v
        rw [Shape.storing, List.zipWith_cons_cons, Stmt.execAll, Stmt.exec, discard_eq, bind_assoc,
          bind_assoc, run_bind, assigned]
        exact run
      · rw [kept _ distinct.1, lookup_set_field, if_pos rfl, held, Option.map_some]
      · intro name outside
        simp only [List.map_cons, List.mem_cons, not_or] at outside
        rw [kept name outside.2, lookup_set_field, if_neg outside.1]

/-- What a capture holds in a frame. A computed value is not read from a frame. -/
def Capture.Holds (this : Option Nat) (heap : Heap) (locals : Locals) : Capture → Value → Prop
  | .variable x, v => locals.get? x.id = some v
  | .this cls, v => ∃ r, this = some r ∧ r < heap.size ∧ heap.className r = cls ∧ v = .object r
  | .value _ _, _ => False

theorem Capture.Holds.read {ctx : Context} {f : Frame} {c : Capture} {v : Value}
    (holds : c.Holds ctx.this f.heap f.locals v) :
    (c.argument.eval ctx).run.run f = (.ok v, f) := by
  rcases c with x | cls | _
  · rw [Capture.Holds] at holds
    rw [Capture.argument, Expr.var, Expr.eval, read_variable_run, holds]
  · obtain ⟨r, this, _, own, rfl⟩ := holds
    rw [Capture.argument, Expr.this, Expr.eval, self_of_class this own]
  · cases holds

theorem expression_list_run {ctx : Context} {f : Frame} {es : List Expr} {vs : List Value}
    (each : List.Forall₂ (fun e v => (e.eval ctx).run.run f = (.ok v, f)) es vs) :
    (Expr.evalAll ctx es).run.run f = (.ok vs, f) := by
  induction each with
  | nil => rfl
  | cons first _ ih =>
    rw [Expr.evalAll, run_bind, first]
    simp only [run_bind, ih]
    rfl

theorem Lifted.type_erasure (lifted : Lifted) : lifted.type.erasure? = some lifted.cls.name := by
  simp only [Lifted.type]
  split <;> rfl

theorem construct_run {ctx : Context} {ty : Ty} {cls : Class} {args : List Value} {f : Frame}
    (named : ty.erasure? = some cls.name) (known : ctx.program.runtimeClass cls.name = .ok cls)
    (arity : cls.constructor.params.length = args.length) :
    (ctx.construct ty args).run.run f =
      (ctx.call ⟨cls.constructor.params, cls.constructor.body, some f.heap.size, args⟩ >>=
        fun _ => pure (Value.object f.heap.size)).run.run
        { f with heap := (f.heap.alloc (.new cls)).2 } := by
  unfold Context.construct
  rw [named]
  simp only [known, of_except_ok, pure_bind, arity, ne_eq, not_true_eq_false, ↓reduceIte,
    discard_eq, bind_assoc]
  rfl

theorem Shape.outcome_constructs (shape : Shape) {program : Program} (limits : Limits)
    (levels : Nat) (this : Option Nat) (f : Frame) {slots : List Slot} {params : List Variable}
    (each : params.length = slots.length) (distinctParams : (params.map (·.id)).Nodup)
    (distinct : (slots.map (·.field)).Nodup)
    (known : program.runtimeClass shape.name = .ok (shape.outcome slots params).cls)
    {ty : Ty} (named : ty.erasure? = some shape.name) {values : List Value}
    (arity : values.length = slots.length) :
    ∃ filled : Object, filled.cls = shape.name ∧
      ((program.inside limits (levels + 1) this).construct ty values).run.run f =
        (.ok (.object f.heap.size), { f with heap := (f.heap.alloc filled).2 }) ∧
      List.Forall₂ (fun slot v => filled.fields.lookup slot.field = some v) slots values ∧
      ∀ name, name ∉ slots.map (·.field) → filled.fields.lookup name =
        (Object.new (shape.outcome slots params).cls).fields.lookup name := by
  have there : ∀ slot ∈ slots,
      ((Object.new (shape.outcome slots params).cls).fields.lookup slot.field).isSome = true := by
    intro slot member
    have held : (Object.new (shape.outcome slots params).cls).fields.lookup slot.toField.name =
        some .unit :=
      new_object_field (List.mem_append_right _ (List.mem_map_of_mem member)) rfl
    exact Option.isSome_iff_exists.mpr ⟨_, held⟩
  obtain ⟨filled, cls, run, stored, kept⟩ := shape.storing_runs
    (program.inside limits levels (some f.heap.size)) rfl
    (Locals.of_arguments_bound distinctParams values (each.trans arity.symm)) each distinct rfl
    there
  refine ⟨filled, cls, ?_, stored, kept⟩
  have counted : (shape.outcome slots params).cls.constructor.params.length = values.length :=
    each.trans arity.symm
  rw [construct_run named known counted, run_bind, call_run]
  dsimp only [Program.inside]
  rw [invoke_succ]
  simp only [Shape.outcome] at run ⊢
  rw [run]
  rfl

theorem construction_runs (shape : Shape) {program : Program} (limits : Limits) (levels : Nat)
    {this : Option Nat} {f : Frame} {slots : List Slot} {params : List Variable}
    {values : List Value}
    (holds : List.Forall₂ (fun slot v => slot.capture.Holds this f.heap f.locals v) slots values)
    (each : params.length = slots.length) (distinctParams : (params.map (·.id)).Nodup)
    (distinct : (slots.map (·.field)).Nodup)
    (known : program.runtimeClass shape.name = .ok (shape.outcome slots params).cls)
    (sound : f.heap.Sound) :
    ∃ filled heap', Displaced f.heap.size filled f.heap heap' ∧ filled.cls = shape.name ∧
      ((shape.outcome slots params).construction.eval
        (program.inside limits (levels + 1) this)).run.run f =
        (.ok (.object f.heap.size), ⟨heap', f.locals⟩) ∧
      List.Forall₂ (fun slot v => filled.fields.lookup slot.field = some v) slots values := by
  obtain ⟨filled, cls, run, stored, _⟩ := shape.outcome_constructs limits levels this f each
    distinctParams distinct known (Lifted.type_erasure (shape.outcome slots params))
    holds.length_eq.symm
  refine ⟨filled, _, Displaced.start sound filled, cls, ?_, stored⟩
  have arguments : (Expr.evalAll (program.inside limits (levels + 1) this)
      ((shape.outcome slots params).slots.map (·.capture.argument))).run.run f =
        (.ok values, f) := by
    apply expression_list_run
    rw [List.forall₂_map_left_iff]
    exact holds.imp fun _ _ reads => reads.read
  rw [Lifted.construction, Expr.eval, run_bind, arguments]
  exact run

end ClosureLift
