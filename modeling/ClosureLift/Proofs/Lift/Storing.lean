import ClosureLift.Proofs.Lift.Closed
import ClosureLift.Proofs.Lift.Instance

/-!
Where a lifted class keeps what it captures. The fields get their names one after the other, each
the first candidate that is left, and the constructor gets parameters of its own for them. However
the names meet, each value that an object is built from ends up in the field of its capture, and the
fields that the closure declares are not written.
-/
namespace ClosureLift

/-- Fields that are chosen one after the other: each is the first candidate for the name of its
capture that is not taken and is not the field of an earlier slot. -/
structure Slot.Chosen (options : LiftOptions) (taken : List String) (slots : List Slot) : Prop where
  distinct : (slots.map (·.field)).Nodup
  apart : ∀ slot ∈ slots, slot.field ∉ taken
  first : ∀ before slot after, slots = before ++ slot :: after →
    ∃ k, slot.field = numbered (slot.capture.preferred options) k ∧
      ∀ j < k, numbered (slot.capture.preferred options) j ∈ before.map (·.field) ++ taken

namespace Slot

theorem fresh_name_first (taken : List String) (name : String) :
    ∃ k, freshName taken.contains taken.length name = numbered name k ∧
      ∀ j < k, numbered name j ∈ taken := by
  refine ⟨_, rfl, ?_⟩
  intro j before
  have passed := first_free_least (fun k => taken.contains (numbered name k)) taken.length 0 j
    (Nat.zero_le j) before
  simpa using passed

theorem assign_first (options : LiftOptions) {taken : List String} {captures : List Capture}
    {before : List Slot} {slot : Slot} {after : List Slot}
    (split : assign options taken captures = before ++ slot :: after) :
    ∃ k, slot.field = numbered (slot.capture.preferred options) k ∧
      ∀ j < k, numbered (slot.capture.preferred options) j ∈ before.map (·.field) ++ taken := by
  induction captures generalizing taken before with
  | nil => simp [assign] at split
  | cons c rest ih =>
    rw [assign] at split
    cases before with
    | nil =>
      obtain ⟨rfl, _⟩ := List.cons.inj split
      exact fresh_name_first taken (c.preferred options)
    | cons earlier before =>
      obtain ⟨rfl, later⟩ := List.cons.inj split
      obtain ⟨k, named, passed⟩ := ih later
      refine ⟨k, named, ?_⟩
      intro j less
      -- What was chosen first counts as taken from then on.
      simpa [or_left_comm] using passed j less

theorem assign_chosen (options : LiftOptions) (taken : List String) (captures : List Capture) :
    Chosen options taken (assign options taken captures) where
  distinct := (assign_fields options taken captures).1
  apart := (assign_fields options taken captures).2
  first := fun _ _ _ split => assign_first options split

end Slot

namespace Closure

def fields : Closure → List Field
  | .body closure => closure.fields
  | .reference _ => []
  | .anonymous closure => closure.fields

theorem sketch_fields (closure : Closure) (site : Site) (t : ScopeTable) :
    (closure.sketch site t).shape.fields.map (fun f => (f.name, f.isStatic)) =
      closure.fields.map fun f => (f.name, f.isStatic) := by
  cases closure with
  | body closure => rfl
  | reference closure => rfl
  | anonymous closure => exact List.map_map

theorem sketch_field_names (closure : Closure) (site : Site) (t : ScopeTable) :
    (closure.sketch site t).shape.fields.map (·.name) = closure.fields.map (·.name) := by
  have names := congrArg (List.map Prod.fst) (closure.sketch_fields site t)
  rw [List.map_map, List.map_map] at names
  exact names

theorem declared_field_new (closure : Closure) (site : Site) (t : ScopeTable) {f : Field}
    (declared : f ∈ closure.fields) (dynamic : f.isStatic = false) (slots : List Slot)
    (params : List Variable) :
    (Object.new ((closure.sketch site t).shape.outcome slots params).cls).fields.lookup f.name =
      some .unit := by
  have listed : (f.name, f.isStatic) ∈
      (closure.sketch site t).shape.fields.map fun f => (f.name, f.isStatic) := by
    rw [closure.sketch_fields site t]
    exact List.mem_map_of_mem declared
  obtain ⟨g, member, same⟩ := List.mem_map.mp listed
  obtain ⟨name, static⟩ := Prod.mk.inj same
  rw [← name]
  exact new_object_field (List.mem_append_left _ member) (static.trans dynamic)

/-- Each capture has a field of its own. Building an object of the lifted class, with a value for
each capture, allocates one object, which holds every value in the field of its capture and unit in
the fields that the closure declares. -/
theorem captures_stored {closure : Closure} {site : Site} {options : LiftOptions}
    {t t' : ScopeTable} {made : Lifted}
    (lifts : (closure.lift site options).run.run t = (.ok made, t')) :
    Slot.Chosen options (closure.fields.map (·.name)) made.slots ∧
    (made.cls.constructor.params.map (·.id)).Nodup ∧
    ∀ (program : Program), program.runtimeClass made.cls.name = .ok made.cls →
    ∀ (limits : Limits) (depth : Nat), depth < limits.depth →
    ∀ (this : Option Nat) (frame : Frame) (ty : Ty), ty.erasure? = some made.cls.name →
    ∀ (values : List Value), values.length = made.slots.length →
      ∃ object : Object, object.cls = made.cls.name ∧
        ((program.inside limits (limits.depth - depth) this).construct ty values).run.run frame =
          (.ok (.object frame.heap.size), { frame with heap := (frame.heap.alloc object).2 }) ∧
        List.Forall₂ (fun slot v => object.fields.lookup slot.field = some v) made.slots values ∧
        ∀ f ∈ closure.fields, f.isStatic = false → object.fields.lookup f.name = some .unit := by
  obtain ⟨_, params, each, distinct, rfl⟩ := Shape.lift_builds _ (lift_sketched lifts)
  have chosen : Slot.Chosen options (closure.fields.map (·.name))
      ((closure.sketch site t).shape.slots (closure.sketch site t).values options) := by
    rw [Shape.slots, closure.sketch_field_names site t]
    exact Slot.assign_chosen _ _ _
  refine ⟨chosen, distinct, ?_⟩
  intro program known limits depth shallow this frame ty named values arity
  obtain ⟨levels, left⟩ : ∃ levels, limits.depth - depth = levels + 1 :=
    ⟨limits.depth - depth - 1, by omega⟩
  obtain ⟨object, cls, built, stored, kept⟩ :=
    (closure.sketch site t).shape.outcome_constructs limits levels this frame each distinct
      chosen.distinct known named arity
  rw [left]
  refine ⟨object, cls, built, stored, ?_⟩
  intro f declared dynamic
  rw [kept f.name]
  · exact closure.declared_field_new site t declared dynamic _ _
  · intro captured
    obtain ⟨slot, member, same⟩ := List.mem_map.mp captured
    exact chosen.apart slot member (same ▸ List.mem_map_of_mem declared)

theorem crowded_stored :
    ∃ made t' object, ((Closure.anonymous .crowded).lift ⟨.top, ⟨"Outer"⟩⟩ .standard).run.run
        (.empty "_cassis_tmp_") = (.ok made, t') ∧
      (((Program.mk "crowded" ⟨[]⟩ [made.cls]).inside .standard 1 none).construct made.type
        [.integer 1, .integer 2, .integer 3, .integer 4]).run.run ⟨⟨#[]⟩, []⟩ =
          (.ok (.object 0), ⟨⟨#[object]⟩, []⟩) ∧
      List.Forall₂ (fun name v => object.fields.lookup name = some v)
        ["x_0", "x_2", "_this_0", "_this_1"]
        [.integer 1, .integer 2, .integer 3, .integer 4] ∧
      object.fields.lookup "x" = some .unit ∧ object.fields.lookup "x_1" = some .unit := by
  obtain ⟨made, t', lifts, fields⟩ := AnonymousClass.crowded_lifts
  have counted : made.slots.length = 4 := by
    rw [← List.length_map (·.field), fields]
    rfl
  have known : (Program.mk "crowded" ⟨[]⟩ [made.cls]).runtimeClass made.cls.name =
      .ok made.cls := by simp [Program.runtimeClass]
  obtain ⟨_, _, builds⟩ := captures_stored lifts
  obtain ⟨object, _, built, stored, unit⟩ := builds _ known .standard 63 (by decide) none
    ⟨⟨#[]⟩, []⟩ made.type made.type_erasure
    [.integer 1, .integer 2, .integer 3, .integer 4] counted.symm
  refine ⟨made, t', object, lifts, built, ?_, ?_, ?_⟩
  · rw [← fields, List.forall₂_map_left_iff]
    exact stored
  · exact unit ⟨"x", .integer, false⟩ List.mem_cons_self rfl
  · exact unit ⟨"x_1", .integer, false⟩ (List.mem_cons_of_mem _ List.mem_cons_self) rfl

end Closure

end ClosureLift
