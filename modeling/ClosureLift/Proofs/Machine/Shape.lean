import ClosureLift.Proofs.Lift.Instance
import ClosureLift.Proofs.Lift.Undisturbed
import ClosureLift.Proofs.Machine.Chronicle

/-!
Objects keep their shape. Every object has a class of the program, for good, and exactly the fields
of that class which are not static, whatever happens to it; so a field that an object turns out not
to have is none that its class declares for its objects.
-/
namespace ClosureLift

def Class.Provides (cls : Class) (name : String) : Prop :=
  ∃ f ∈ cls.fields, f.isStatic = false ∧ f.name = name

namespace Object

/-- The object belongs to the class and has the fields that the class provides, no more and no
less. -/
def Of (object : Object) (cls : Class) : Prop :=
  cls.name = object.cls ∧ ∀ name, name ∈ object.fields.map (·.1) ↔ cls.Provides name

theorem new_of (cls : Class) : (Object.new cls).Of cls := by
  refine ⟨rfl, ?_⟩
  intro name
  simp only [Object.new, List.map_map, Function.comp_def, List.map_id']
  rw [mem_sorted fun (a b : String) => Std.LawfulEqOrd.eq_of_compare]
  simp only [List.mem_map, List.mem_filter, Bool.not_eq_true', Class.Provides, and_assoc]

theorem set_field_names (fields : List (String × Value)) (name : String) (v : Value) :
    (setField fields name v).map (·.1) = fields.map (·.1) := by
  rw [setField, List.map_map]
  apply List.map_congr_left
  intro f _
  by_cases same : f.1 = name <;> simp [same]

theorem lookup_none {fields : List (String × Value)} {name : String}
    (none : fields.lookup name = none) : name ∉ fields.map (·.1) := by
  intro member
  obtain ⟨f, inside, rfl⟩ := List.mem_map.mp member
  have other := List.lookup_eq_none_iff.mp none f inside
  simp at other

end Object

namespace Heap

def Shaped (program : Program) (heap : Heap) : Prop :=
  ∀ k object, heap.object? k = some object → ∃ cls ∈ program.classes, object.Of cls

theorem empty_shaped (program : Program) : Heap.empty.Shaped program := by
  intro k object there
  cases there

variable {program : Program} {before after : Heap}

theorem step_shaped (step : Step program before after) (shaped : before.Shaped program) :
    after.Shaped program := by
  intro k object there
  cases step with
  | @create cls declared =>
    rw [object_alloc] at there
    split at there
    · cases there
      exact ⟨cls, declared, Object.new_of cls⟩
    · exact shaped k object there
  | @write address name old found v =>
    obtain ⟨holder, held, _⟩ := Option.bind_eq_some_iff.mp found
    simp only [store, held, object_set] at there
    split at there
    · cases there
      obtain ⟨cls, declared, named, fields⟩ := shaped address holder held
      refine ⟨cls, declared, named, ?_⟩
      rw [Object.set_field_names]
      exact fields
    · exact shaped k object there

theorem step_keeps (step : Step program before after) : before.Keeps after := by
  cases step with
  | create declared => exact before.keeps_alloc _
  | write found v => exact before.keeps_store _ _ v

theorem Keeps.object {k : Nat} {object : Object} (keeps : before.Keeps after)
    (there : before.object? k = some object) :
    ∃ now, after.object? k = some now ∧ now.cls = object.cls := by
  have below : k < before.size := object_below.mp (by rw [there]; rfl)
  have still := object_below.mpr (Nat.lt_of_lt_of_le below keeps.grows)
  obtain ⟨now, found⟩ := Option.isSome_iff_exists.mp still
  have same := keeps.classes k below
  simp only [className, found, there] at same
  exact ⟨now, found, same⟩

theorem Misses.unprovided {heap : Heap} {owner : TypeName} {name : String}
    (misses : heap.Misses owner name) (shaped : heap.Shaped program) :
    ∃ cls ∈ program.classes, cls.name = owner ∧ ¬ cls.Provides name := by
  obtain ⟨k, below, class_k, none⟩ := misses
  obtain ⟨object, there⟩ := Option.isSome_iff_exists.mp (object_below.mpr below)
  obtain ⟨cls, declared, named, fields⟩ := shaped k object there
  refine ⟨cls, declared, ?_, ?_⟩
  · rw [named, ← class_k]
    simp only [className, there]
  · rw [← fields]
    simp only [field?, there, Option.bind_some] at none
    exact Object.lookup_none none

end Heap

namespace Program

section

variable {program : Program} (distinct : (program.classes.map (·.name)).Nodup)
include distinct

theorem class_of_name {a b : Class} (here : a ∈ program.classes) (there : b ∈ program.classes)
    (same : a.name = b.name) : a = b := by
  have found := runtime_class_of_mem distinct here
  rw [same, runtime_class_of_mem distinct there] at found
  exact (Except.ok.inj found).symm

/-- A run from the empty heap, on arguments that are no objects, leads in single steps over the
heaps of its trace. In each of them every object is as the one class of its name has it, and it is
of that class ever after. A field is reported missing only if the class does not provide it. -/
theorem objects_keep_shape (limits : Limits) (cls : TypeName) (method : String) {args : List Value}
    (plain : ∀ v ∈ args, ∀ address, v ≠ .object address) :
    Heap.Steps program .empty (program.callStaticTrace limits cls method args .empty)
      (program.callStatic limits cls method args .empty).2 ∧
    (∀ heap ∈ program.callStaticTrace limits cls method args .empty, ∀ k object,
      heap.object? k = some object → ∃ owner ∈ program.classes, object.Of owner ∧
        ∀ other ∈ program.classes, other.name = object.cls → other = owner) ∧
    (program.callStaticTrace limits cls method args .empty).Pairwise (fun earlier later =>
      ∀ k object, earlier.object? k = some object →
        ∃ now, later.object? k = some now ∧ now.cls = object.cls) ∧
    ∀ owner name, (program.callStatic limits cls method args .empty).1 =
        .error (.fault (.unknownField owner name)) →
      (∃ declared ∈ program.classes, declared.name = owner) ∧
        ∀ declared ∈ program.classes, declared.name = owner → ¬ declared.Provides name := by
  have sound : Frame.Sound (program.outside limits).this ⟨.empty, []⟩ :=
    ⟨by rintro k object ⟨⟩, by rintro id v ⟨⟩, by rintro r ⟨⟩⟩
  have within : ∀ v ∈ args, v.Within Heap.empty.size := by
    intro v member
    cases v with
    | object address => exact absurd rfl (plain _ member address)
    | _ => trivial
  have recorded := call_static_recorded sound
    (invoke_trusted program limits limits.depth) (invoke_chronicled program limits limits.depth)
    cls method within
  have steps : Heap.Steps program .empty (program.callStaticTrace limits cls method args .empty)
      (program.callStatic limits cls method args .empty).2 := recorded.steps
  have start := Heap.empty_shaped program
  obtain ⟨_, shaped⟩ := steps.preserved start fun _ _ => Heap.step_shaped
  have kept := steps.related (fun _ _ _ early late => early.trans late) fun _ _ => Heap.step_keeps
  refine ⟨steps, ?_, ?_, ?_⟩
  · intro heap member k object there
    obtain ⟨owner, declared, shape⟩ := shaped heap member k object there
    refine ⟨owner, declared, shape, ?_⟩
    intro other among same
    exact class_of_name distinct among declared (same.trans shape.1.symm)
  · apply (List.pairwise_cons.mp kept).2.imp
    intro earlier later keeps k object there
    exact keeps.object there
  · intro owner name failed
    obtain ⟨heap, member, misses⟩ := recorded.missing owner name failed
    have good : heap.Shaped program := by
      rcases List.mem_cons.mp member with rfl | passed
      · exact start
      · exact shaped heap passed
    obtain ⟨declared, among, named, lacks⟩ := misses.unprovided good
    refine ⟨⟨declared, among, named⟩, ?_⟩
    intro other there same
    rw [class_of_name distinct there among (same.trans named.symm)]
    exact lacks

end

def cells : Program :=
  let cell : Ty := .scalar ⟨"Cell"⟩
  let scope := (Identifier.top.type ⟨"Main"⟩).method "main"
  let first : Variable :=
    ⟨(Identifier.top.type ⟨"Cell"⟩).constructor.var "first", "first", .integer⟩
  let start : Variable := ⟨scope.var "start", "start", .integer⟩
  let made : Variable := ⟨scope.var "made", "made", cell⟩
  let store (receiver value : Expr) : Stmt :=
    .expr (.assign (.fieldAccess receiver "held" .integer) value)
  ⟨"cells", ⟨[]⟩,
    [⟨⟨"Cell"⟩, [], [], [⟨"made", .integer, true⟩, ⟨"held", .integer, false⟩],
      ⟨[first], [store (.this ⟨"Cell"⟩) (.var first)]⟩, [], .dummy⟩,
     ⟨⟨"Main"⟩, [], [], [], ⟨[], []⟩,
      [⟨"main", true, [], [start], .integer,
        [.decl made (.construct cell [.var start]),
          store (.var made) (.literal (.integer 2)),
          .ret (some (.fieldAccess (.var made) "made" .integer))]⟩], .dummy⟩]⟩

/-- Three heaps: after the creation, after the constructor's write, and after the other write. -/
theorem cells_keep_shape :
    (cells.callStaticTrace .standard ⟨"Main"⟩ "main" [.integer 1] .empty).length = 3 ∧
    (∀ heap ∈ cells.callStaticTrace .standard ⟨"Main"⟩ "main" [.integer 1] .empty, ∀ k object,
      heap.object? k = some object → ∃ owner ∈ cells.classes, object.Of owner ∧
        ∀ other ∈ cells.classes, other.name = object.cls → other = owner) ∧
    (cells.callStatic .standard ⟨"Main"⟩ "main" [.integer 1] .empty).1 =
      .error (.fault (.unknownField ⟨"Cell"⟩ "made")) ∧
    ∀ declared ∈ cells.classes, declared.name = ⟨"Cell"⟩ → ¬ declared.Provides "made" := by
  have distinct : (cells.classes.map (·.name)).Nodup := by decide
  have plain : ∀ v ∈ [Value.integer 1], ∀ address, v ≠ .object address := by simp
  have ended : (cells.callStatic .standard ⟨"Main"⟩ "main" [.integer 1] .empty).1 =
      .error (.fault (.unknownField ⟨"Cell"⟩ "made")) := by decide +kernel
  obtain ⟨_, shaped, _, missing⟩ :=
    objects_keep_shape distinct .standard ⟨"Main"⟩ "main" plain
  exact ⟨by decide +kernel, shaped, ended, (missing _ _ ended).2⟩

end Program

end ClosureLift
