import ClosureLift.Machine.Eval

/-!
Two heaps that are the same but for one object. The second heap has an object more, at an address up
to which both agree; from there on every address of the first is one higher in the second. Nothing
that a program can observe of a value tells the two apart.
-/
namespace ClosureLift

/-- Where the object at an address is found once another stands at `a`. -/
def past (a address : Nat) : Nat := if address < a then address else address + 1

theorem past_below {a k : Nat} (below : k < a) : past a k = k := if_pos below

theorem past_above {a k : Nat} (above : a ≤ k) : past a k = k + 1 :=
  if_neg (Nat.not_lt.mpr above)

theorem past_inj {a j k : Nat} : past a j = past a k ↔ j = k := by
  unfold past
  split <;> split <;> omega

theorem past_ne (a k : Nat) : past a k ≠ a := by
  unfold past
  split <;> omega

namespace Value

def shift (a : Nat) : Value → Value
  | .object address => .object (past a address)
  | other => other

theorem shift_inj {a : Nat} {v w : Value} : v.shift a = w.shift a ↔ v = w := by
  cases v <;> cases w <;> simp [shift, past_inj]

@[simp]
theorem shift_literal (a : Nat) (value : Literal) :
    (Value.ofLiteral value).shift a = .ofLiteral value := by
  cases value <;> rfl

def Within (size : Nat) : Value → Prop
  | .object address => address < size
  | _ => True

theorem shift_within {a : Nat} {v : Value} (within : v.Within a) : v.shift a = v := by
  cases v with
  | object address => rw [shift, past_below within]
  | _ => rfl

end Value

namespace Object

def shift (a : Nat) (object : Object) : Object :=
  { object with fields := object.fields.map fun f => (f.1, f.2.shift a) }

theorem lookup_shift (a : Nat) (fields : List (String × Value)) (name : String) :
    (fields.map fun f => (f.1, f.2.shift a)).lookup name =
      (fields.lookup name).map (Value.shift a) := by
  induction fields with
  | nil => rfl
  | cons f rest ih =>
    obtain ⟨key, held⟩ := f
    cases same : name == key <;> simp [List.lookup_cons, same, ih]

theorem set_field_shift (a : Nat) (fields : List (String × Value)) (name : String) (v : Value) :
    setField (fields.map fun f => (f.1, f.2.shift a)) name (v.shift a) =
      (setField fields name v).map fun f => (f.1, f.2.shift a) := by
  simp only [setField, List.map_map]
  apply List.map_congr_left
  intro f _
  simp only [Function.comp]
  split <;> rfl

theorem new_shift (a : Nat) (cls : Class) : (Object.new cls).shift a = .new cls := by
  simp [Object.new, shift, Value.shift]

end Object

namespace Heap

def size (heap : Heap) : Nat := heap.objects.size

theorem eq_of_objects {first second : Heap} (same : ∀ k, first.object? k = second.object? k) :
    first = second :=
  congrArg Heap.mk (Array.ext_getElem? same)

theorem object_set (heap : Heap) (k j : Nat) (object : Object) :
    (heap.set k object).object? j =
      if j = k ∧ k < heap.size then some object else heap.object? j := by
  simp only [object?, set, size, Array.getElem?_setIfInBounds]
  by_cases same : k = j
  · subst same
    by_cases bound : k < heap.objects.size
    · simp [bound]
    · simp [bound]
  · have other : ¬ (j = k) := fun swapped => same swapped.symm
    simp [same, other]

theorem object_alloc (heap : Heap) (j : Nat) (object : Object) :
    (heap.alloc object).2.object? j =
      if j = heap.size then some object else heap.object? j := by
  simp only [object?, alloc, size, Array.getElem?_push]
  rfl

theorem object_below {heap : Heap} {k : Nat} : (heap.object? k).isSome = true ↔ k < heap.size := by
  simp [object?, size]

@[simp]
theorem size_set (heap : Heap) (k : Nat) (object : Object) :
    (heap.set k object).size = heap.size := by
  simp [set, size]

@[simp]
theorem size_alloc (heap : Heap) (object : Object) :
    (heap.alloc object).2.size = heap.size + 1 := by
  simp [alloc, size]

def field? (heap : Heap) (address : Nat) (name : String) : Option Value :=
  (heap.object? address).bind (·.fields.lookup name)

def store (heap : Heap) (address : Nat) (name : String) (v : Value) : Heap :=
  match heap.object? address with
  | some object => heap.set address { object with fields := setField object.fields name v }
  | none => heap

@[simp]
theorem className_alloc (heap : Heap) (object : Object) :
    (heap.alloc object).2.className heap.size = object.cls := by
  simp [className, object_alloc]

@[simp]
theorem field_alloc (heap : Heap) (object : Object) (name : String) :
    (heap.alloc object).2.field? heap.size name = object.fields.lookup name := by
  simp [field?, object_alloc]

theorem store_alloc (heap : Heap) (object : Object) (name : String) (v : Value) :
    (heap.alloc object).2.store heap.size name v =
      (heap.alloc { object with fields := setField object.fields name v }).2 := by
  have there : (heap.alloc object).2.object? heap.size = some object := by simp [object_alloc]
  simp only [store, there]
  apply eq_of_objects
  intro k
  simp only [object_set, object_alloc, size_alloc, Nat.lt_succ_self, and_true]
  split <;> rfl

structure Keeps (before after : Heap) : Prop where
  grows : before.size ≤ after.size
  classes : ∀ k < before.size, after.className k = before.className k

theorem Keeps.refl (heap : Heap) : heap.Keeps heap := ⟨Nat.le_refl _, fun _ _ => rfl⟩

theorem Keeps.trans {first second third : Heap} (early : first.Keeps second)
    (late : second.Keeps third) : first.Keeps third where
  grows := Nat.le_trans early.grows late.grows
  classes := by
    intro k below
    rw [late.classes k (Nat.lt_of_lt_of_le below early.grows), early.classes k below]

theorem keeps_set (heap : Heap) (k : Nat) (object : Object)
    (same : object.cls = heap.className k) : heap.Keeps (heap.set k object) := by
  refine ⟨by simp, ?_⟩
  intro j _
  by_cases found : j = k ∧ k < heap.size
  · simp only [className, object_set, found, and_self, ↓reduceIte]
    exact same
  · simp only [className, object_set, found, ↓reduceIte]

theorem keeps_store (heap : Heap) (k : Nat) (name : String) (v : Value) :
    heap.Keeps (heap.store k name v) := by
  unfold store
  cases found : heap.object? k with
  | none => exact .refl heap
  | some object =>
    apply keeps_set
    simp only [className, found]

theorem keeps_alloc (heap : Heap) (object : Object) : heap.Keeps (heap.alloc object).2 := by
  refine ⟨by simp, ?_⟩
  intro j below
  simp only [className, object_alloc, Nat.ne_of_lt below, ↓reduceIte]

end Heap

/-- The second heap has the first's objects and one more, at `a`. -/
structure Displaced (a : Nat) (extra : Object) (before after : Heap) : Prop where
  room : a ≤ before.size
  size : after.size = before.size + 1
  moved : ∀ k, after.object? (past a k) = (before.object? k).map (Object.shift a)
  added : after.object? a = some extra

namespace Displaced

variable {a : Nat} {extra : Object} {before after : Heap}
  (displaced : Displaced a extra before after)
include displaced

theorem className_past (k : Nat) : after.className (past a k) = before.className k := by
  simp only [Heap.className, displaced.moved]
  cases before.object? k <;> rfl

theorem className_added : after.className a = extra.cls := by
  simp only [Heap.className, displaced.added]

theorem typeName_shift (v : Value) : (v.shift a).typeName after = v.typeName before := by
  cases v with
  | object address => simp only [Value.shift, Value.typeName, displaced.className_past]
  | _ => rfl

theorem display_shift (v : Value) : (v.shift a).display after = v.display before := by
  cases v with
  | object address => simp only [Value.shift, Value.display, displaced.className_past]
  | boolean value => cases value <;> rfl
  | _ => rfl

theorem set (k : Nat) (object : Object) :
    Displaced a extra (before.set k object) (after.set (past a k) (object.shift a)) where
  room := by simpa using displaced.room
  size := by simpa using displaced.size
  moved := by
    intro j
    have bound : past a k < after.size ↔ k < before.size := by
      have room := displaced.room
      rw [displaced.size]
      unfold past
      split <;> omega
    simp only [Heap.object_set, past_inj, bound, displaced.moved]
    split <;> rfl
  added := by
    rw [Heap.object_set, if_neg, displaced.added]
    intro found
    exact past_ne a k found.1.symm

theorem change (object : Object) : Displaced a object before (after.set a object) where
  room := displaced.room
  size := by simpa using displaced.size
  moved := by
    intro k
    rw [Heap.object_set, if_neg, displaced.moved]
    intro found
    exact past_ne a k found.1
  added := by
    have below : a < after.size := by
      have room := displaced.room
      rw [displaced.size]
      omega
    simp [Heap.object_set, below]

theorem field_past (k : Nat) (name : String) :
    after.field? (past a k) name = (before.field? k name).map (Value.shift a) := by
  simp only [Heap.field?, displaced.moved]
  cases before.object? k with
  | none => rfl
  | some object => exact Object.lookup_shift a object.fields name

theorem field_added (name : String) : after.field? a name = extra.fields.lookup name := by
  simp only [Heap.field?, displaced.added, Option.bind_some]

theorem store (k : Nat) (name : String) (v : Value) :
    Displaced a extra (before.store k name v) (after.store (past a k) name (v.shift a)) := by
  simp only [Heap.store, displaced.moved]
  cases before.object? k with
  | none => exact displaced
  | some object =>
    have changed := displaced.set k { object with fields := setField object.fields name v }
    simp only [Object.shift, ← Object.set_field_shift] at changed
    exact changed

theorem store_added (name : String) (v : Value) :
    Displaced a { extra with fields := setField extra.fields name v } before
      (after.store a name v) := by
  simp only [Heap.store, displaced.added]
  exact displaced.change _

theorem alloc (object : Object) :
    Displaced a extra (before.alloc object).2 (after.alloc (object.shift a)).2 where
  room := by
    have room := displaced.room
    rw [Heap.size_alloc]
    omega
  size := by simp [displaced.size]
  moved := by
    intro k
    have fresh : past a k = after.size ↔ k = before.size := by
      have room := displaced.room
      rw [displaced.size]
      unfold past
      split <;> omega
    simp only [Heap.object_alloc, fresh, displaced.moved]
    split <;> rfl
  added := by
    rw [Heap.object_alloc, if_neg, displaced.added]
    have room := displaced.room
    rw [displaced.size]
    omega

theorem alloc_address (object other : Object) :
    (after.alloc other).1 = past a (before.alloc object).1 := by
  have moved : past a before.size = before.size + 1 := past_above displaced.room
  exact displaced.size.trans moved.symm

end Displaced

theorem integer_operator_shift (a : Nat) (op : Operator) (m n : Int64) (e : EvalError) :
    ((op.onIntegers m n).getD (.error e)).map (Value.shift a) =
      (op.onIntegers m n).getD (.error e) := by
  cases op with
  | divide | modulus =>
    simp only [Operator.onIntegers, Option.getD_some]
    split <;> rfl
  | _ => rfl

theorem operator_shift {a : Nat} {extra : Object} {before after : Heap}
    (displaced : Displaced a extra before after) (op : Operator) (operands : List Value) :
    op.apply after (operands.map (Value.shift a)) =
      (op.apply before operands).map (Value.shift a) := by
  have names : (operands.map (Value.shift a)).map (·.typeName after) =
      operands.map (·.typeName before) := by
    rw [List.map_map]
    apply List.map_congr_left
    intro v _
    exact displaced.typeName_shift v
  have same : ∀ v w : Value, (v.shift a == w.shift a) = (v == w) := by
    intro v w
    rw [Bool.eq_iff_iff, beq_iff_eq, beq_iff_eq, Value.shift_inj]
  unfold Operator.apply
  rw [names]
  generalize EvalError.typeMismatch op (operands.map (·.typeName before)) = e
  clear names
  rcases operands with _ | ⟨v, _ | ⟨w, _ | ⟨x, rest⟩⟩⟩
  · cases op <;> rfl
  · cases op <;> cases v <;> rfl
  · cases op with
    | equals => exact congrArg (fun b => Except.ok (Value.boolean b)) (same v w)
    | notEquals => exact congrArg (fun b => Except.ok (Value.boolean (!b))) (same v w)
    | add =>
      have left := displaced.display_shift v
      have right := displaced.display_shift w
      cases v with
      | string text => exact congrArg (fun shown => Except.ok (Value.string (text ++ shown))) right
      | _ =>
        cases w with
        | string text => exact congrArg (fun shown => Except.ok (Value.string (shown ++ text))) left
        | _ => rfl
    | _ =>
      cases v <;> cases w <;>
        first
        | rfl
        | exact (integer_operator_shift a _ _ _ e).symm
  · cases op <;> simp [Except.map]

/-- The objects of the heap hold addresses of the heap only. -/
def Heap.Sound (heap : Heap) : Prop :=
  ∀ k object, heap.object? k = some object → ∀ f ∈ object.fields, f.2.Within heap.size

theorem Displaced.start {heap : Heap} (sound : heap.Sound) (object : Object) :
    Displaced heap.size object heap (heap.alloc object).2 where
  room := Nat.le_refl _
  size := heap.size_alloc object
  moved := by
    intro k
    have fresh : past heap.size k ≠ heap.size := past_ne _ _
    simp only [Heap.object_alloc, fresh, ↓reduceIte]
    by_cases below : k < heap.size
    · rw [past_below below]
      cases found : heap.object? k with
      | none => rfl
      | some old =>
        have unmoved : old.fields.map (fun f => (f.1, f.2.shift heap.size)) = old.fields := by
          rw [List.map_congr_left (g := id), List.map_id]
          intro f member
          rw [Value.shift_within (sound k old found f member)]
          rfl
        rw [Option.map_some, Object.shift, unmoved]
    · have absent : ∀ j, heap.size ≤ j → heap.object? j = none := by
        intro j beyond
        rw [← Option.not_isSome_iff_eq_none, Heap.object_below]
        omega
      rw [past_above (Nat.not_lt.mp below), absent _ (by omega), absent k (by omega)]
      rfl
  added := by simp [Heap.object_alloc]

end ClosureLift
