import ClosureLift.Proofs.Lift.Allocation
import Mathlib.Data.List.Induction

/-!
What a source key means. A key is looked up from a scope outwards, and only a declaration that
succeeds binds it. So after any history of requests a key means the variable of the innermost
declaration around, and neither what was minted in between nor what was declared elsewhere plays a
part in it.
-/
namespace ClosureLift

namespace Identifier

@[elab_as_elim]
theorem by_child {motive : Identifier → Prop} (root : motive .top)
    (under : ∀ path segment, motive path → motive (path.child segment)) (path : Identifier) :
    motive path := by
  obtain ⟨segments⟩ := path
  induction segments using List.reverseRecOn with
  | nil => exact root
  | append_singleton segments segment ih => exact under ⟨segments⟩ segment ih

theorem outwards_from_top : top.selfAndAncestors = [top] := rfl

theorem outwards_from_child (path : Identifier) (segment : Segment) :
    (path.child segment).selfAndAncestors = path.child segment :: path.selfAndAncestors := by
  simp only [selfAndAncestors, child, List.length_append, List.length_singleton]
  rw [List.range_succ, List.reverse_concat, List.map_cons,
    List.take_of_length_le (by simp)]
  congr 1
  apply List.map_congr_left
  intro k within
  rw [List.mem_reverse, List.mem_range] at within
  rw [List.take_append_of_le_length (by omega)]

theorem starts_with_top {around : Identifier} : top.startsWith around = true ↔ around = top := by
  obtain ⟨segments⟩ := around
  simp [startsWith, top]

theorem starts_with_child {path around : Identifier} {segment : Segment} :
    (path.child segment).startsWith around = true ↔
      around = path.child segment ∨ path.startsWith around = true := by
  obtain ⟨segments⟩ := around
  simp [startsWith, child, List.prefix_concat_iff]

theorem shorter_than_child {path around : Identifier} (inside : path.startsWith around = true)
    (segment : Segment) : around.segments.length < (path.child segment).segments.length := by
  have shorter := (List.isPrefixOf_iff_prefix.mp inside).length_le
  simp only [child, List.length_append, List.length_singleton]
  omega

end Identifier

namespace ScopeTable

variable (t : ScopeTable) (key : String)

theorem lookup_here {scope : Identifier} {x : Variable}
    (bound : t.keys.lookup (scope, key) = some x) : t.lookup scope key = .ok x := by
  cases scope using Identifier.by_child with
  | root => simp [lookup, Identifier.outwards_from_top, bound]
  | under path segment => simp [lookup, Identifier.outwards_from_child, bound]

theorem lookup_outwards {path : Identifier} {segment : Segment}
    (free : t.keys.lookup (path.child segment, key) = none) :
    t.lookup (path.child segment) key = t.lookup path key := by
  simp [lookup, Identifier.outwards_from_child, free]

theorem lookup_at_top (free : t.keys.lookup (.top, key) = none) :
    t.lookup .top key = .error (.unbound key) := by
  simp [lookup, Identifier.outwards_from_top, free]

theorem lookup_ok_iff (scope : Identifier) (x : Variable) :
    t.lookup scope key = .ok x ↔
      ∃ around, scope.startsWith around = true ∧ t.keys.lookup (around, key) = some x ∧
        ∀ inner, scope.startsWith inner = true →
          around.segments.length < inner.segments.length → t.keys.lookup (inner, key) = none := by
  induction scope using Identifier.by_child with
  | root =>
    simp only [Identifier.starts_with_top, exists_eq_left, forall_eq, Nat.lt_irrefl]
    cases bound : t.keys.lookup (.top, key) with
    | none => simp [lookup_at_top t key bound]
    | some y => simp [lookup_here t key bound]
  | under path segment ih =>
    simp only [Identifier.starts_with_child]
    cases bound : t.keys.lookup (path.child segment, key) with
    | some y =>
      -- Of all paths that the scope starts with, none is longer than the scope itself.
      rw [lookup_here t key bound]
      constructor
      · rintro ⟨rfl⟩
        refine ⟨path.child segment, Or.inl rfl, bound, ?_⟩
        rintro inner (rfl | outside) longer
        · omega
        · have := Identifier.shorter_than_child outside segment
          omega
      · rintro ⟨around, rfl | outside, held, innermost⟩
        · rw [bound] at held
          cases held
          rfl
        · have free := innermost _ (Or.inl rfl) (Identifier.shorter_than_child outside segment)
          rw [bound] at free
          cases free
    | none =>
      rw [lookup_outwards t key bound, ih]
      constructor
      · rintro ⟨around, outside, held, innermost⟩
        refine ⟨around, Or.inr outside, held, ?_⟩
        rintro inner (rfl | also) longer
        · exact bound
        · exact innermost inner also longer
      · rintro ⟨around, rfl | outside, held, innermost⟩
        · rw [bound] at held
          cases held
        · exact ⟨around, outside, held, fun inner also => innermost inner (Or.inr also)⟩

theorem lookup_unbound_iff (scope : Identifier) :
    t.lookup scope key = .error (.unbound key) ↔
      ∀ around, scope.startsWith around = true → t.keys.lookup (around, key) = none := by
  induction scope using Identifier.by_child with
  | root =>
    simp only [Identifier.starts_with_top, forall_eq]
    cases bound : t.keys.lookup (.top, key) with
    | none => simp [lookup_at_top t key bound]
    | some x => simp [lookup_here t key bound]
  | under path segment ih =>
    simp only [Identifier.starts_with_child, forall_eq_or_imp, ← ih]
    cases bound : t.keys.lookup (path.child segment, key) with
    | none => simp [lookup_outwards t key bound]
    | some x => simp [lookup_here t key bound]

end ScopeTable

namespace Request

def binds : Request → ScopeTable → List ((Identifier × String) × Variable)
  | .declare scope key name ty, t =>
    match (t.declare scope key name ty).1 with
    | .ok x => [((scope, key), x)]
    | .error _ => []
  | _, _ => []

def bound : List Request → ScopeTable → List ((Identifier × String) × Variable)
  | [], _ => []
  | r :: rest, t => r.binds t ++ bound rest (r.perform t).2

theorem binds_cases (r : Request) (t : ScopeTable) :
    r.binds t = [] ∨ ∃ binding x, t.keys.lookup binding = none ∧ r.binds t = [(binding, x)] := by
  cases r with
  | declare scope key name ty =>
    rcases t.declare_cases scope key name ty with ⟨_, _, refused⟩ | ⟨free, made⟩
    · simp [binds, refused]
    · right
      exact ⟨(scope, key), (t.freshVariable scope name ty).1, free, by simp [binds, made]⟩
  | _ => exact Or.inl rfl

theorem perform_keys (r : Request) (t : ScopeTable) :
    (r.perform t).2.keys = r.binds t ++ t.keys := by
  cases r with
  | declare scope key name ty =>
    rcases t.declare_cases scope key name ty with ⟨_, _, refused⟩ | ⟨_, made⟩
    · simp [perform, binds, refused]
    · simp [perform, binds, made]
  | _ =>
    rcases perform_cases _ t with ⟨grown, _⟩ | ⟨_, _, grown, _⟩ | ⟨_, _, _, _, _, _, same, _⟩
    · exact grown.keys
    · exact grown.keys
    · cases same

theorem perform_lookup (r : Request) (t : ScopeTable) (binding : Identifier × String)
    (x : Variable) :
    (r.perform t).2.keys.lookup binding = some x ↔
      t.keys.lookup binding = some x ∨ (binding, x) ∈ r.binds t := by
  rw [perform_keys]
  rcases r.binds_cases t with nothing | ⟨binding', y, free, one⟩
  · simp [nothing]
  · -- The new binding comes first in the table, but hides nothing, since its key was free.
    rw [one, List.singleton_append, List.lookup_cons]
    cases same : binding == binding' with
    | true =>
      rw [beq_iff_eq] at same
      subst same
      simp [free, eq_comm]
    | false =>
      rw [beq_eq_false_iff_ne] at same
      simp [same]

theorem perform_all_lookup (rs : List Request) (t : ScopeTable) (binding : Identifier × String)
    (x : Variable) :
    (performAll rs t).keys.lookup binding = some x ↔
      t.keys.lookup binding = some x ∨ (binding, x) ∈ bound rs t := by
  induction rs generalizing t with
  | nil => simp [performAll, bound]
  | cons r rest ih => rw [performAll, ih, perform_lookup, bound, List.mem_append, or_assoc]

theorem lookup_bound (temporaryName : String) (rs : List Request) (binding : Identifier × String)
    (x : Variable) :
    (performAll rs (.empty temporaryName)).keys.lookup binding = some x ↔
      (binding, x) ∈ bound rs (.empty temporaryName) := by
  simp [perform_all_lookup, ScopeTable.empty]

theorem lookup_not_bound (temporaryName : String) (rs : List Request)
    (binding : Identifier × String) :
    (performAll rs (.empty temporaryName)).keys.lookup binding = none ↔
      ∀ x, (binding, x) ∉ bound rs (.empty temporaryName) := by
  simp only [Option.eq_none_iff_forall_ne_some, ne_eq, lookup_bound]

/-- Source keys after any history of a table that was empty at first. A key means, in a scope, what
its declaration returned in the innermost scope around that declared it with success, and nothing if
there is none. It can be declared once in each scope, and a declaration that is refused changes
nothing. -/
theorem key_means_innermost (temporaryName : String) (rs : List Request) (scope : Identifier)
    (key : String) :
    let start := ScopeTable.empty temporaryName
    let t := performAll rs start
    (∀ x, t.lookup scope key = .ok x ↔
      ∃ around, scope.startsWith around = true ∧ ((around, key), x) ∈ bound rs start ∧
        ∀ inner, scope.startsWith inner = true →
          around.segments.length < inner.segments.length →
          ∀ y, ((inner, key), y) ∉ bound rs start) ∧
    (t.lookup scope key = .error (.unbound key) ↔
      ∀ around, scope.startsWith around = true → ∀ x, ((around, key), x) ∉ bound rs start) ∧
    ∀ name ty,
      ((∃ e, (t.declare scope key name ty).1 = .error e) ↔
        ∃ x, ((scope, key), x) ∈ bound rs start) ∧
      ∀ e, (t.declare scope key name ty).1 = .error e →
        e = .alreadyBound key scope ∧ (t.declare scope key name ty).2 = t := by
  intro start t
  refine ⟨?_, ?_, ?_⟩
  · intro x
    simp only [t.lookup_ok_iff, t, start, lookup_bound, lookup_not_bound]
  · simp only [t.lookup_unbound_iff, t, start, lookup_not_bound]
  · intro name ty
    rcases t.declare_cases scope key name ty with ⟨x, held, refused⟩ | ⟨free, made⟩
    · have declared : ∃ x, ((scope, key), x) ∈ bound rs start := ⟨x, (lookup_bound _ _ _ _).mp held⟩
      simp [refused, declared]
    · have undeclared : ¬ ∃ x, ((scope, key), x) ∈ bound rs start :=
        not_exists.mpr ((lookup_not_bound _ _ _).mp free)
      simp [made, undeclared]

end Request

end ClosureLift
