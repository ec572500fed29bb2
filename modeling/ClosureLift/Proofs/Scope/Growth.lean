import ClosureLift.Proofs.Scope.Minting

/-!
How a table grows. `Grown` adds to `Minted` what happens to the counters and to the source keys;
only a declaration binds a key, and it binds one that its scope did not bind.
-/
namespace ClosureLift

theorem first_free_from (taken : Nat → Bool) (tries k : Nat) : k ≤ firstFree taken tries k := by
  induction tries generalizing k with
  | zero => exact Nat.le_refl k
  | succ tries ih =>
    simp only [firstFree]
    split
    · have := ih (k + 1)
      omega
    · omega

theorem first_free_within (taken : Nat → Bool) (tries k : Nat) :
    firstFree taken tries k ≤ k + tries := by
  induction tries generalizing k with
  | zero => exact Nat.le_refl k
  | succ tries ih =>
    simp only [firstFree]
    split
    · have := ih (k + 1)
      omega
    · omega

/-- From `before` to `after` exactly `ids` were minted, and no key was bound. -/
structure Grown (before after : ScopeTable) (ids : List Identifier) : Prop
    extends Minted before after ids where
  anonymous : before.nextAnonymous ≤ after.nextAnonymous
  temporary : before.nextTemporary ≤ after.nextTemporary
  keys : after.keys = before.keys

namespace Grown

variable {t t₁ t₂ : ScopeTable} {ids more : List Identifier}

theorem none (t : ScopeTable) : Grown t t [] :=
  ⟨.none t, Nat.le_refl _, Nat.le_refl _, rfl⟩

theorem trans (first : Grown t t₁ ids) (second : Grown t₁ t₂ more) : Grown t t₂ (ids ++ more) :=
  ⟨first.toMinted.trans second.toMinted, Nat.le_trans first.anonymous second.anonymous,
    Nat.le_trans first.temporary second.temporary, second.keys.trans first.keys⟩

end Grown

namespace ScopeTable

variable (t : ScopeTable)

theorem fresh_variable_grown (scope : Identifier) (name : String) (ty : Ty) :
    Grown t (t.freshVariable scope name ty).2 [(t.freshVariable scope name ty).1.id] :=
  ⟨t.fresh_variable_minted scope name ty, Nat.le_refl _, Nat.le_refl _, rfl⟩

theorem fresh_temporary_grown (scope : Identifier) (ty : Ty) :
    Grown t (t.freshTemporary scope ty).2 [(t.freshTemporary scope ty).1.id] :=
  ⟨t.fresh_temporary_minted scope ty, Nat.le_refl _, Nat.le_succ _, rfl⟩

theorem fresh_class_name_grown (enclosing : TypeName) :
    Grown t (t.freshClassName enclosing).2 [Identifier.top.type (t.freshClassName enclosing).1] :=
  ⟨t.fresh_class_name_minted enclosing, Nat.le_succ_of_le (first_free_from _ _ _), Nat.le_refl _,
    rfl⟩

theorem insert_grown {id : Identifier} (free : t.contains id = false) :
    Grown t (t.insert id) [id] :=
  ⟨.insert free rfl, Nat.le_refl _, Nat.le_refl _, rfl⟩

/-- What of a list is taken before the first identifier that is taken already. -/
def admitted : ScopeTable → List Identifier → List Identifier
  | _, [] => []
  | t, id :: rest => if t.contains id then [] else id :: (t.insert id).admitted rest

theorem reserve_all_grown (ids : List Identifier) :
    Grown t (t.reserveAll ids).2 (t.admitted ids) := by
  induction ids generalizing t with
  | nil => exact .none t
  | cons id rest ih =>
    unfold reserveAll admitted
    cases free : t.contains id with
    | true => exact .none t
    | false => exact (t.insert_grown free).trans (ih (t.insert id))

theorem admitted_all {ids : List Identifier} (done : (t.reserveAll ids).1 = .ok ()) :
    t.admitted ids = ids := by
  induction ids generalizing t with
  | nil => rfl
  | cons id rest ih =>
    unfold reserveAll at done
    unfold admitted
    cases free : t.contains id with
    | true =>
      rw [free] at done
      cases done
    | false =>
      rw [free] at done
      exact congrArg (id :: ·) (ih (t.insert id) done)

theorem fresh_variable_named (scope : Identifier) (name : String) (ty : Ty) :
    (t.freshVariable scope name ty).1.id = scope.var (t.freshVariable scope name ty).1.name :=
  rfl

theorem declare_cases (scope : Identifier) (key name : String) (ty : Ty) :
    (∃ x, t.keys.lookup (scope, key) = some x ∧
      t.declare scope key name ty = (.error (.alreadyBound key scope), t)) ∨
    (t.keys.lookup (scope, key) = none ∧
      let minted := t.freshVariable scope name ty
      t.declare scope key name ty =
        (.ok minted.1, { minted.2 with keys := ((scope, key), minted.1) :: t.keys })) := by
  unfold declare
  cases bound : t.keys.lookup (scope, key) with
  | some x => exact Or.inl ⟨x, rfl, rfl⟩
  | none => exact Or.inr ⟨rfl, rfl⟩

end ScopeTable

end ClosureLift
