import ClosureLift.Scope.Basic

/-!
Names that are minted are new. The search for a free candidate looks at one more of them than there
are names taken, so it never ends on a taken one; `Minted` says what any sequence of mintings does
to the table, and is all that later proofs use.
-/
namespace ClosureLift

theorem toString_inj {i j : Nat} (same : toString i = toString j) : i = j := by
  have digits : Nat.toDigits 10 i = Nat.toDigits 10 j := by
    rw [← Nat.toList_repr, ← Nat.toList_repr, ← Nat.toString_eq_repr, ← Nat.toString_eq_repr, same]
  rw [← Nat.ofDigitChars_ten_toDigits (n := i), digits, Nat.ofDigitChars_ten_toDigits]

theorem first_free_least (taken : Nat → Bool) (tries k j : Nat) (start : k ≤ j)
    (before : j < firstFree taken tries k) : taken j = true := by
  induction tries generalizing k with
  | zero =>
    simp only [firstFree] at before
    omega
  | succ tries ih =>
    simp only [firstFree] at before
    split at before
    · rename_i first
      by_cases same : k = j
      · subst same
        exact first
      · exact ih (k + 1) (by omega) before
    · omega

theorem first_free_is_free (taken : Nat → Bool) (tries k : Nat)
    (room : ∃ j, k ≤ j ∧ j ≤ k + tries ∧ taken j = false) :
    taken (firstFree taken tries k) = false := by
  induction tries generalizing k with
  | zero =>
    obtain ⟨j, lower, upper, free⟩ := room
    have same : j = k := by omega
    subst same
    exact free
  | succ tries ih =>
    simp only [firstFree]
    split
    · rename_i first
      apply ih
      obtain ⟨j, lower, upper, free⟩ := room
      have later : j ≠ k := by
        intro same
        subst same
        rw [first] at free
        contradiction
      exact ⟨j, by omega, by omega, free⟩
    · rename_i first
      simpa using first

theorem candidate_outside [DecidableEq α] (candidate : Nat → α)
    (distinct : ∀ i j, candidate i = candidate j → i = j) (names : List α) (k : Nat) :
    ∃ j, k ≤ j ∧ j ≤ k + names.length ∧ candidate j ∉ names := by
  -- There is one candidate more than there are names, and no two are the same.
  apply Classical.byContradiction
  intro none
  have covered : (List.range' k (names.length + 1)).map candidate ⊆ names := by
    intro a member
    obtain ⟨j, inRange, rfl⟩ := List.mem_map.mp member
    rw [List.mem_range'_1] at inRange
    apply Classical.byContradiction
    intro outside
    exact none ⟨j, by omega, by omega, outside⟩
  have nodup : ((List.range' k (names.length + 1)).map candidate).Nodup := by
    rw [List.nodup_iff_pairwise_ne, List.pairwise_map]
    apply List.Pairwise.imp _ (List.nodup_iff_pairwise_ne.mp (List.nodup_range'))
    intro i j different same
    exact different (distinct i j same)
  have bound := nodup.length_le_of_subset covered
  simp only [List.length_map, List.length_range'] at bound
  omega

theorem first_free_outside [DecidableEq α] (candidate : Nat → α)
    (distinct : ∀ i j, candidate i = candidate j → i = j) (names : List α) (k : Nat) :
    let taken (j : Nat) := names.contains (candidate j)
    taken (firstFree taken names.length k) = false := by
  intro taken
  obtain ⟨j, lower, upper, free⟩ := candidate_outside candidate distinct names k
  apply first_free_is_free
  exact ⟨j, lower, upper, by simpa [taken] using free⟩

theorem numbered_inj (name : String) {i j : Nat} (same : numbered name i = numbered name j) :
    i = j := by
  have lengths := congrArg String.length same
  have underscore : "_".length = 1 := rfl
  cases i with
  | zero =>
    cases j with
    | zero => rfl
    | succ j =>
      simp only [numbered, String.length_append, underscore] at lengths
      omega
  | succ i =>
    cases j with
    | zero =>
      simp only [numbered, String.length_append, underscore] at lengths
      omega
    | succ j =>
      simp only [numbered, String.append_assoc] at same
      have := toString_inj
        ((String.append_right_inj _).mp ((String.append_right_inj _).mp same))
      omega

theorem synthesized_inj (enclosing : TypeName) {i j : Nat}
    (same : enclosing.synthesized i = enclosing.synthesized j) : i = j := by
  simp only [TypeName.synthesized, TypeName.mk.injEq] at same
  exact toString_inj ((String.append_right_inj _).mp same)

theorem var_inj (scope : Identifier) {a b : String} (same : scope.var a = scope.var b) :
    a = b := by
  simpa [Identifier.var, Identifier.child] using same

theorem type_inj (scope : Identifier) {a b : TypeName} (same : scope.type a = scope.type b) :
    a = b := by
  cases a
  cases b
  simpa [Identifier.type, Identifier.child] using same

theorem this_of_inj {cls cls' : TypeName} (same : Identifier.thisOf cls = .thisOf cls') :
    cls = cls' := by
  apply type_inj .top
  simpa [Identifier.thisOf, Identifier.child, Identifier.type] using same

structure Minted (before after : ScopeTable) (ids : List Identifier) : Prop where
  distinct : ids.Nodup
  new : ∀ id ∈ ids, before.contains id = false
  taken : ∀ id, after.contains id = true ↔ before.contains id = true ∨ id ∈ ids

namespace Minted

variable {t t₁ t₂ : ScopeTable} {ids more : List Identifier}

theorem none (t : ScopeTable) : Minted t t [] where
  distinct := List.nodup_nil
  new := by simp
  taken := by simp

theorem grows (minted : Minted t t₁ ids) {id : Identifier} (member : t.contains id = true) :
    t₁.contains id = true :=
  (minted.taken id).mpr (Or.inl member)

theorem trans (first : Minted t t₁ ids) (second : Minted t₁ t₂ more) :
    Minted t t₂ (ids ++ more) where
  distinct := by
    rw [List.nodup_append]
    refine ⟨first.distinct, second.distinct, ?_⟩
    intro a early b late same
    subst same
    have present := (first.taken a).mpr (Or.inr early)
    rw [second.new a late] at present
    contradiction
  new := by
    intro id member
    rcases List.mem_append.mp member with early | late
    · exact first.new id early
    · cases known : t.contains id with
      | false => rfl
      | true =>
        have present := first.grows known
        rw [second.new id late] at present
        contradiction
  taken := by
    intro id
    rw [second.taken, first.taken, List.mem_append, or_assoc]

theorem insert {id : Identifier} (free : t.contains id = false)
    (same : t₁.identifiers = id :: t.identifiers) : Minted t t₁ [id] where
  distinct := by simp
  new := by simp [free]
  taken := by
    intro other
    simp only [ScopeTable.contains, same, List.contains_cons, Bool.or_eq_true, beq_iff_eq,
      List.mem_singleton]
    exact or_comm

end Minted

namespace ScopeTable

theorem fresh_variable_free (table : ScopeTable) (scope : Identifier) (name : String) (ty : Ty) :
    table.contains (table.freshVariable scope name ty).1.id = false :=
  first_free_outside (fun k => scope.var (numbered name k))
    (fun _ _ same => numbered_inj name (var_inj scope same)) table.identifiers 0

theorem fresh_variable_minted (table : ScopeTable) (scope : Identifier) (name : String) (ty : Ty) :
    Minted table (table.freshVariable scope name ty).2 [(table.freshVariable scope name ty).1.id] :=
  .insert (table.fresh_variable_free scope name ty) rfl

theorem fresh_temporary_minted (table : ScopeTable) (scope : Identifier) (ty : Ty) :
    Minted table (table.freshTemporary scope ty).2 [(table.freshTemporary scope ty).1.id] := by
  have minted := fresh_variable_minted { table with nextTemporary := table.nextTemporary + 1 } scope
    (table.temporaryName ++ toString table.nextTemporary) ty
  exact ⟨minted.distinct, minted.new, minted.taken⟩

theorem fresh_class_name_free (table : ScopeTable) (enclosing : TypeName) :
    table.contains (Identifier.top.type (table.freshClassName enclosing).1) = false :=
  first_free_outside (fun k => Identifier.top.type (enclosing.synthesized k))
    (fun _ _ same => synthesized_inj enclosing (type_inj .top same)) table.identifiers
    table.nextAnonymous

theorem fresh_class_name_minted (table : ScopeTable) (enclosing : TypeName) :
    Minted table (table.freshClassName enclosing).2
      [Identifier.top.type (table.freshClassName enclosing).1] :=
  .insert (table.fresh_class_name_free enclosing) rfl

theorem insert_keeps_free {table : ScopeTable} {id : Identifier} {rest : List Identifier}
    (absent : id ∉ rest) (free : ∀ other ∈ id :: rest, table.contains other = false) :
    ∀ other ∈ rest, (table.insert id).contains other = false := by
  intro other member
  have different : other ≠ id := fun same => absent (same ▸ member)
  have unknown := free other (List.mem_cons_of_mem id member)
  simp only [contains, insert, List.contains_cons, Bool.or_eq_false_iff, beq_eq_false_iff_ne] at *
  exact ⟨different, unknown⟩

theorem reserve_all_ok (table : ScopeTable) (ids : List Identifier) (distinct : ids.Nodup)
    (free : ∀ id ∈ ids, table.contains id = false) :
    ∃ after, table.reserveAll ids = (.ok (), after) ∧ Minted table after ids := by
  induction ids generalizing table with
  | nil => exact ⟨table, rfl, .none table⟩
  | cons id rest ih =>
    obtain ⟨absent, restDistinct⟩ := List.nodup_cons.mp distinct
    have first : Minted table (table.insert id) [id] := .insert (free id List.mem_cons_self) rfl
    obtain ⟨after, run, minted⟩ := ih (table.insert id) restDistinct (insert_keeps_free absent free)
    refine ⟨after, ?_, first.trans minted⟩
    simp only [reserveAll, free id List.mem_cons_self]
    exact run

theorem reserve_all_repeated (table : ScopeTable) (before : List Identifier) (id : Identifier)
    (after : List Identifier) (distinct : before.Nodup)
    (free : ∀ other ∈ before, table.contains other = false)
    (repeated : id ∈ before ∨ table.contains id = true) :
    ∃ rest, table.reserveAll (before ++ id :: after) = (.error (.redeclared id), rest) := by
  induction before generalizing table with
  | nil =>
    have taken : table.contains id = true := by simpa using repeated
    exact ⟨table, by simp [reserveAll, taken]⟩
  | cons first rest ih =>
    obtain ⟨absent, restDistinct⟩ := List.nodup_cons.mp distinct
    have step : Minted table (table.insert first) [first] :=
      .insert (free first List.mem_cons_self) rfl
    have again : id ∈ rest ∨ (table.insert first).contains id = true := by
      rcases repeated with member | old
      · rcases List.mem_cons.mp member with same | later
        · exact Or.inr ((step.taken id).mpr (Or.inr (by simp [same])))
        · exact Or.inl later
      · exact Or.inr (step.grows old)
    obtain ⟨last, run⟩ := ih (table.insert first) restDistinct
      (insert_keeps_free absent free) again
    refine ⟨last, ?_⟩
    simp only [List.cons_append, reserveAll, free first List.mem_cons_self]
    exact run

end ScopeTable

end ClosureLift
