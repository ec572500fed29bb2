import ClosureLift.Proofs.Scope.Growth

/-!
Names that clash. A name that is taken gets a number, the least that makes it free. In the loop that
looks for it nothing gets smaller: it ends because the numbered forms of a name are all different,
while a table holds finitely many identifiers.
-/
namespace ClosureLift

/-- The loop, with the rounds that it takes to end: a candidate that is taken gives way to `name`
with the next number, and the first one that is free is chosen. Nothing in it bounds the rounds. -/
inductive Disambiguation (taken : String → Bool) (name : String) :
    (rounds : Nat) → (candidate : String) → (number : Nat) → (chosen : String) → Prop where
  | done {candidate : String} {number : Nat} (free : taken candidate = false) :
      Disambiguation taken name 0 candidate number candidate
  | round {rounds : Nat} {candidate : String} {number : Nat} {chosen : String}
      (used : taken candidate = true)
      (rest : Disambiguation taken name rounds (name ++ "_" ++ toString number) (number + 1)
        chosen) :
      Disambiguation taken name (rounds + 1) candidate number chosen

structure IsFirstFree (taken : Nat → Bool) (start k : Nat) : Prop where
  reached : start ≤ k
  free : taken k = false
  passed : ∀ j, start ≤ j → j < k → taken j = true

/-- What a table makes of a name that is wanted in a scope. The loop ends, after a round for each
identifier of the table at most. It leaves the name as it is if that is free in the scope, and
otherwise adds the least number that makes it free. -/
structure ScopeTable.Disambiguated (table : ScopeTable) (scope : Identifier)
    (name chosen : String) : Prop where
  ends : ∃ rounds ≤ table.identifiers.length,
    Disambiguation (fun candidate => table.contains (scope.var candidate)) name rounds name 0 chosen
  choice :
    (table.contains (scope.var name) = false ∧ chosen = name) ∨
    (table.contains (scope.var name) = true ∧ ∃ i : Nat,
      chosen = name ++ "_" ++ toString i ∧
      table.contains (scope.var (name ++ "_" ++ toString i)) = false ∧
      ∀ j < i, table.contains (scope.var (name ++ "_" ++ toString j)) = true)

namespace IsFirstFree

variable {taken : Nat → Bool} {start k : Nat}

theorem here_iff : IsFirstFree taken start start ↔ taken start = false := by
  constructor
  · intro first
    exact first.free
  · intro free
    refine ⟨Nat.le_refl start, free, ?_⟩
    intro j lower below
    omega

theorem later_iff (later : start < k) :
    IsFirstFree taken start k ↔ taken start = true ∧ IsFirstFree taken (start + 1) k := by
  constructor
  · intro first
    have rest : ∀ j, start + 1 ≤ j → j < k → taken j = true :=
      fun j lower below => first.passed j (Nat.le_of_succ_le lower) below
    exact ⟨first.passed start (Nat.le_refl start) later, later, first.free, rest⟩
  · rintro ⟨used, first⟩
    refine ⟨Nat.le_of_lt later, first.free, ?_⟩
    intro j lower below
    rcases Nat.eq_or_lt_of_le lower with rfl | after
    · exact used
    · exact first.passed j after below

end IsFirstFree

theorem first_free_first [DecidableEq α] (candidate : Nat → α)
    (distinct : ∀ i j, candidate i = candidate j → i = j) (names : List α) (start : Nat) :
    let taken (k : Nat) := names.contains (candidate k)
    IsFirstFree taken start (firstFree taken names.length start) where
  reached := first_free_from _ _ _
  free := first_free_outside candidate distinct names start
  passed := first_free_least _ _ _

theorem disambiguation_iff {taken : String → Bool} {name chosen : String} {rounds start : Nat} :
    Disambiguation taken name rounds (numbered name start) start chosen ↔
      IsFirstFree (fun k => taken (numbered name k)) start (start + rounds) ∧
        chosen = numbered name (start + rounds) := by
  -- The loop counts the candidate that comes next, so a round moves both on by one.
  induction rounds generalizing start with
  | zero =>
    rw [Nat.add_zero, IsFirstFree.here_iff]
    constructor
    · intro run
      cases run with
      | done free => exact ⟨free, rfl⟩
    · rintro ⟨free, rfl⟩
      exact .done free
  | succ rounds ih =>
    have onward : start + (rounds + 1) = start + 1 + rounds := by omega
    rw [onward, IsFirstFree.later_iff (by omega), and_assoc, ← ih]
    constructor
    · intro run
      cases run with
      | round used rest => exact ⟨used, rest⟩
    · rintro ⟨used, rest⟩
      exact .round used rest

namespace ScopeTable

variable (table : ScopeTable) (scope : Identifier)

theorem disambiguated_of_first {name : String} {k : Nat}
    (first : IsFirstFree (fun k => table.contains (scope.var (numbered name k))) 0 k)
    (within : k ≤ table.identifiers.length) :
    table.Disambiguated scope name (numbered name k) where
  ends := by
    have run : Disambiguation (fun candidate => table.contains (scope.var candidate)) name k
        (numbered name 0) 0 (numbered name k) := by
      rw [disambiguation_iff, Nat.zero_add]
      exact ⟨first, rfl⟩
    exact ⟨k, within, run⟩
  choice := by
    cases k with
    | zero => exact Or.inl ⟨first.free, rfl⟩
    | succ i =>
      have plain := first.passed 0 (Nat.zero_le 0) (Nat.succ_pos i)
      refine Or.inr ⟨plain, i, rfl, first.free, ?_⟩
      intro j below
      exact first.passed (j + 1) (Nat.zero_le _) (Nat.succ_lt_succ below)

theorem fresh_name_disambiguated (name : String) :
    table.Disambiguated scope name
      (freshName (fun n => table.contains (scope.var n)) table.identifiers.length name) := by
  apply disambiguated_of_first
  · exact first_free_first (fun k => scope.var (numbered name k))
      (fun _ _ same => numbered_inj name (var_inj scope same)) table.identifiers 0
  · have within := first_free_within (fun k => table.contains (scope.var (numbered name k)))
      table.identifiers.length 0
    rwa [Nat.zero_add] at within

/-- Minting ends for every table, scope and name, changes a name only if it is taken, and then as
little as it can. The table gets the new identifier and keeps everything else; for a temporary the
name is made from the counter, which goes up by one. -/
theorem minting_disambiguates (name : String) (ty : Ty) :
    (∃ chosen, table.Disambiguated scope name chosen ∧
      table.freshVariable scope name ty =
        (⟨scope.var chosen, chosen, ty⟩,
          { table with identifiers := scope.var chosen :: table.identifiers })) ∧
    (∃ chosen,
      table.Disambiguated scope (table.temporaryName ++ toString table.nextTemporary) chosen ∧
      table.freshTemporary scope ty =
        (⟨scope.var chosen, chosen, ty⟩,
          { table with
            identifiers := scope.var chosen :: table.identifiers
            nextTemporary := table.nextTemporary + 1 })) := by
  constructor
  · exact ⟨_, table.fresh_name_disambiguated scope name, rfl⟩
  · exact ⟨_, table.fresh_name_disambiguated scope _, rfl⟩

/-- Gaps are filled, and names with a number are names like any other. -/
example :
    let scope := Identifier.top.method "run"
    let table : ScopeTable := { empty "t" with
      identifiers := ["x", "x_0", "x_2", "t0"].map scope.var }
    (table.freshVariable scope "x" .integer).1.name = "x_1" ∧
      (table.freshVariable scope "x_0" .integer).1.name = "x_0_0" ∧
      (table.freshTemporary scope .integer).1.name = "t0_0" := by
  decide +kernel

end ScopeTable

end ClosureLift
