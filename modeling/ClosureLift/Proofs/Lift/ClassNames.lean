import ClosureLift.Proofs.Lift.Allocation
import ClosureLift.Proofs.TypeName
import Mathlib.Data.List.Forall2

/-!
Names for the classes of closures. A closure can lie inside the class of another one, and so on to
any depth, but all their names go back to the type that somebody wrote, and one counter numbers
them. The search for a free number passes over names that the table has and over no others, so it
ends.
-/
namespace ClosureLift

structure Naming where
  table : ScopeTable
  enclosing : TypeName

namespace Naming

def name (naming : Naming) : TypeName := (naming.table.freshClassName naming.enclosing).1

def after (naming : Naming) : ScopeTable := (naming.table.freshClassName naming.enclosing).2

/-- A history of a table in which classes are named for `root` and for classes that have their names
from it already, in any order and with any other requests in between. -/
inductive Chain (root : TypeName) : List TypeName → ScopeTable → List Naming → Prop where
  | done (earlier : List TypeName) (t : ScopeTable) : Chain root earlier t []
  | other {earlier : List TypeName} {t : ScopeTable} {namings : List Naming} (request : Request)
      (rest : Chain root earlier (request.perform t).2 namings) : Chain root earlier t namings
  | name {earlier : List TypeName} {naming : Naming} {namings : List Naming}
      (known : naming.enclosing ∈ root :: earlier)
      (rest : Chain root (naming.name :: earlier) naming.after namings) :
      Chain root earlier naming.table (naming :: namings)

/-- The class gets the number `k` under the type that `root` goes back to: the first from the
counter on under which the table has no name. -/
structure Numbered (root : TypeName) (naming : Naming) (k : Nat) : Prop where
  spelled : naming.name.qualified = root.origin.qualified ++ "_Anonymous_" ++ toString k
  synthesized : naming.name.isSynthesized = true
  origin : naming.name.origin = root.origin
  counted : naming.table.nextAnonymous ≤ k
  skipped : ∀ j, naming.table.nextAnonymous ≤ j → j < k → naming.table.contains
    (Identifier.top.type ⟨root.origin.qualified ++ "_Anonymous_" ++ toString j⟩) = true
  free : naming.table.contains (Identifier.top.type naming.name) = false
  ends : k ≤ naming.table.nextAnonymous + naming.table.identifiers.length
  left : naming.after =
    { naming.table.insert (Identifier.top.type naming.name) with nextAnonymous := k + 1 }

theorem numbered {root : TypeName} (naming : Naming)
    (rooted : naming.enclosing.origin = root.origin) : ∃ k, Numbered root naming k := by
  let taken (k : Nat) :=
    naming.table.contains (Identifier.top.type (naming.enclosing.synthesized k))
  have spelled : ∀ j, naming.enclosing.synthesized j =
      ⟨root.origin.qualified ++ "_Anonymous_" ++ toString j⟩ := by
    intro j
    rw [← rooted, ← TypeName.synthesized_spelled]
  refine ⟨firstFree taken naming.table.identifiers.length naming.table.nextAnonymous, ?_⟩
  constructor
  case spelled => exact congrArg TypeName.qualified (spelled _)
  case synthesized => exact TypeName.synthesized_is_synthesized _ _
  case origin => exact (TypeName.origin_of_synthesized _ _).trans rooted
  case counted => exact first_free_from taken _ _
  case skipped =>
    intro j start below
    rw [← spelled]
    exact first_free_least taken _ _ j start below
  case free => exact naming.table.fresh_class_name_free naming.enclosing
  case ends => exact first_free_within taken _ _
  case left => rfl

theorem Chain.numbers {root : TypeName} {earlier : List TypeName} {t : ScopeTable}
    {namings : List Naming} (chain : Chain root earlier t namings)
    (rooted : ∀ name ∈ earlier, name.origin = root.origin) :
    ∃ numbers, List.Forall₂ (Numbered root) namings numbers ∧ numbers.Pairwise (· < ·) ∧
      ∀ k ∈ numbers, t.nextAnonymous ≤ k := by
  induction chain with
  | done => exact ⟨[], .nil, .nil, by simp⟩
  | @other _ t _ request rest ih =>
    obtain ⟨numbers, each, ascending, least⟩ := ih rooted
    have grows := (request.served_one t).anonymous
    exact ⟨numbers, each, ascending, fun k member => Nat.le_trans grows (least k member)⟩
  | @name earlier naming _ known rest ih =>
    have origin : naming.enclosing.origin = root.origin := by
      rcases List.mem_cons.mp known with same | before
      · rw [same]
      · exact rooted _ before
    obtain ⟨k, here⟩ := naming.numbered origin
    obtain ⟨numbers, each, ascending, least⟩ :=
      ih (List.forall_mem_cons.mpr ⟨here.origin, rooted⟩)
    -- The counter is left one above `k`, so what is numbered later gets more.
    rw [here.left] at least
    refine ⟨k :: numbers, .cons here each, List.pairwise_cons.mpr ⟨least, ascending⟩, ?_⟩
    intro j member
    rcases List.mem_cons.mp member with rfl | later
    · exact here.counted
    · have above := least j later
      have counted := here.counted
      simp only at above
      omega

/-- Every class of a chain is called after the type that the root goes back to, which nobody
synthesized, and a number; the numbers rise from one class to the next. -/
theorem class_names_rooted {root : TypeName} {t : ScopeTable} {namings : List Naming}
    (chain : Chain root [] t namings) :
    root.origin.isSynthesized = false ∧
      ∃ numbers, List.Forall₂ (Numbered root) namings numbers ∧ numbers.Pairwise (· < ·) := by
  obtain ⟨numbers, each, ascending, _⟩ := chain.numbers (by simp)
  exact ⟨root.origin_not_synthesized, numbers, each, ascending⟩

/-- A class for a closure inside `a.Outer_Anonymous_7`, in a unit that declares
`a.Outer_Anonymous_1`. -/
def outer : Naming :=
  ⟨(ScopeTable.empty "_t").insert (Identifier.top.type ⟨"a.Outer_Anonymous_1"⟩),
    ⟨"a.Outer_Anonymous_7"⟩⟩

def inner : Naming := ⟨outer.after, outer.name⟩

theorem nested_class_names_rooted :
    Chain outer.enclosing [] outer.table [outer, inner] ∧
    outer.enclosing.origin.isSynthesized = false ∧
    (∃ numbers, List.Forall₂ (Numbered outer.enclosing) [outer, inner] numbers ∧
      numbers.Pairwise (· < ·)) ∧
    [outer.name, inner.name] = [⟨"a.Outer_Anonymous_0"⟩, ⟨"a.Outer_Anonymous_2"⟩] := by
  have rest : Chain outer.enclosing [outer.name] inner.table [inner] :=
    .name (List.mem_cons_of_mem _ List.mem_cons_self) (.done _ _)
  have chain : Chain outer.enclosing [] outer.table [outer, inner] :=
    .name List.mem_cons_self rest
  obtain ⟨plain, numbered⟩ := class_names_rooted chain
  exact ⟨chain, plain, numbered, by decide +kernel⟩

end Naming

end ClosureLift
