import ClosureLift.TypeName
import Mathlib.Data.List.Basic

/-!
Endings of synthesized names. Appending `_Anonymous_k` and taking it off are inverse on every text:
no other mark can start inside the ending, so the last mark is the one that was appended, whatever
stands before it. What `origin` leaves has no such ending.
-/
namespace ClosureLift

namespace TypeName

def IsCounter (digits : List Char) : Prop := digits ≠ [] ∧ ∀ c ∈ digits, c.isDigit = true

theorem last_mark_none_iff {name : List Char} : lastMark? name = none ↔ ¬mark <:+: name := by
  induction name with
  | nil => decide
  | cons c rest ih =>
    have start : mark.isPrefixOf? (c :: rest) = none ↔ ¬mark <+: c :: rest := by
      rw [← Option.not_isSome_iff_eq_none, List.isSome_isPrefixOf?_eq_isPrefixOf,
        List.isPrefixOf_iff_prefix]
    rw [List.infix_cons_iff, not_or, ← ih, ← start]
    simp only [lastMark?]
    split
    · rename_i later
      simp [later]
    · rename_i later
      simp [later]

/-- The search finds a mark such that no other starts after its first character. -/
theorem last_mark_iff {name before after : List Char} :
    lastMark? name = some (before, after) ↔
      name = before ++ mark ++ after ∧ ¬mark <:+: mark.tail ++ after := by
  constructor
  · intro found
    induction name generalizing before with
    | nil => cases found
    | cons c rest ih =>
      simp only [lastMark?] at found
      split at found
      · rename_i inside
        cases found
        obtain ⟨parts, last⟩ := ih inside
        exact ⟨congrArg (c :: ·) parts, last⟩
      · rename_i later
        obtain ⟨tail, starts, same⟩ := Option.map_eq_some_iff.mp found
        cases same
        have parts := List.isPrefixOf?_eq_some_iff_append_eq.mp starts
        refine ⟨parts.symm, ?_⟩
        rw [← last_mark_none_iff, ← later]
        exact congrArg (lastMark? ·.tail) parts
  · rintro ⟨rfl, last⟩
    induction before with
    | nil =>
      have starts : mark.isPrefixOf? (mark ++ after) = some after :=
        List.isPrefixOf?_eq_some_iff_append_eq.mpr rfl
      change lastMark? ('_' :: (mark.tail ++ after)) = _
      rw [lastMark?, last_mark_none_iff.mpr last]
      change (mark.isPrefixOf? (mark ++ after)).map _ = _
      rw [starts]
      rfl
    | cons c rest ih =>
      change lastMark? (c :: (rest ++ mark ++ after)) = _
      rw [lastMark?, ih]

theorem no_mark_inside {digits : List Char} (counter : IsCounter digits) :
    ¬mark <:+: mark.tail ++ digits := by
  -- A mark has two underscores. From its second character on there is one, and digits add none.
  intro inside
  have counts : List.count '_' mark ≤ List.count '_' (mark.tail ++ digits) :=
    inside.sublist.count_le '_'
  have digit : List.count '_' digits = 0 := by
    rw [List.count_eq_zero]
    intro member
    exact absurd (counter.2 '_' member) (by decide)
  have two : List.count '_' mark = 2 := by decide
  have one : List.count '_' mark.tail = 1 := by decide
  rw [List.count_append, digit, two, one] at counts
  omega

/-- What counts as a synthesized ending, and what stands before it. -/
theorem base_iff {name rest : List Char} :
    base? name = some rest ↔ ∃ digits, IsCounter digits ∧ name = rest ++ mark ++ digits := by
  constructor
  · intro held
    unfold base? at held
    split at held
    · rename_i before digits found
      split at held
      · rename_i counter
        cases held
        exact ⟨digits, ⟨counter.1, List.all_eq_true.mp counter.2⟩, (last_mark_iff.mp found).1⟩
      · cases held
    · cases held
  · rintro ⟨digits, counter, rfl⟩
    rw [base?, last_mark_iff.mpr ⟨rfl, no_mark_inside counter⟩]
    exact if_pos ⟨counter.1, List.all_eq_true.mpr counter.2⟩

theorem base_shorter {name rest : List Char} (held : base? name = some rest) :
    rest.length < name.length := by
  obtain ⟨digits, _, rfl⟩ := base_iff.mp held
  have some : mark.length = 11 := rfl
  simp only [List.length_append, some]
  omega

theorem stripped_of_none {name : List Char} (plain : base? name = none) (n : Nat) :
    stripped n name = name := by
  cases n with
  | zero => rfl
  | succ n => simp only [stripped, plain]

theorem stripped_of_base {name rest : List Char} (held : base? name = some rest) (n : Nat) :
    stripped (n + 1) name = stripped n rest := by
  simp only [stripped, held]

theorem stripped_plain {n : Nat} {name : List Char} (room : name.length ≤ n) :
    base? (stripped n name) = none := by
  induction n generalizing name with
  | zero =>
    have empty : name = [] := List.length_eq_zero_iff.mp (Nat.le_zero.mp room)
    rw [empty]
    rfl
  | succ n ih =>
    cases held : base? name with
    | none => rw [stripped_of_none held, held]
    | some rest =>
      have shorter := base_shorter held
      rw [stripped_of_base held]
      exact ih (by omega)

theorem stripped_enough {m n : Nat} {name : List Char} (room : name.length ≤ m)
    (also : name.length ≤ n) : stripped m name = stripped n name := by
  induction m generalizing n name with
  | zero =>
    have empty : name = [] := List.length_eq_zero_iff.mp (Nat.le_zero.mp room)
    rw [empty, stripped_of_none rfl, stripped_of_none rfl]
  | succ m ih =>
    cases held : base? name with
    | none => rw [stripped_of_none held, stripped_of_none held]
    | some rest =>
      have shorter := base_shorter held
      obtain ⟨k, rfl⟩ : ∃ k, n = k + 1 := ⟨n - 1, by omega⟩
      rw [stripped_of_base held, stripped_of_base held]
      exact ih (by omega) (by omega)

theorem origin_not_synthesized (name : TypeName) : name.origin.isSynthesized = false := by
  have plain := stripped_plain (Nat.le_of_eq name.qualified.length_toList)
  simp [isSynthesized, origin, plain]

theorem origin_of_plain {name : TypeName} (plain : name.isSynthesized = false) :
    name.origin = name := by
  have none : base? name.qualified.toList = none := by simpa [isSynthesized] using plain
  simp [origin, stripped_of_none none]

theorem origin_of_base {name : TypeName} {rest : List Char}
    (held : base? name.qualified.toList = some rest) :
    name.origin = (TypeName.mk (String.ofList rest)).origin := by
  have shorter := base_shorter held
  have same : stripped name.qualified.toList.length name.qualified.toList =
      stripped rest.length rest := by
    obtain ⟨n, count⟩ : ∃ n, name.qualified.toList.length = n + 1 :=
      ⟨name.qualified.toList.length - 1, by omega⟩
    rw [count, stripped_of_base held]
    exact stripped_enough (by omega) (Nat.le_refl _)
  rw [String.length_toList] at same
  simp [origin, same]

theorem to_string_is_counter (k : Nat) : IsCounter (toString k).toList := by
  rw [Nat.toString_eq_repr, Nat.toList_repr]
  constructor
  · exact Nat.toDigits_ne_nil
  · intro c member
    exact Nat.isDigit_of_mem_toDigits (by omega) (by omega) member

theorem mark_spelled : String.ofList mark = "_Anonymous_" := String.ofList_toList

section

variable (enclosing : TypeName) (k : Nat)

theorem synthesized_spelled :
    (enclosing.synthesized k).qualified =
      enclosing.origin.qualified ++ "_Anonymous_" ++ toString k := by
  rw [← mark_spelled]
  rfl

theorem base_of_synthesized :
    base? (enclosing.synthesized k).qualified.toList = some enclosing.origin.qualified.toList := by
  rw [synthesized, String.toList_append, String.toList_append, String.toList_ofList]
  exact base_iff.mpr ⟨_, to_string_is_counter k, rfl⟩

theorem synthesized_is_synthesized : (enclosing.synthesized k).isSynthesized = true := by
  simp [isSynthesized, base_of_synthesized]

theorem origin_of_synthesized : (enclosing.synthesized k).origin = enclosing.origin := by
  rw [origin_of_base (base_of_synthesized enclosing k), String.ofList_toList]
  exact origin_of_plain enclosing.origin_not_synthesized

end

end TypeName

end ClosureLift
