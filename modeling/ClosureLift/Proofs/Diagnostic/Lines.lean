import ClosureLift.Codec.Program
import ClosureLift.Diagnostic.Render
import ClosureLift.Proofs.Codec.Basic
import Mathlib.Data.List.Forall2

/-!
Diagnostics as lines for tools. No text in a diagnostic can break its line, because a written value
has no newline in it, and the reader takes each line apart into what was printed.
-/
namespace ClosureLift

open Json

/-- How a line gives the place of a span: not at all if the span has no file, or one that the table
does not have. -/
inductive Located (files : SourceFiles) (span : Span) : Json → Prop where
  | known {path : String} (real : span.file ≠ Span.noFile)
      (listed : files.paths[span.file.toNat]? = some path) :
      Located files span (.obj [("end", .int span.stop.toNat), ("file", .str path),
        ("start", .int span.start.toNat)])
  | unknown (lost : span.file = Span.noFile ∨ files.paths[span.file.toNat]? = none) :
      Located files span .null

/-- The line is one JSON object, with the parts of the diagnostic as its members and no others. -/
def Reports (files : SourceFiles) (line : String) (d : Diagnostic) : Prop :=
  ∃ place, Located files d.span place ∧
    Json.read? nestingLimit line = some (.obj [("code", .str d.code.label),
      ("help", d.help.elim .null .str), ("location", place), ("message", .str d.message),
      ("notes", .arr (d.notes.map .str)), ("severity", .str d.severity.label)])

namespace Json

theorem escaped_one_line (c : Char) : '\n' ∉ escaped c := by
  have digit : ∀ n, n < 16 → hexDigit n ≠ '\n' := by decide
  rcases escaped_cases c with ⟨e, short, _, meant⟩ | ⟨control, long⟩ | ⟨itself, _, _, printed⟩
  · have other : '\n' ≠ e := by
      rintro rfl
      cases meant
    rw [short]
    simp [other]
  · have high := digit (c.toNat / 16) (by omega)
    have low := digit (c.toNat % 16) (by omega)
    rw [long]
    simp [high.symm, low.symm]
  · rw [itself]
    intro inside
    rw [← List.mem_singleton.mp inside] at printed
    exact printed (by decide)

theorem quoted_one_line (text : String) : '\n' ∉ quoted text := by
  simp [quoted, escaped_one_line]

theorem scalar_one_line {v : Json} (plain : v.Plain) : '\n' ∉ v.scalarChars := by
  cases v with
  | bool b => cases b <;> decide
  | int n =>
    intro inside
    -- The spelling of a number is a word, and a newline would end a word.
    have word := (int_word n).2 _ inside
    cases word
  | str text => exact quoted_one_line text
  | real | unreadable => cases plain
  | null | arr | obj =>
    have plain : '\n' ∉ "null".toList := by decide
    exact plain

mutual

theorem compact_one_line : (v : Json) → v.Plain → '\n' ∉ v.compactChars
  | .arr items, plain => by
    have inner := compact_items_one_line items plain
    simp [compactChars, inner]
  | .obj members, plain => by
    have inner := compact_members_one_line members plain
    simp [compactChars, inner]
  | .null, plain | .bool _, plain | .int _, plain | .str _, plain => scalar_one_line plain

theorem compact_items_one_line : (items : List Json) → PlainItems items → '\n' ∉ compactItems items
  | [], _ => by simp [compactItems]
  | [v], plain => compact_one_line v plain.1
  | v :: w :: rest, plain => by
    have first := compact_one_line v plain.1
    have later := compact_items_one_line (w :: rest) plain.2
    simp [compactItems, first, later]

theorem compact_members_one_line : (members : List (String × Json)) → PlainMembers members →
    '\n' ∉ compactMembers members
  | [], _ => by simp [compactMembers]
  | [(k, v)], plain => by
    have value := compact_one_line v plain.1
    simp [compactMembers, quoted_one_line, value]
  | (k, v) :: m :: rest, plain => by
    have value := compact_one_line v plain.1
    have later := compact_members_one_line (m :: rest) plain.2
    simp [compactMembers, quoted_one_line, value, later]

end

end Json

namespace Located

variable {files : SourceFiles} {span : Span} {place : Json}

theorem plain (located : Located files span place) : place.Plain := by
  cases located with
  | known =>
    exact ⟨uint32_round_trips.plain span.stop, trivial,
      uint32_round_trips.plain span.start, trivial⟩
  | unknown => trivial

theorem shallow (located : Located files span place) : place.depth ≤ 1 := by
  cases located with
  | known => exact Nat.le_refl 1
  | unknown => exact Nat.zero_le 1

end Located

namespace Diagnostic

variable (files : SourceFiles) (d : Diagnostic)

theorem place_located (span : Span) : Located files span (.ofOption
    (fun l : Location => .obj [("end", .ofUInt32 l.stop), ("file", .str l.file),
      ("start", .ofUInt32 l.start)]) (files.location? span)) := by
  cases dummy : span.isDummy with
  | true =>
    rw [SourceFiles.location?, if_pos dummy]
    exact .unknown (Or.inl (beq_iff_eq.mp dummy))
  | false =>
    have real : span.file ≠ Span.noFile := beq_eq_false_iff_ne.mp dummy
    cases listed : files.paths[span.file.toNat]? with
    | none =>
      simp only [SourceFiles.location?, dummy, SourceFiles.path?, listed]
      exact .unknown (Or.inr listed)
    | some path =>
      simp only [SourceFiles.location?, dummy, SourceFiles.path?, listed]
      exact .known real listed

theorem to_line_members : ∃ place, Located files d.span place ∧
    d.toLine files = .obj [("code", .str d.code.label), ("help", d.help.elim .null .str),
      ("location", place), ("message", .str d.message), ("notes", .arr (d.notes.map .str)),
      ("severity", .str d.severity.label)] := by
  refine ⟨_, place_located files d.span, ?_⟩
  rw [toLine]
  cases d.help <;> rfl

theorem to_line_plain : (d.toLine files).Plain := by
  obtain ⟨place, located, members⟩ := to_line_members files d
  have help : (d.help.elim Json.null .str).Plain := by
    cases d.help <;> trivial
  have notes : PlainItems (d.notes.map .str) := plain_items_map text_round_trips.plain d.notes
  rw [members]
  exact ⟨trivial, help, located.plain, trivial, notes, trivial, trivial⟩

theorem to_line_shallow : (d.toLine files).depth ≤ 2 := by
  obtain ⟨place, located, members⟩ := to_line_members files d
  have help : (d.help.elim Json.null .str).depth = 0 := by
    cases d.help <;> rfl
  have notes : itemsDepth (d.notes.map .str) ≤ 0 := by
    apply items_depth_le.mpr
    intro v member
    obtain ⟨note, _, rfl⟩ := List.mem_map.mp member
    exact Nat.le_refl 0
  have shallow := located.shallow
  rw [members]
  simp only [depth, membersDepth, help]
  omega

theorem to_line_reports : Reports files (d.toLine files).compact d := by
  obtain ⟨place, located, members⟩ := to_line_members files d
  have shallow : (d.toLine files).depth ≤ nestingLimit :=
    Nat.le_trans (to_line_shallow files d) (by decide)
  refine ⟨place, located, ?_⟩
  rw [read_compact (to_line_plain files d) shallow, members]

theorem to_line_one_line : '\n' ∉ (d.toLine files).compact.toList := by
  rw [compact, String.toList_ofList]
  exact compact_one_line _ (to_line_plain files d)

end Diagnostic

theorem newlines_of_lines (lines : List String) (whole : ∀ line ∈ lines, '\n' ∉ line.toList) :
    (String.join (lines.map (· ++ "\n"))).toList.count '\n' = lines.length := by
  induction lines with
  | nil => rfl
  | cons line rest ih =>
    obtain ⟨first, later⟩ := List.forall_mem_cons.mp whole
    have ending : "\n".toList.count '\n' = 1 := rfl
    rw [List.map_cons, String.join_cons, String.toList_append, String.toList_append,
      List.count_append, List.count_append, List.count_eq_zero.mpr first, ending, ih later,
      List.length_cons]
    omega

namespace Diagnostic

/-- However their texts read, diagnostics are printed for tools as one line each, and each line is
read back as an object with what the diagnostic says. -/
theorem json_lines_lossless (files : SourceFiles) (ds : List Diagnostic) :
    let text := renderAll .json files ds
    text.toList.count '\n' = ds.length ∧
    ∃ lines : List String, text = String.join (lines.map (· ++ "\n")) ∧
      (∀ line ∈ lines, '\n' ∉ line.toList) ∧ List.Forall₂ (Reports files) lines ds := by
  intro text
  let lines := ds.map fun d => (d.toLine files).compact
  have joined : text = String.join (lines.map (· ++ "\n")) := by
    simp only [text, renderAll, lines, List.map_map]
    rfl
  have whole : ∀ line ∈ lines, '\n' ∉ line.toList := by
    intro line member
    obtain ⟨d, _, rfl⟩ := List.mem_map.mp member
    exact to_line_one_line files d
  have reported : List.Forall₂ (Reports files) lines ds := by
    rw [List.forall₂_map_left_iff, List.forall₂_same]
    intro d _
    exact to_line_reports files d
  refine ⟨?_, lines, joined, whole, reported⟩
  rw [joined, newlines_of_lines lines whole, List.length_map]

end Diagnostic

end ClosureLift
