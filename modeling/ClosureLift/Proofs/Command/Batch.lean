import ClosureLift.Proofs.Command.Runs
import ClosureLift.Proofs.Lift.Instance

/-!
Lifting the units of a directory. Each unit is read when its turn comes, so what is written for one
can be what is read for another. Where that does not happen the units are independent: one that can
be lifted is, from the text that it held at first, whatever the others hold; nothing is written for
the rest, and the command fails if there is one of these. `Turn` says what happens to one unit and
`Delivered` what happens to all of them.
-/
namespace ClosureLift

open CommandM

/-- One unit's turn, by the number of failed units and the tree before and after it: its text is
refused, or the program it is lifted to is written. -/
inductive Turn (wording : Wording) (options : LiftOptions) (tree : FileTree) (path goal : String)
    (failed : Nat) : Nat → FileTree → Prop where
  | refused {text : String} {rejection : Rejection} (read : tree.read path = .ok text)
      (fails : liftText wording options text = .error rejection) :
      Turn wording options tree path goal failed (failed + 1) tree
  | lifted {text : String} {c : Conversion} {after : FileTree} (read : tree.read path = .ok text)
      (lifts : liftText wording options text = .ok c)
      (held : tree.Holds goal c.program.toJson.pretty after) :
      Turn wording options tree path goal failed failed after

theorem lift_unit_meets {around : Surroundings} {s : Session} {args : LiftCommand}
    {options : LiftOptions} {unit : UnitFile} {goal : String} (output : OutputOptions)
    (tally : Tally) (goes : destination args.output unit = some goal) :
    Meets (liftUnit args output options unit tally) around s fun next after =>
      Turn around.wording options s.tree unit.path goal tally.failed next.failed after.tree := by
  unfold liftUnit
  refine (read_file_meets unit.path).andThen fun text first granted => ?_
  obtain ⟨unchanged, read⟩ := granted
  rw [unchanged]
  refine ask_then ?_
  split
  · rename_i diagnostic files fails
    refine (emit_meets output [diagnostic] files).andThen fun _ after same => ?_
    have turn : Turn around.wording options s.tree unit.path goal tally.failed (tally.failed + 1)
        after.tree := by
      rw [same]
      exact .refused read fails
    exact turn
  · rename_i c lifts
    refine (emit_meets output c.warnings c.program.files).andThen fun _ shown same => ?_
    -- An outline is shown or not; either way what follows starts from the same files.
    have last : ∀ next : Session, next.tree = s.tree →
        Meets (do
          writeUnit c.program (destination args.output unit)
          return { tally with
            diagnostics := tally.diagnostics ++ c.warnings
            reports := tally.reports ++ c.reports }) around next fun next after =>
          Turn around.wording options s.tree unit.path goal tally.failed next.failed
            after.tree := by
      intro next same
      rw [goes]
      refine (write_unit_meets c.program goal).andThen fun _ after held => ?_
      rw [same] at held
      exact Turn.lifted read lifts held
    by_cases outlined : args.outline = true
    · rw [if_pos outlined]
      exact (report_meets c.program.outline).andThen fun _ next kept => last next (kept.trans same)
    · rw [if_neg outlined]
      exact last shown same

section Batch

variable {wording : Wording} {options : LiftOptions}

def FileTree.Lifts (wording : Wording) (options : LiftOptions) (tree : FileTree) (place : Place)
    (c : Conversion) : Prop :=
  ∃ text, tree.files.lookup place = some text ∧ liftText wording options text = .ok c

def FileTree.Refuses (wording : Wording) (options : LiftOptions) (tree : FileTree)
    (place : Place) : Prop :=
  ∃ text rejection, tree.files.lookup place = some text ∧
    liftText wording options text = .error rejection

/-- No unit has its text replaced by another one before its turn: where the program that is written
for a unit goes, there is no later unit, or one that holds this text already. -/
def FileTree.Steady (wording : Wording) (options : LiftOptions) (source target : Place)
    (units : List Place) (tree : FileTree) : Prop :=
  units.Pairwise fun p q => ∀ c, tree.Lifts wording options (source ++ p) c →
    target ++ p = source ++ q → tree.files.lookup (source ++ q) = some c.program.toJson.pretty

/-- Units are lifted from one directory to another, each by what it held at first. Nothing changes
but the files that are written for those that are not refused. -/
structure Delivered (wording : Wording) (options : LiftOptions) (source target : Place)
    (units : List Place) (tree after : FileTree) : Prop where
  current : after.current = tree.current
  written : ∀ p ∈ units, ∀ c, tree.Lifts wording options (source ++ p) c →
    after.files.lookup (target ++ p) = some c.program.toJson.pretty
  untouched : ∀ place, (∀ p ∈ units, ∀ c, tree.Lifts wording options (source ++ p) c →
    place ≠ target ++ p) → after.files.lookup place = tree.files.lookup place

variable {source target p : Place} {units : List Place} {tree next after : FileTree}

theorem FileTree.lifts_same {place : Place} {c : Conversion}
    (same : next.files.lookup place = tree.files.lookup place) :
    next.Lifts wording options place c ↔ tree.Lifts wording options place c := by
  unfold FileTree.Lifts
  rw [same]

theorem FileTree.refuses_same {place : Place}
    (same : next.files.lookup place = tree.files.lookup place) :
    next.Refuses wording options place ↔ tree.Refuses wording options place := by
  unfold FileTree.Refuses
  rw [same]

theorem FileTree.Steady.of_kept (steady : tree.Steady wording options source target units)
    (kept : ∀ q ∈ units, next.files.lookup (source ++ q) = tree.files.lookup (source ++ q)) :
    next.Steady wording options source target units := by
  refine steady.imp_of_mem ?_
  intro q o before later clear c lifts equal
  rw [kept o later]
  exact clear c ((FileTree.lifts_same (kept q before)).mp lifts) equal

theorem FileTree.Lifts.unique {place : Place} {c d : Conversion}
    (one : tree.Lifts wording options place c) (other : tree.Lifts wording options place d) :
    c = d := by
  obtain ⟨text, found, lifts⟩ := one
  obtain ⟨again, found_again, lifts_again⟩ := other
  rw [found] at found_again
  cases found_again
  rw [lifts] at lifts_again
  exact Except.ok.inj lifts_again

theorem FileTree.Lifts.not_refused {place : Place} {c : Conversion}
    (lifted : tree.Lifts wording options place c) : ¬tree.Refuses wording options place := by
  rintro ⟨text, rejection, found, fails⟩
  obtain ⟨again, found_again, lifts⟩ := lifted
  rw [found] at found_again
  cases found_again
  rw [fails] at lifts
  cases lifts

namespace Delivered

theorem none (tree : FileTree) : Delivered wording options source target [] tree tree where
  current := rfl
  written := by simp
  untouched := by simp

theorem cons (first : Delivered wording options source target [p] tree next)
    (kept : ∀ q ∈ units, next.files.lookup (source ++ q) = tree.files.lookup (source ++ q))
    (rest : Delivered wording options source target units next after) :
    Delivered wording options source target (p :: units) tree after where
  current := rest.current.trans first.current
  written := by
    intro q member c lifts
    by_cases later : q ∈ units
    · exact rest.written q later c ((FileTree.lifts_same (kept q later)).mpr lifts)
    · have same : q = p := by
        cases List.mem_cons.mp member with
        | inl same => exact same
        | inr inside => exact absurd inside later
      subst same
      -- No other unit has the same destination.
      have untouched := rest.untouched (target ++ q) (by
        intro other inside _ _ equal
        exact later (List.append_cancel_left equal ▸ inside))
      rw [untouched]
      exact first.written q List.mem_cons_self c lifts
  untouched := by
    intro place apart
    have later := rest.untouched place (by
      intro q member c lifts
      exact apart q (List.mem_cons_of_mem p member) c
        ((FileTree.lifts_same (kept q member)).mp lifts))
    have now := first.untouched place (by
      intro q member c lifts
      rw [List.mem_singleton.mp member] at lifts ⊢
      exact apart p List.mem_cons_self c lifts)
    rw [later, now]

theorem kept {q : Place} (done : Delivered wording options source target [p] tree next)
    (clear : ∀ c, tree.Lifts wording options (source ++ p) c → target ++ p = source ++ q →
      tree.files.lookup (source ++ q) = some c.program.toJson.pretty) :
    next.files.lookup (source ++ q) = tree.files.lookup (source ++ q) := by
  by_cases replaced : ∃ c, tree.Lifts wording options (source ++ p) c ∧ target ++ p = source ++ q
  · obtain ⟨c, lifts, equal⟩ := replaced
    rw [clear c lifts equal, ← equal]
    exact done.written p List.mem_cons_self c lifts
  · apply done.untouched
    intro o single c lifts equal
    rw [List.mem_singleton.mp single] at lifts equal
    exact replaced ⟨c, lifts, equal.symm⟩

end Delivered

theorem Turn.delivered {path goal : String} {failed count : Nat}
    (turn : Turn wording options tree path goal failed count after)
    (at_source : tree.spelled path = source ++ p) (at_target : tree.spelled goal = target ++ p) :
    Delivered wording options source target [p] tree after ∧
      (count = failed + 1 ∧ tree.Refuses wording options (source ++ p) ∨
        count = failed ∧ ¬tree.Refuses wording options (source ++ p)) := by
  cases turn with
  | refused read fails =>
    have found := FileTree.read_ok read
    rw [at_source] at found
    have refused : tree.Refuses wording options (source ++ p) := ⟨_, _, found, fails⟩
    refine ⟨⟨rfl, ?_, fun _ _ => rfl⟩, .inl ⟨rfl, refused⟩⟩
    intro q member c lifted
    rw [List.mem_singleton.mp member] at lifted
    exact absurd refused lifted.not_refused
  | lifted read lifts held =>
    have found := FileTree.read_ok read
    rw [at_source] at found
    have lifted : tree.Lifts wording options (source ++ p) _ := ⟨_, found, lifts⟩
    obtain ⟨current, files⟩ := held
    rw [at_target] at files
    refine ⟨⟨current, ?_, ?_⟩, .inr ⟨rfl, lifted.not_refused⟩⟩
    · intro q member d other
      rw [List.mem_singleton.mp member] at other ⊢
      rw [files, if_pos rfl, lifted.unique other]
    · intro place apart
      rw [files, if_neg (apart p List.mem_cons_self _ lifted)]

def unitAt (input : String) (p : Place) : UnitFile := ⟨p.foldl Path.join input, some p⟩

theorem lift_units_meet {around : Surroundings} {args : LiftCommand} {base : String}
    (given : args.output = some base) (output : OutputOptions) (units : List Place)
    (named : ∀ p ∈ units, ∀ name ∈ p, Path.IsName name) (tally : Tally) (s : Session)
    (at_source : s.tree.spelled args.input = source) (at_target : s.tree.spelled base = target)
    (steady : s.tree.Steady around.wording options source target units) :
    Meets (liftUnits args output options (units.map (unitAt args.input)) tally) around s
      fun last after =>
        Delivered around.wording options source target units s.tree after.tree ∧
        tally.failed ≤ last.failed ∧
        (tally.failed < last.failed ↔
          ∃ p ∈ units, s.tree.Refuses around.wording options (source ++ p)) := by
  induction units generalizing s tally with
  | nil => exact ⟨.none s.tree, Nat.le_refl _, by simp⟩
  | cons p rest ih =>
    obtain ⟨first, others⟩ := List.pairwise_cons.mp steady
    have goes : destination args.output (unitAt args.input p) =
        some (p.foldl Path.join base) := by
      rw [given]
      rfl
    have here := named p List.mem_cons_self
    have starts : s.tree.spelled (unitAt args.input p).path = source ++ p := by
      rw [← at_source]
      exact s.tree.spelled_names args.input p here
    have ends : s.tree.spelled (p.foldl Path.join base) = target ++ p := by
      rw [← at_target]
      exact s.tree.spelled_names base p here
    refine (lift_unit_meets output tally goes).andThen fun next middle turn => ?_
    obtain ⟨done, counted⟩ := turn.delivered starts ends
    have kept : ∀ q ∈ rest,
        middle.tree.files.lookup (source ++ q) = s.tree.files.lookup (source ++ q) :=
      fun q member => done.kept (first q member)
    have later := ih (fun q member => named q (List.mem_cons_of_mem p member)) next middle
      (by rw [FileTree.spelled_current done.current, at_source])
      (by rw [FileTree.spelled_current done.current, at_target])
      (FileTree.Steady.of_kept others kept)
    refine later.imp fun last after met => ?_
    obtain ⟨delivered, grown, exact_count⟩ := met
    refine ⟨done.cons kept delivered, ?_, ?_⟩
    · omega
    · have same : (∃ q ∈ rest, middle.tree.Refuses around.wording options (source ++ q)) ↔
          ∃ q ∈ rest, s.tree.Refuses around.wording options (source ++ q) :=
        exists_congr fun q => and_congr_right fun member => FileTree.refuses_same (kept q member)
      rw [same] at exact_count
      rw [List.exists_mem_cons_iff]
      cases counted with
      | inl refused => exact ⟨fun _ => .inl refused.2, fun _ => by omega⟩
      | inr fine =>
        rw [← fine.1, exact_count]
        exact ⟨.inr, fun some => some.resolve_left fine.2⟩

end Batch

def FileTree.units (tree : FileTree) (input : String) : List Place :=
  (tree.under (tree.spelled input)).filter isUnitName

theorem FileTree.WellFormed.unit_named {tree : FileTree} (formed : tree.WellFormed)
    (input : String) :
    ∀ p ∈ tree.units input, ∀ name ∈ p, Path.IsName name := by
  intro p member name inside
  have under := (List.mem_filter.mp member).1
  unfold FileTree.under at under
  rw [mem_sorted fun _ _ => Std.LawfulEqCmp.eq_of_compare] at under
  obtain ⟨file, among, found⟩ := List.mem_filterMap.mp under
  split at found
  · cases found
    exact formed.named file among name (List.mem_of_mem_drop inside)
  · cases found

theorem collect_outcome {around : Surroundings} {s : Session} {input : String}
    (formed : s.tree.WellFormed) (directory : s.tree.leadsToDir input = true) :
    (collectUnits input).outcome around s =
      (.ok ((s.tree.units input).map (unitAt input)), s) := by
  unfold FileTree.leadsToDir at directory
  split at directory
  · rename_i place resolved
    have file : s.tree.leadsToFile input = false := by
      unfold FileTree.leadsToFile
      rw [resolved]
      by_contra there
      obtain ⟨held, among, same⟩ := List.any_eq_true.mp (Bool.not_eq_false _ ▸ there)
      have plain := formed.plain held among
      rw [beq_iff_eq.mp same, directory] at plain
      cases plain
    unfold FileTree.units
    rw [← FileTree.resolve_ok resolved]
    unfold collectUnits
    rw [get_outcome]
    simp only [file, resolved, directory]
    rfl
  · cases directory

theorem finish_outcome (around : Surroundings) (s : Session) (output : OutputOptions) (units : Nat)
    (tally : Tally) :
    ∃ after : Session, (finishLift output units tally).outcome around s =
        (if tally.failed ≠ 0 then
            .error ⟨s!"{tally.failed} of {units} unit(s) could not be lifted", []⟩
          else .ok (), after) ∧
      after.tree = s.tree := by
  unfold finishLift
  by_cases failed : tally.failed ≠ 0
  · simp only [if_pos failed]
    cases output.quiet with
    | true => exact ⟨_, rfl, rfl⟩
    | false => exact ⟨_, rfl, rfl⟩
  · simp only [if_neg failed]
    cases output.quiet with
    | true => exact ⟨_, rfl, rfl⟩
    | false => exact ⟨_, rfl, rfl⟩

section Perform

variable {around : Surroundings} {args : LiftCommand} {options : LiftOptions} {before : Session}

theorem perform_nothing (output : OutputOptions)
    (configured : (loadOptions args.config args.input).outcome around before =
      (.ok options, before))
    (collected : (collectUnits args.input).outcome around before = (.ok [], before)) :
    ∃ after : Session, (args.perform output).outcome around before = (.ok (), after) ∧
      after.tree = before.tree := by
  unfold LiftCommand.perform
  rw [bind_ok _ configured, bind_ok _ collected]
  cases output.quiet with
  | true => exact ⟨_, rfl, rfl⟩
  | false => exact ⟨_, rfl, rfl⟩

theorem perform_units {units : List UnitFile} (output : OutputOptions)
    (configured : (loadOptions args.config args.input).outcome around before =
      (.ok options, before))
    (collected : (collectUnits args.input).outcome around before = (.ok units, before))
    (filled : units.isEmpty = false) :
    ∃ start : Session, (args.perform output).outcome around before =
        (liftUnits args output options units ⟨[], [], 0⟩ >>=
          finishLift output units.length).outcome around start ∧
      start.tree = before.tree := by
  unfold LiftCommand.perform
  rw [bind_ok _ configured, bind_ok _ collected, filled]
  by_cases shown : (!output.quiet && decide (output.format = .text)) = true
  · simp only [shown]
    exact ⟨{ before with err := before.err ++ s!"Lifting {units.length} unit(s)...\n" }, rfl, rfl⟩
  · simp only [shown]
    exact ⟨before, rfl, rfl⟩

theorem perform_independent (before : Session) {output : OutputOptions} {after : Session}
    {base : String} {result : Except Failure Unit} (formed : before.tree.WellFormed)
    (directory : before.tree.leadsToDir args.input = true) (given : args.output = some base)
    (configured : (loadOptions args.config args.input).outcome around before =
      (.ok options, before))
    (steady : before.tree.Steady around.wording options (before.tree.spelled args.input)
      (before.tree.spelled base) (before.tree.units args.input))
    (ran : (args.perform output).outcome around before = (result, after))
    (accessed : ∀ failure, result = .error failure → ¬failure.OfAccess) :
    Delivered around.wording options (before.tree.spelled args.input) (before.tree.spelled base)
        (before.tree.units args.input) before.tree after.tree ∧
      ((∃ failure, result = .error failure) ↔ ∃ p ∈ before.tree.units args.input,
        before.tree.Refuses around.wording options (before.tree.spelled args.input ++ p)) := by
  have named := formed.unit_named args.input
  have collected : (collectUnits args.input).outcome around before =
      (.ok ((before.tree.units args.input).map (unitAt args.input)), before) :=
    collect_outcome formed directory
  generalize before.tree.units args.input = places at *
  cases places with
  | nil =>
    obtain ⟨last, ends, same⟩ := perform_nothing output configured collected
    rw [ran] at ends
    cases ends
    rw [same]
    exact ⟨.none before.tree, by simp⟩
  | cons p rest =>
    obtain ⟨start, begins, same⟩ := perform_units output configured collected rfl
    rw [ran] at begins
    rw [← same] at steady ⊢
    have met := lift_units_meet given output (p :: rest) named ⟨[], [], 0⟩ start rfl rfl steady
    unfold Meets at met
    split at met
    · rename_i tally last ends
      obtain ⟨delivered, _, counted⟩ := met
      rw [bind_ok _ ends] at begins
      obtain ⟨final, finished, kept⟩ := finish_outcome around last output
        ((p :: rest).map (unitAt args.input)).length tally
      rw [finished] at begins
      cases begins
      rw [kept, ← counted]
      refine ⟨delivered, ?_⟩
      split <;> simp <;> omega
    · rename_i failure last ends
      rw [bind_error _ ends] at begins
      cases begins
      exact absurd met (accessed failure rfl)

end Perform

theorem run_lift {around : Surroundings} {words : List String} {args : LiftCommand}
    {output : OutputOptions} {tree : FileTree} {result : Except Failure Unit} {after : Session}
    (asked : readArguments words = .ok (.lift args, output))
    (ran : (args.perform output).outcome around ⟨tree, "", ""⟩ = (result, after)) :
    (runCommandLine around words tree).tree = after.tree ∧
      ((runCommandLine around words tree).code ≠ 0 ↔ ∃ failure, result = .error failure) := by
  unfold runCommandLine
  rw [asked]
  unfold outcome at ran
  simp only [Command.perform, ran]
  cases result with
  | ok _ => simp
  | error failure => simp

/-- The units of a directory are lifted as if each were the only one. -/
theorem units_lifted_independently {around : Surroundings} {words : List String}
    {args : LiftCommand} {output : OutputOptions} {options : LiftOptions} {tree : FileTree}
    {base : String} (asked : readArguments words = .ok (.lift args, output))
    (given : args.output = some base) (formed : tree.WellFormed)
    (directory : tree.leadsToDir args.input = true)
    (configured : (loadOptions args.config args.input).outcome around ⟨tree, "", ""⟩ =
      (.ok options, ⟨tree, "", ""⟩))
    (accessed : ∀ failure,
      ((args.perform output).outcome around ⟨tree, "", ""⟩).1 = .error failure →
      ¬failure.OfAccess)
    (steady : tree.Steady around.wording options (tree.spelled args.input) (tree.spelled base)
      (tree.units args.input)) :
    Delivered around.wording options (tree.spelled args.input) (tree.spelled base)
        (tree.units args.input) tree (runCommandLine around words tree).tree ∧
      ((runCommandLine around words tree).code ≠ 0 ↔ ∃ p ∈ tree.units args.input,
        tree.Refuses around.wording options (tree.spelled args.input ++ p)) := by
  cases ran : (args.perform output).outcome around ⟨tree, "", ""⟩ with
  | mk result after =>
    rw [ran] at accessed
    obtain ⟨same, code⟩ := run_lift asked ran
    rw [same, code]
    exact perform_independent ⟨tree, "", ""⟩ formed directory given configured steady ran accessed

def Program.blank (name : String) : Program := ⟨name, ⟨[]⟩, []⟩

/-- Two units that can be lifted, and between them one that cannot. -/
def mixed : FileTree :=
  ⟨[(["d", "a.json"], (Program.blank "a").toJson.pretty), (["d", "b.json"], ""),
      (["d", "sub", "c.json"], (Program.blank "c").toJson.pretty)], [], []⟩

theorem load_standard {around : Surroundings} {s : Session} {input : String}
    (absent : s.tree.leadsToFile (settingsBeside s.tree input) = false) :
    (loadOptions none input).outcome around s = (.ok .standard, s) := by
  unfold loadOptions
  rw [get_outcome]
  simp only [Option.getD_none, absent]
  rfl

theorem refuses_empty {tree : FileTree} {place : Place} (held : tree.files.lookup place = some "") :
    tree.Refuses .standard .standard place := by
  have unread : (Program.ofText? "").isNone = true := by decide +kernel
  refine ⟨"", Wording.standard.rejection, held, ?_⟩
  unfold liftText
  rw [Option.isNone_iff_eq_none.mp unread]

theorem not_access {result : Except Failure Unit}
    (plain : result.mapError Failure.causes = .error []) :
    ∀ failure, result = .error failure → ¬failure.OfAccess := by
  intro failure ends access
  obtain ⟨doing, error, rfl⟩ := access
  rw [ends] at plain
  cases plain

theorem mixed_lifted_independently :
    mixed.Refuses .standard .standard ["d", "b.json"] ∧
      Delivered .standard .standard ["d"] ["d", "out"] [["a.json"], ["b.json"], ["sub", "c.json"]]
        mixed (runCommandLine ⟨.standard, "", false⟩ ["lift", "d", "-o", "d/out"] mixed).tree ∧
      (runCommandLine ⟨.standard, "", false⟩ ["lift", "d", "-o", "d/out"] mixed).code ≠ 0 := by
  have asked : readArguments ["lift", "d", "-o", "d/out"] =
      .ok (.lift ⟨"d", some "d/out", false, none⟩, ⟨.text, false, true⟩) := by decide +kernel
  have formed : mixed.WellFormed := ⟨by decide +kernel, by decide +kernel⟩
  have directory : mixed.leadsToDir "d" = true := by decide +kernel
  have units : mixed.units "d" = [["a.json"], ["b.json"], ["sub", "c.json"]] := by decide +kernel
  have source : mixed.spelled "d" = ["d"] := by decide +kernel
  have target : mixed.spelled "d/out" = ["d", "out"] := by decide +kernel
  have absent : mixed.leadsToFile (settingsBeside mixed "d") = false := by decide +kernel
  have plain : ((LiftCommand.perform ⟨"d", some "d/out", false, none⟩ ⟨.text, false, true⟩).outcome
      ⟨.standard, "", false⟩ ⟨mixed, "", ""⟩).1.mapError Failure.causes = .error [] := by
    decide +kernel
  have refused : mixed.Refuses .standard .standard ["d", "b.json"] :=
    refuses_empty (by decide +kernel)
  have held := units_lifted_independently asked rfl formed directory (load_standard absent)
    (not_access plain) (by
      rw [units, source, target]
      have clear : [["a.json"], ["b.json"], ["sub", "c.json"]].Pairwise
          fun p q => ["d", "out"] ++ p ≠ ["d"] ++ q := by decide
      refine clear.imp ?_
      intro p q differ _ _ same
      exact absurd same differ)
  rw [units, source, target] at held
  exact ⟨refused, held.1, held.2.mpr ⟨["b.json"], by simp, refused⟩⟩

/-- A unit that cannot be lifted, where the output for the one before it goes. -/
def overlapping : FileTree :=
  ⟨[(["d", "a.json"], (Program.blank "a").toJson.pretty), (["d", "sub", "a.json"], "")], [], []⟩

theorem overlapping_units_entangled :
    overlapping.WellFormed ∧ ["sub", "a.json"] ∈ overlapping.units "d" ∧
      overlapping.Refuses .standard .standard ["d", "sub", "a.json"] ∧
      (runCommandLine ⟨.standard, "", false⟩ ["lift", "d", "-o", "d/sub"] overlapping).code = 0 ∧
      (runCommandLine ⟨.standard, "", false⟩ ["lift", "d", "-o", "d/sub"]
        overlapping).tree.files.lookup ["d", "sub", "sub", "a.json"] =
          some (Program.blank "a").toJson.pretty :=
  ⟨⟨by decide +kernel, by decide +kernel⟩, by decide +kernel, refuses_empty (by decide +kernel),
    by decide +kernel, by decide +kernel⟩

end ClosureLift
