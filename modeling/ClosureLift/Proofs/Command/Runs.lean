import ClosureLift.Command.Session
import ClosureLift.Proofs.Command.Places

/-!
What the steps of a command do. On its way a command fails only where a file cannot be accessed.
`Meets` leaves that case aside and says what holds in all others, so that each step has one lemma
and a command is followed from its first step to its last.
-/
namespace ClosureLift

def Failure.OfAccess (failure : Failure) : Prop :=
  ∃ doing, ∃ error : FileError, failure = ⟨doing, [error.message]⟩

namespace CommandM

def outcome (m : CommandM α) (around : Surroundings) (s : Session) : Except Failure α × Session :=
  (m.run around).run.run s

/-- The command comes to its end and meets a condition there, unless a file cannot be accessed. -/
def Meets (m : CommandM α) (around : Surroundings) (s : Session) (post : α → Session → Prop) :
    Prop :=
  match m.outcome around s with
  | (.ok a, after) => post a after
  | (.error failure, _) => failure.OfAccess

variable {around : Surroundings} {s : Session}

theorem bind_ok {m : CommandM α} {a : α} {after : Session} (f : α → CommandM β)
    (ends : m.outcome around s = (.ok a, after)) :
    (m >>= f).outcome around s = (f a).outcome around after := by
  unfold outcome at ends ⊢
  rw [ReaderT.run_bind, ExceptT.run_bind, StateT.run_bind, ends]
  rfl

theorem bind_error {m : CommandM α} {failure : Failure} {after : Session} (f : α → CommandM β)
    (ends : m.outcome around s = (.error failure, after)) :
    (m >>= f).outcome around s = (.error failure, after) := by
  unfold outcome at ends ⊢
  rw [ReaderT.run_bind, ExceptT.run_bind, StateT.run_bind, ends]
  rfl

theorem Meets.imp {m : CommandM α} {post wider : α → Session → Prop} (met : Meets m around s post)
    (implied : ∀ a after, post a after → wider a after) : Meets m around s wider := by
  unfold Meets at met ⊢
  split at met
  · exact implied _ _ met
  · exact met

theorem Meets.andThen {m : CommandM α} {f : α → CommandM β} {mid : α → Session → Prop}
    {post : β → Session → Prop} (first : Meets m around s mid)
    (next : ∀ a after, mid a after → Meets (f a) around after post) :
    Meets (m >>= f) around s post := by
  unfold Meets at first
  split at first
  · rename_i a after ends
    have last := next a after first
    unfold Meets at last ⊢
    rw [bind_ok f ends]
    exact last
  · rename_i failure after ends
    unfold Meets
    rw [bind_error f ends]
    exact first

theorem get_outcome (f : Session → CommandM β) :
    (get >>= f).outcome around s = (f s).outcome around s := rfl

theorem get_then {f : Session → CommandM β} {post : β → Session → Prop}
    (met : Meets (f s) around s post) : Meets (get >>= f) around s post := met

theorem ask_then {f : Surroundings → CommandM β} {post : β → Session → Prop}
    (met : Meets (f around) around s post) : Meets (read >>= f) around s post := met

theorem replace_meets (tree : FileTree) :
    Meets (modify fun s => { s with tree }) around s fun _ after => after = { s with tree } := rfl

theorem access_meets (doing : String) (result : Except FileError α) :
    Meets (access doing result) around s fun a after => after = s ∧ result = .ok a := by
  cases result with
  | ok a => exact ⟨rfl, rfl⟩
  | error e => exact ⟨doing, e, rfl⟩

theorem read_file_meets (path : String) :
    Meets (readFile path) around s fun text after => after = s ∧ s.tree.read path = .ok text := by
  unfold readFile
  exact get_then (access_meets _ (s.tree.read path))

theorem report_meets (text : String) :
    Meets (report text) around s fun _ after => after.tree = s.tree := rfl

theorem emit_meets (output : OutputOptions) (ds : List Diagnostic) (files : SourceFiles) :
    Meets (emit output ds files) around s fun _ after => after.tree = s.tree := by
  unfold emit
  exact ask_then (report_meets _)

theorem store_meets (path text : String) :
    Meets (do
      let tree ← access s!"failed to write {path}" ((← get).tree.write path text)
      modify fun s => { s with tree }) around s fun _ after =>
      s.tree.Holds path text after.tree := by
  refine get_then ((access_meets _ _).andThen fun tree next granted => ?_)
  obtain ⟨rfl, written⟩ := granted
  refine (replace_meets tree).imp fun _ after same => ?_
  rw [same]
  exact FileTree.write_ok written

theorem write_unit_meets (program : Program) (path : String) :
    Meets (writeUnit program (some path)) around s fun _ after =>
      s.tree.Holds path program.toJson.pretty after.tree := by
  unfold writeUnit
  dsimp only
  split
  · exact store_meets path program.toJson.pretty
  · exact store_meets path program.toJson.pretty
  · refine get_then ((access_meets _ _).andThen fun tree next granted => ?_)
    obtain ⟨rfl, made⟩ := granted
    refine (replace_meets tree).andThen fun _ middle same => ?_
    refine (store_meets path program.toJson.pretty).imp fun _ after held => ?_
    rw [same] at held
    exact held.after_same (FileTree.make_dirs_ok made)

end CommandM

end ClosureLift
