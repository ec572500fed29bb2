import Mathlib.Data.List.Induction
import ClosureLift.Command.FileTree

/-!
Where paths lead. What a path spells does not depend on the files that are there, so a tree that
only gains directories and files keeps the places of all paths. An access that succeeds is one at
the place that its path spells: reading finds what the tree holds there, writing changes what it
holds there and nothing else, and making directories changes no file.
-/
namespace ClosureLift

namespace Path

def IsName (name : String) : Prop := name ≠ "" ∧ name ≠ "." ∧ name ≠ ".." ∧ '/' ∉ name.toList

instance : DecidablePred IsName := fun name => by unfold IsName; infer_instance

theorem steps_empty : steps "" = [""] := by
  unfold steps cut
  rw [String.toList_empty, List.splitOn_nil]
  rfl

theorem steps_name {name : String} (named : IsName name) : steps name = [name] := by
  unfold steps cut
  rw [List.splitOn_eq_singleton named.2.2.2]
  simp

theorem steps_slash (front back : String) :
    steps (front ++ "/" ++ back) = steps front ++ steps back := by
  unfold steps cut
  have spread : (front ++ "/" ++ back).toList = front.toList ++ '/' :: back.toList := by simp
  rw [spread, List.splitOn_append_cons_self, List.map_append]

theorem starts_name {name : String} (named : IsName name) : name.startsWith '/' = false := by
  rw [String.startsWith_char_eq_head?]
  cases chars : name.toList with
  | nil => rfl
  | cons c rest =>
    have other : c ≠ '/' := by
      intro same
      exact named.2.2.2 (by rw [chars, same]; exact List.mem_cons_self)
    simp [other]

theorem starts_append {base : String} (written : base ≠ "") (rest : String) :
    (base ++ rest).startsWith '/' = base.startsWith '/' := by
  rw [String.startsWith_char_eq_head?, String.startsWith_char_eq_head?, String.toList_append]
  cases chars : base.toList with
  | nil => exact absurd (String.toList_eq_nil_iff.mp chars) written
  | cons c rest => rfl

theorem join_name (base : String) {name : String} (named : IsName name) :
    base = "" ∧ join base name = name ∨
      base ≠ "" ∧ ((∃ front, base = front ++ "/" ∧ join base name = front ++ "/" ++ name) ∨
        join base name = base ++ "/" ++ name) := by
  by_cases empty : base = ""
  · exact .inl ⟨empty, by simp [join, empty]⟩
  · refine .inr ⟨empty, ?_⟩
    by_cases slash : base.endsWith '/' = true
    · obtain ⟨front, shape⟩ := String.endsWith_char_iff_exists_append.mp slash
      have joined : join base name = base ++ name := by
        simp [join, starts_name named, empty, slash]
      exact .inl ⟨front, shape, by rw [joined, shape]; rfl⟩
    · exact .inr (by simp [join, starts_name named, empty, slash])

end Path

namespace FileTree

/-- A tree that a file system can hold: what stands in a place is a name, and no file is a
directory. -/
structure WellFormed (tree : FileTree) : Prop where
  named : ∀ file ∈ tree.files, ∀ name ∈ file.1, Path.IsName name
  plain : ∀ file ∈ tree.files, tree.isDir file.1 = false

theorem step_empty (place : Place) : step place "" = place := rfl

theorem step_name {name : String} (named : Path.IsName name) (place : Place) :
    step place name = place ++ [name] := by
  unfold step Path.isIdle
  simp [named.1, named.2.1, named.2.2.1]

theorem start_join (tree : FileTree) (base : String) {name : String} (named : Path.IsName name) :
    tree.start (Path.join base name) = tree.start base := by
  unfold start
  obtain ⟨rfl, joined⟩ | ⟨written, ⟨front, rfl, joined⟩ | joined⟩ := Path.join_name base named
  · rw [joined, Path.starts_name named, String.startsWith_char_eq_head?]
    rfl
  · rw [joined, Path.starts_append written]
  · rw [joined, String.append_assoc, Path.starts_append written]

theorem steps_join (base : String) {name : String} (named : Path.IsName name) (first : Place) :
    (Path.steps (Path.join base name)).foldl step first =
      (Path.steps base).foldl step first ++ [name] := by
  obtain ⟨rfl, joined⟩ | ⟨_, ⟨front, rfl, joined⟩ | joined⟩ := Path.join_name base named
  · rw [joined, Path.steps_name named, Path.steps_empty]
    exact step_name named first
  · have idle : Path.steps (front ++ "/") = Path.steps front ++ [""] := by
      rw [← Path.steps_empty, ← Path.steps_slash, String.append_empty]
    rw [joined, Path.steps_slash, Path.steps_name named, idle, List.foldl_append, List.foldl_append]
    exact step_name named _
  · rw [joined, Path.steps_slash, Path.steps_name named, List.foldl_append]
    exact step_name named _

theorem spelled_join (tree : FileTree) (base : String) {name : String} (named : Path.IsName name) :
    tree.spelled (Path.join base name) = tree.spelled base ++ [name] := by
  unfold spelled
  rw [start_join tree base named, steps_join base named]

theorem spelled_names (tree : FileTree) (base : String) (names : List String)
    (named : ∀ name ∈ names, Path.IsName name) :
    tree.spelled (names.foldl Path.join base) = tree.spelled base ++ names := by
  induction names generalizing base with
  | nil => simp
  | cons name rest ih =>
    have first := named name List.mem_cons_self
    have others : ∀ other ∈ rest, Path.IsName other := by
      intro other member
      exact named other (List.mem_cons_of_mem name member)
    rw [List.foldl_cons, ih (Path.join base name) others, spelled_join tree base first,
      List.append_assoc, List.singleton_append]

variable {tree after : FileTree} {path text : String} {place : Place}

theorem spelled_current (same : after.current = tree.current) (path : String) :
    after.spelled path = tree.spelled path := by
  unfold spelled start
  rw [same]

theorem follow_ok {name : String} {next : Place} (followed : tree.follow place name = .ok next) :
    tree.isDir place = true ∧ next = step place name := by
  unfold follow at followed
  split at followed
  · cases followed
  · rename_i there
    split at followed
    · cases followed
    · exact ⟨by simpa using there, (Except.ok.inj followed).symm⟩

theorem granted {x : Except FileError α} {f : α → Except FileError β} {b : β}
    (ok : x >>= f = .ok b) : ∃ a, x = .ok a ∧ f a = .ok b := by
  cases x with
  | error e => cases ok
  | ok a => exact ⟨a, rfl, ok⟩

theorem follow_steps {steps : List String} {first : Place}
    (followed : steps.foldlM tree.follow first = .ok place) : place = steps.foldl step first := by
  induction steps generalizing first with
  | nil => exact (Except.ok.inj followed).symm
  | cons name rest ih =>
    rw [List.foldlM_cons] at followed
    obtain ⟨next, taken, followed⟩ := granted followed
    rw [ih followed, (follow_ok taken).2, List.foldl_cons]

theorem follow_all_ok {steps : List String} (followed : tree.followAll path steps = .ok place) :
    steps.foldlM tree.follow (tree.start path) = .ok place := by
  unfold followAll at followed
  split at followed
  · cases followed
  · split at followed
    · cases followed
    · exact followed

theorem resolve_ok (resolved : tree.resolve path = .ok place) : place = tree.spelled path :=
  follow_steps (follow_all_ok resolved)

theorem read_ok (read : tree.read path = .ok text) :
    tree.files.lookup (tree.spelled path) = some text := by
  unfold FileTree.read at read
  obtain ⟨place, resolved, read⟩ := granted read
  rw [← resolve_ok resolved]
  split at read
  · rename_i held found
    rw [found, Except.ok.inj read]
  · cases read

theorem steps_to_end (path : String) (first : Place) :
    (Path.stepsToEnd path).foldl step first = (Path.steps path).foldl step first := by
  unfold Path.stepsToEnd
  induction Path.steps path using List.reverseRecOn with
  | nil => rfl
  | append_singleton front last ih =>
    by_cases empty : last = ""
    · subst empty
      rw [List.foldl_append]
      simpa [step_empty] using ih
    · simp [empty]

theorem follow_into {front : List String} {first : Place}
    (followed : (front ++ ["."]).foldlM tree.follow first = .ok place) :
    tree.isDir place = true := by
  rw [List.foldlM_append] at followed
  obtain ⟨last, _, followed⟩ := granted followed
  have dotted : tree.follow last "." = .ok place := by
    simpa only [List.foldlM_cons, List.foldlM_nil, bind_pure] using followed
  rw [(follow_ok dotted).2]
  exact (follow_ok dotted).1

theorem lookup_cons_place (home place : Place) (text : String) (files : List (Place × String)) :
    ((home, text) :: files).lookup place =
      if place = home then some text else files.lookup place := by
  by_cases same : place = home
  · rw [if_pos same, same, List.lookup_cons_self]
  · have differs : (place == home) = false := by simpa using same
    rw [if_neg same, List.lookup_cons, differs]

theorem lookup_replaced (files : List (Place × String)) (home place : Place) (text : String) :
    (files.filter (·.1 != home) ++ [(home, text)]).lookup place =
      if place = home then some text else files.lookup place := by
  induction files with
  | nil => exact lookup_cons_place home place text []
  | cons file rest ih =>
    obtain ⟨other, held⟩ := file
    rw [lookup_cons_place]
    by_cases replaced : other = home
    · subst replaced
      rw [List.filter_cons_of_neg (by simp), ih]
      by_cases same : place = other <;> simp [same]
    · rw [List.filter_cons_of_pos (by simpa using replaced), List.cons_append,
        lookup_cons_place, ih]
      by_cases same : place = other <;> simp [same, replaced]

/-- One file is new or has another text; all else is as before. -/
def Holds (tree : FileTree) (path text : String) (after : FileTree) : Prop :=
  after.current = tree.current ∧ ∀ place,
    after.files.lookup place =
      if place = tree.spelled path then some text else tree.files.lookup place

theorem write_ok (written : tree.write path text = .ok after) : tree.Holds path text after := by
  unfold FileTree.write at written
  obtain ⟨place, followed, written⟩ := granted written
  split at written
  · cases written
  · rename_i free
    have followed := follow_all_ok followed
    split at followed
    · exact absurd (follow_into followed) free
    · have reached : place = tree.spelled path := by
        rw [follow_steps followed, steps_to_end]
        rfl
      cases written
      rw [reached]
      exact ⟨rfl, fun other => lookup_replaced tree.files _ other text⟩

def SameFiles (tree after : FileTree) : Prop :=
  after.files = tree.files ∧ after.current = tree.current

theorem Holds.after_same {next : FileTree} (same : SameFiles tree next)
    (held : next.Holds path text after) : tree.Holds path text after := by
  obtain ⟨current, files⟩ := held
  rw [spelled_current same.2, same.1] at files
  exact ⟨current.trans same.2, files⟩

theorem make_dir_ok (made : tree.makeDir path = .ok after) : SameFiles tree after := by
  unfold makeDir at made
  obtain ⟨place, _, made⟩ := granted made
  split at made
  · cases made
  · cases made
    exact ⟨rfl, rfl⟩

theorem settle_ok {attempt : Except FileError FileTree}
    (settled : tree.settle path attempt = .ok after)
    (made : ∀ next, attempt = .ok next → SameFiles tree next) : SameFiles tree after := by
  cases attempt with
  | ok next =>
    cases settled
    exact made _ rfl
  | error e =>
    by_cases there : tree.leadsToDir path = true
    · simp only [settle, there, if_true] at settled
      cases settled
      exact ⟨rfl, rfl⟩
    · simp [settle, there] at settled

theorem make_dirs_ok {paths : List String} (made : tree.makeDirs paths = .ok after) :
    SameFiles tree after := by
  induction paths generalizing after with
  | nil =>
    cases made
    exact ⟨rfl, rfl⟩
  | cons path around ih =>
    unfold makeDirs at made
    split at made
    · rename_i next direct
      cases made
      exact make_dir_ok direct
    · obtain ⟨next, outer, made⟩ := granted made
      have inner : SameFiles next after := settle_ok made (fun _ => make_dir_ok)
      exact ⟨inner.1.trans (ih outer).1, inner.2.trans (ih outer).2⟩
    · exact settle_ok made (by intro next impossible; cases impossible)

end FileTree

end ClosureLift
