import ClosureLift.Proofs.Program.Free
import ClosureLift.Proofs.Program.Renaming

/-!
Where a reference may stand. Constructors, methods and lambdas own the variables that they declare
as parameters or by the statements of their bodies, and everything written inside them sees those.
The instance of a class is seen inside that class. A class is flat if its members see nothing but
what they own and the instance.
-/
namespace ClosureLift

mutual

def Stmt.locals : Stmt → List Variable
  | .expr _ => []
  | .ret _ => []
  | .decl x _ => [x]
  | .cond _ thenBranch elseBranch => Stmt.localsAll thenBranch ++ Stmt.localsAll elseBranch
  | .loop _ body => Stmt.localsAll body

def Stmt.localsAll : List Stmt → List Variable
  | [] => []
  | s :: rest => s.locals ++ Stmt.localsAll rest

end

namespace Node

/-- The variables declared directly in a constructor, a method or a lambda. -/
def owns : Node → List Variable
  | .constructor c => c.params ++ Stmt.localsAll c.body
  | .method m => m.params ++ Stmt.localsAll m.body
  | .expr (.lambda closure) => closure.params ++ Stmt.localsAll closure.body
  | _ => []

def hosts : Node → List TypeName
  | .cls c => [c.name]
  | .expr (.anonymousClass closure) => [closure.name]
  | _ => []

end Node

/-- What can be read at some place. -/
structure View where
  bound : List Identifier
  instances : List TypeName

namespace View

def empty : View := ⟨[], []⟩

def Sees (view : View) : Reference → Prop
  | .variable decl => decl.id ∈ view.bound
  | .this cls => cls ∈ view.instances

/-- What can be read inside a part. -/
def within (view : View) (n : Node) : View :=
  ⟨n.owns.map (·.id) ++ view.bound, n.hosts ++ view.instances⟩

end View

/-- Every reference in a part reads what can be read where it stands. -/
inductive Node.Scoped : View → Node → Prop where
  | intro {view : View} {n : Node} (reads : ∀ ref, n.reference? = some ref → view.Sees ref)
      (under : ∀ c ∈ n.children, Scoped (view.within n) c) : Scoped view n

def Program.WellScoped (program : Program) : Prop :=
  ∀ c ∈ program.classes, Node.Scoped .empty (.cls c)

instance (view : View) : (ref : Reference) → Decidable (view.Sees ref)
  | .variable decl => inferInstanceAs (Decidable (decl.id ∈ view.bound))
  | .this cls => inferInstanceAs (Decidable (cls ∈ view.instances))

namespace Node

def checkScoped : Nat → View → Node → Bool
  | 0, _, _ => false
  | depth + 1, view, n =>
    n.reference?.all (fun ref => decide (view.Sees ref)) &&
      n.children.all (checkScoped depth (view.within n))

theorem check_scoped_iff {depth : Nat} {view : View} {n : Node}
    (deep : n.preorder.length ≤ depth) : checkScoped depth view n = true ↔ Scoped view n := by
  induction depth generalizing view n with
  | zero =>
    rw [preorder_eq, List.length_cons] at deep
    omega
  | succ depth ih =>
    have under : ∀ c ∈ n.children,
        (checkScoped depth (view.within n) c = true ↔ Scoped (view.within n) c) := by
      intro c child
      apply ih
      obtain ⟨before, after, split⟩ := List.append_of_mem child
      rw [preorder_eq, split, preorderAll_append, preorderAll_cons] at deep
      simp only [List.length_cons, List.length_append] at deep
      omega
    simp only [checkScoped, Bool.and_eq_true, Option.all_eq_true, decide_eq_true_eq,
      List.all_eq_true]
    constructor
    · rintro ⟨reads, inside⟩
      exact ⟨reads, fun c child => (under c child).mp (inside c child)⟩
    · rintro ⟨reads, inside⟩
      exact ⟨reads, fun c child => (under c child).mpr (inside c child)⟩

instance (view : View) (n : Node) : Decidable (Scoped view n) :=
  decidable_of_iff (checkScoped n.preorder.length view n = true) (check_scoped_iff (Nat.le_refl _))

end Node

instance (program : Program) : Decidable program.WellScoped :=
  inferInstanceAs (Decidable (∀ c ∈ program.classes, Node.Scoped .empty (.cls c)))

/-- The members of a class read only variables of their own, and no instance but that of the
class. -/
structure Class.Flat (c : Class) : Prop where
  locals : ∀ n ∈ Node.constructor c.constructor :: c.methods.map .method, ∀ x,
    .expr (.reference (.variable x)) ∈ n.preorder → x.id ∈ n.owns.map (·.id)
  instances : ∀ cls, .expr (.reference (.this cls)) ∈ c.nodes → cls = c.name

namespace Node

def isFrame : Node → Bool
  | .constructor _ | .method _ | .expr (.lambda _) => true
  | _ => false

def locals : Node → List Variable
  | .stmt s => s.locals
  | _ => []

def localsAll (ns : List Node) : List Variable := ns.flatMap locals

theorem statement_list_locals (ss : List Stmt) :
    Stmt.localsAll ss = localsAll (ss.map .stmt) := by
  induction ss with
  | nil => rfl
  | cons s rest ih =>
    rw [Stmt.localsAll, ih]
    rfl

theorem expression_list_locals (es : List Expr) : localsAll (es.map .expr) = [] := by
  induction es with
  | nil => rfl
  | cons e rest ih => exact ih

theorem method_list_locals (ms : List Method) : localsAll (ms.map .method) = [] := by
  induction ms with
  | nil => rfl
  | cons m rest ih => exact ih

theorem field_list_locals (fs : List Field) : localsAll (fs.map .field) = [] := by
  induction fs with
  | nil => rfl
  | cons f rest ih => exact ih

theorem localsAll_append (ms ns : List Node) :
    localsAll (ms ++ ns) = localsAll ms ++ localsAll ns :=
  List.flatMap_append

theorem localsAll_cons (n : Node) (ns : List Node) :
    localsAll (n :: ns) = n.locals ++ localsAll ns :=
  List.flatMap_cons

theorem owns_eq (n : Node) :
    n.owns = if n.isFrame then n.declares ++ localsAll n.children else [] := by
  cases n with
  | constructor c => simp [owns, isFrame, declares, children, statement_list_locals]
  | method m => simp [owns, isFrame, declares, children, statement_list_locals]
  | expr e =>
    cases e with
    | lambda closure =>
      simp [owns, isFrame, declares, children, ofExpr, statement_list_locals]
    | _ => rfl
  | _ => rfl

theorem locals_eq (n : Node) :
    n.locals = if n.isFrame then [] else n.declares ++ localsAll n.children := by
  cases n with
  | cls c =>
    simp [locals, isFrame, declares, children, localsAll_append, localsAll_cons,
      field_list_locals, method_list_locals]
  | field f => rfl
  | constructor c => rfl
  | method m => rfl
  | stmt s =>
    cases s with
    | ret value => cases value <;> rfl
    | cond condition thenBranch elseBranch =>
      simp [locals, isFrame, declares, children, ofStmt, Stmt.locals, statement_list_locals,
        localsAll_append, localsAll_cons]
    | loop condition body =>
      simp [locals, isFrame, declares, children, ofStmt, Stmt.locals, statement_list_locals,
        localsAll_cons]
    | _ => rfl
  | expr e =>
    cases e with
    | methodReference closure =>
      obtain ⟨_, _, _, _, target, _, _⟩ := closure
      cases target <;> rfl
    | methodCall receiver method args typeArgs ty =>
      simp [locals, isFrame, declares, children, ofExpr, localsAll_cons, expression_list_locals]
    | anonymousClass closure =>
      simp [locals, isFrame, declares, children, ofExpr, localsAll_append, field_list_locals,
        method_list_locals]
    | staticCall | construct | operation =>
      simp [locals, isFrame, declares, children, ofExpr, expression_list_locals]
    | _ => rfl

section

variable {m n : Node} (alike : m.bare = n.bare)
include alike

theorem alike_frame : m.isFrame = n.isFrame := by
  have same : ∀ k : Node, k.bare.isFrame = k.isFrame := by
    intro k
    cases k with
    | expr e => cases e <;> rfl
    | _ => rfl
  rw [← same m, alike, same n]

theorem alike_hosts : m.hosts = n.hosts := by
  have same : ∀ k : Node, k.bare.hosts = k.hosts := by
    intro k
    cases k with
    | expr e => cases e <;> rfl
    | _ => rfl
  rw [← same m, alike, same n]

theorem alike_owns (under : localsAll m.children = localsAll n.children) : m.owns = n.owns := by
  rw [owns_eq, owns_eq, alike_frame alike, alike_declares alike, under]

theorem alike_locals (under : localsAll m.children = localsAll n.children) :
    m.locals = n.locals := by
  rw [locals_eq, locals_eq n, alike_frame alike, alike_declares alike, under]

end

theorem declared_nil : declared [] = [] := rfl

theorem declared_append (ms ns : List Node) : declared (ms ++ ns) = declared ms ++ declared ns := by
  simp [declared]

theorem declared_cons (n : Node) (ns : List Node) :
    declared (n :: ns) = n.declares.map (·.id) ++ (declared n.children ++ declared ns) := by
  simp [declared, preorder_eq]

theorem declared_one (n : Node) :
    declared [n] = n.declares.map (·.id) ++ declared n.children := by
  rw [declared_cons, declared_nil, List.append_nil]

theorem field_list_declared (fs : List Field) : declared (fs.map .field) = [] := by
  induction fs with
  | nil => rfl
  | cons f rest ih =>
    rw [List.map_cons, declared_cons, ih]
    rfl

theorem declared_of_member {n : Node} {ns : List Node} (member : n ∈ ns) :
    declared [n] ⊆ declared ns := by
  intro id inside
  rw [mem_declared] at inside ⊢
  obtain ⟨part, under, declares⟩ := inside
  obtain ⟨m, same, inner⟩ := mem_preorderAll.mp under
  rw [List.mem_singleton.mp same] at inner
  exact ⟨part, mem_preorderAll.mpr ⟨n, member, inner⟩, declares⟩

theorem locals_declared (n : Node) : n.locals.map (·.id) ⊆ declared [n] := by
  induction n using by_children with
  | step n ih =>
    intro id member
    rw [locals_eq] at member
    split at member
    · simp at member
    · rw [List.map_append, List.mem_append] at member
      rw [declared_one, List.mem_append]
      refine member.imp_right ?_
      intro inside
      obtain ⟨x, among, same⟩ := List.mem_map.mp inside
      obtain ⟨c, child, own⟩ := List.mem_flatMap.mp among
      exact declared_of_member child (ih c child (List.mem_map.mpr ⟨x, own, same⟩))

theorem locals_all_declared (ns : List Node) : (localsAll ns).map (·.id) ⊆ declared ns := by
  intro id member
  obtain ⟨x, among, same⟩ := List.mem_map.mp member
  obtain ⟨n, listed, own⟩ := List.mem_flatMap.mp among
  exact declared_of_member listed (locals_declared n (List.mem_map.mpr ⟨x, own, same⟩))

def isCode : Node → Bool
  | .stmt _ | .expr _ => true
  | _ => false

theorem within_code {n : Node} (view : View) (code : n.isCode = true)
    (plain : n.isClosure = false) : view.within n = view := by
  cases n with
  | stmt s => rfl
  | expr e =>
    cases e with
    | lambda | anonymousClass => cases plain
    | _ => rfl
  | _ => cases code

theorem code_under {c n : Node} (code : n.isCode = true) (plain : n.isClosure = false)
    (child : c ∈ n.children) : c.isCode = true := by
  cases n with
  | stmt s =>
    cases s with
    | ret value =>
      cases value with
      | none => cases child
      | some e =>
        rw [List.mem_singleton.mp child]
        rfl
    | cond condition thenBranch elseBranch =>
      simp only [children, ofStmt, List.mem_cons, List.mem_append, List.mem_map] at child
      rcases child with rfl | ⟨s, _, rfl⟩ | ⟨s, _, rfl⟩ <;> rfl
    | loop condition body =>
      simp only [children, ofStmt, List.mem_cons, List.mem_map] at child
      rcases child with rfl | ⟨s, _, rfl⟩ <;> rfl
    | expr | decl =>
      rw [List.mem_singleton.mp child]
      rfl
  | expr e =>
    cases e with
    | lambda | methodReference | anonymousClass => cases plain
    | literal | reference => cases child
    | fieldAccess =>
      rw [List.mem_singleton.mp child]
      rfl
    | assign | conditional =>
      simp only [children, ofExpr, List.mem_cons, List.not_mem_nil, or_false] at child
      rcases child with rfl | rfl | rfl <;> rfl
    | methodCall =>
      simp only [children, ofExpr, List.mem_cons, List.mem_map] at child
      rcases child with rfl | ⟨e, _, rfl⟩ <;> rfl
    | staticCall | construct | operation =>
      obtain ⟨e, _, rfl⟩ := List.mem_map.mp child
      rfl
  | _ => cases code

theorem Scoped.seen {view : View} {n : Node} {ref : Reference} (inScope : Scoped view n)
    (code : n.isCode = true) (free : ClosureFree [n])
    (reads : .expr (.reference ref) ∈ n.preorder) : view.Sees ref := by
  induction inScope with
  | @intro view n own under ih =>
    rw [preorder_eq, List.mem_cons, mem_preorderAll] at reads
    rcases reads with here | ⟨c, child, inside⟩
    · exact own ref (by rw [← here]; rfl)
    · have plain := free.self List.mem_cons_self
      have seen := ih c child (code_under code plain child)
        ((free.children List.mem_cons_self).one child) inside
      rwa [within_code view code plain] at seen

theorem Scoped.seen_within {view : View} {n : Node} {ref : Reference} (inScope : Scoped view n)
    (silent : n.reference? = none) (code : ∀ c ∈ n.children, c.isCode = true)
    (free : ClosureFree n.children) (reads : .expr (.reference ref) ∈ n.preorder) :
    (view.within n).Sees ref := by
  obtain ⟨own, under⟩ := inScope
  rw [preorder_eq, List.mem_cons, mem_preorderAll] at reads
  rcases reads with here | ⟨c, child, inside⟩
  · rw [← here] at silent
    cases silent
  · exact (under c child).seen (code c child) (free.one child) inside

/-- Nothing is declared twice among the parts, and what is seen around them is declared among them
only on behalf of the frame around them. -/
structure Settled (view : View) (ns : List Node) : Prop where
  once : (declared ns).Nodup
  visible : ∀ id ∈ view.bound, id ∈ declared ns → id ∈ (localsAll ns).map (·.id)

namespace Settled

variable {view : View} {n : Node} {ns : List Node}

theorem head (settled : Settled view (n :: ns)) : Settled view [n] := by
  have once := settled.once
  rw [← List.singleton_append, declared_append, List.nodup_append] at once
  refine ⟨once.1, ?_⟩
  intro id seen here
  have passed := settled.visible id seen (declared_of_member List.mem_cons_self here)
  rw [localsAll_cons, List.map_append, List.mem_append] at passed
  rcases passed with own | later
  · simpa [localsAll] using own
  · exact absurd rfl (once.2.2 id here id (locals_all_declared ns later))

theorem tail (settled : Settled view (n :: ns)) : Settled view ns := by
  have once := settled.once
  rw [← List.singleton_append, declared_append, List.nodup_append] at once
  refine ⟨once.2.1, ?_⟩
  intro id seen later
  have known : id ∈ declared (n :: ns) := by
    rw [← List.singleton_append, declared_append]
    exact List.mem_append_right _ later
  have passed := settled.visible id seen known
  rw [localsAll_cons, List.map_append, List.mem_append] at passed
  rcases passed with own | there
  · exact absurd rfl (once.2.2 id (locals_declared n own) id later)
  · exact there

theorem under (settled : Settled view [n]) : Settled (view.within n) n.children := by
  have once := settled.once
  rw [declared_one, List.nodup_append] at once
  refine ⟨once.2.1, ?_⟩
  intro id seen inside
  have passed : id ∈ view.bound → id ∈ n.locals.map (·.id) := by
    intro outer
    have known : id ∈ declared [n] := by
      rw [declared_one]
      exact List.mem_append_right _ inside
    simpa [localsAll] using settled.visible id outer known
  have either : id ∈ (n.declares ++ localsAll n.children).map (·.id) := by
    rw [View.within, owns_eq] at seen
    rw [locals_eq] at passed
    cases frame : n.isFrame with
    | true =>
      simp only [frame, ↓reduceIte, List.map_nil, List.mem_append] at seen passed
      rcases seen with own | outer
      · exact own
      · cases passed outer
    | false =>
      simp only [frame, Bool.false_eq_true, ↓reduceIte, List.map_nil, List.nil_append]
        at seen passed
      exact passed seen
  rw [List.map_append, List.mem_append] at either
  rcases either with own | there
  · exact absurd rfl (once.2.2 id own id inside)
  · exact there

end Settled

section

variable (σ : TypeName → TypeName)

theorem declared_rename (ns : List Node) : declared (ns.map (rename σ)) = declared ns := by
  rw [declared, declared, preorderAll_rename, List.map_flatMap, List.map_flatMap, List.flatMap_map]
  apply List.flatMap_congr
  intro n _
  exact rename_declares_ids σ n

theorem rename_frame (n : Node) : (n.rename σ).isFrame = n.isFrame := by
  cases n with
  | expr e => cases e <;> rfl
  | _ => rfl

theorem rename_locals_under {n : Node}
    (each : ∀ c ∈ n.children, (c.rename σ).locals.map (·.id) = c.locals.map (·.id)) :
    (localsAll (n.rename σ).children).map (·.id) = (localsAll n.children).map (·.id) := by
  rw [children_rename, localsAll, localsAll, List.map_flatMap, List.map_flatMap, List.flatMap_map]
  apply List.flatMap_congr
  exact each

theorem rename_locals_ids (n : Node) :
    (n.rename σ).locals.map (·.id) = n.locals.map (·.id) := by
  induction n using by_children with
  | step n ih =>
    rw [locals_eq, locals_eq n, rename_frame]
    split
    · rfl
    · rw [List.map_append, List.map_append, rename_declares_ids, rename_locals_under σ ih]

theorem rename_owns_ids (n : Node) : (n.rename σ).owns.map (·.id) = n.owns.map (·.id) := by
  rw [owns_eq, owns_eq n, rename_frame]
  split
  · rw [List.map_append, List.map_append, rename_declares_ids,
      rename_locals_under σ fun c _ => rename_locals_ids σ c]
  · rfl

theorem reads_of_rename {n : Node} {ref : Reference}
    (reads : .expr (.reference ref) ∈ (n.rename σ).preorder) :
    ∃ old, .expr (.reference old) ∈ n.preorder ∧ ref = old.rename σ := by
  rw [preorder_rename] at reads
  obtain ⟨part, inside, same⟩ := List.mem_map.mp reads
  have read : (part.rename σ).reference? = some ref := by
    rw [same]
    rfl
  rw [rename_reference, Option.map_eq_some_iff] at read
  obtain ⟨old, here, renamed⟩ := read
  rw [reference_eq_some] at here
  exact ⟨old, here ▸ inside, renamed.symm⟩

end

end Node

theorem Class.Flat.rename {c : Class} (flat : c.Flat) (σ : TypeName → TypeName) :
    (c.rename σ).Flat := by
  constructor
  · intro n member x reads
    have renamed : n ∈ (Node.constructor c.constructor :: c.methods.map .method).map
        (Node.rename σ) := by
      simpa [Class.rename, method_list_rename, Node.rename, List.map_map, Function.comp_def]
        using member
    obtain ⟨part, listed, rfl⟩ := List.mem_map.mp renamed
    obtain ⟨old, inside, same⟩ := Node.reads_of_rename σ reads
    rw [Node.rename_owns_ids]
    rcases old with decl | cls
    · simp only [Reference.rename, Reference.variable.injEq] at same
      rw [same]
      exact flat.locals part listed decl inside
    · cases same
  · intro cls reads
    obtain ⟨old, inside, same⟩ := Node.reads_of_rename σ (n := .cls c) reads
    rcases old with decl | name
    · cases same
    · simp only [Reference.rename, Reference.this.injEq] at same
      rw [same, flat.instances name inside]
      rfl

theorem Class.flat_of_members {c : Class}
    (seen : ∀ n ∈ Node.constructor c.constructor :: c.methods.map .method, ∀ ref,
      .expr (.reference ref) ∈ n.preorder → View.Sees ⟨n.owns.map (·.id), [c.name]⟩ ref) :
    c.Flat := by
  constructor
  · intro n member x reads
    exact seen n member (.variable x) reads
  · intro cls reads
    have inside : .expr (.reference (.this cls)) ∈ (Node.cls c).preorder := reads
    rw [Node.preorder_eq, List.mem_cons, Node.mem_preorderAll] at inside
    rcases inside with same | ⟨n, child, reads⟩
    · cases same
    · rcases List.mem_append.mp child with field | member
      · obtain ⟨f, _, rfl⟩ := List.mem_map.mp field
        cases List.mem_singleton.mp reads
      · exact List.mem_singleton.mp (seen n member (.this cls) reads)

theorem Class.flat_of_scoped {c : Class} (inScope : Node.Scoped .empty (.cls c))
    (free : Node.ClosureFree [.cls c]) : c.Flat := by
  obtain ⟨_, under⟩ := inScope
  have parts := free.children List.mem_cons_self
  apply Class.flat_of_members
  intro n member ref reads
  have child : n ∈ (Node.cls c).children := List.mem_append_right _ member
  have body : n.reference? = none ∧ n.hosts = [] ∧ ∀ s ∈ n.children, s.isCode = true := by
    rcases List.mem_cons.mp member with rfl | method
    · refine ⟨rfl, rfl, ?_⟩
      simp [Node.children, Node.isCode]
    · obtain ⟨m, _, rfl⟩ := List.mem_map.mp method
      refine ⟨rfl, rfl, ?_⟩
      simp [Node.children, Node.isCode]
  have inside := (under n child).seen_within body.1 body.2.2 (parts.children child) reads
  rw [View.within, body.2.1] at inside
  simpa [View.within, View.empty, Node.owns, Node.hosts] using inside

end ClosureLift
