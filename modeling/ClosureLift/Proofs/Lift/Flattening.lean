import ClosureLift.Proofs.Lift.Closed
import ClosureLift.Proofs.Lift.Output

/-!
Conversion flattens what is well-scoped. Parts that stay see after the conversion what they saw
before it, and a class that is lifted out is flat: whatever its methods took from around the closure
has become a field, and passes through the constructor.
-/
namespace ClosureLift

open Node (declared localsAll Scoped Settled ClosureFree)

section

variable {options : LiftOptions} {site : Site} {ns ns' : List Node} {xs : List Extract}
  {t t' : ScopeTable}

theorem converts_locals (converts : Converts options site ns t ns' xs t') :
    localsAll ns' = localsAll ns := by
  induction converts with
  | nil site t => rfl
  | @cons _ n n' ns ns' _ _ _ _ _ head tail ihHead ihTail =>
    rw [← List.singleton_append, Node.localsAll_append, ihHead, ihTail, ← Node.localsAll_append,
      List.singleton_append]
  | @part _ n n' _ _ _ plain alike under ih =>
    rw [Node.localsAll_cons, Node.localsAll_cons, Node.alike_locals alike ih]
  | closure alike under sketch mint ih => rfl

theorem construction_declares (lifted : Lifted) :
    (Node.expr lifted.construction).declares = [] := rfl

theorem construction_declared {site : Site} {e : Expr} {t t' : ScopeTable} {shape : Shape}
    {values : List (Variable × Expr)} (sketch : Sketched site e t shape values t')
    (options : LiftOptions) (params : List Variable) :
    declared [.expr (shape.outcome (shape.slots values options) params).construction] ⊆
      declared (Node.ofExpr e) := by
  intro id member
  rw [Node.declared_one, construction_declares, List.map_nil, List.nil_append, Node.children,
    construction_children] at member
  obtain ⟨part, under, x, declares, same⟩ := Node.mem_declared.mp member
  obtain ⟨argument, listed, inside⟩ := Node.mem_preorderAll.mp under
  obtain ⟨slot, inSlots, rfl⟩ := List.mem_map.mp listed
  obtain ⟨ref, _, captured⟩ := shape.slot_of_free_reference inSlots
  rw [captured] at inside
  rcases Capture.argument_of_reference values ref with plain | ⟨_, init, held, _, value⟩
  · rw [plain] at inside
    rw [List.mem_singleton.mp inside] at declares
    cases declares
  · rw [value] at inside
    exact Node.mem_declared.mpr
      ⟨part, Node.mem_preorderAll.mpr ⟨_, sketch.value_under held, inside⟩, x, declares, same⟩

theorem converts_declared (converts : Converts options site ns t ns' xs t') :
    declared ns' ⊆ declared ns := by
  induction converts with
  | nil site t => exact List.Subset.refl _
  | @cons _ n n' ns ns' _ _ _ _ _ head tail ihHead ihTail =>
    intro id member
    rw [← List.singleton_append, Node.declared_append, List.mem_append] at member ⊢
    exact member.imp (ihHead ·) (ihTail ·)
  | @part _ n n' _ _ _ plain alike under ih =>
    intro id member
    rw [Node.declared_one, List.mem_append] at member ⊢
    rw [Node.alike_declares alike] at member
    exact member.imp_right (ih ·)
  | @closure _ e e' _ _ _ _ _ _ _ _ alike under sketch mint ih =>
    intro id member
    rw [Node.declared_one, List.mem_append]
    exact Or.inr (ih (construction_declared sketch options _ member))

end

namespace Node

theorem locals_replaced (σ : Substitution) (n : Node) : (n.replaced σ).locals = n.locals := by
  induction n using by_children with
  | step n ih =>
    have copied (plain : n.isClosure = false) (other : n.reference? = none) :
        (n.replaced σ).locals = n.locals := by
      apply alike_locals (bare_replaced σ n plain other)
      rw [children_replaced σ n plain other, localsAll, List.flatMap_map]
      exact List.flatMap_congr ih
    cases n with
    | expr e => rfl
    | _ => exact copied rfl rfl

theorem owns_replaced (σ : Substitution) (m : Method) :
    ((Node.method m).replaced σ).owns = (Node.method m).owns := by
  apply alike_owns (bare_replaced σ _ rfl rfl)
  rw [children_replaced σ _ rfl rfl, localsAll, List.flatMap_map]
  apply List.flatMap_congr
  intro c _
  exact locals_replaced σ c

end Node

theorem outcome_flat {shape : Shape} {values : List (Variable × Expr)} {options : LiftOptions}
    {params : List Variable} (free : ClosureFree (shape.methods.map .method))
    (bound : ∀ m ∈ shape.methods, ∀ ref, .expr (.reference ref) ∈ m.nodes →
      ref.isFree (declared shape.nodes) shape.own = false →
      View.Sees ⟨(Node.method m).owns.map (·.id), [shape.name]⟩ ref) :
    (shape.outcome (shape.slots values options) params).cls.Flat := by
  have storing : ∀ ref, .expr (.reference ref) ∈
      (Node.constructor ⟨params, shape.storing (shape.slots values options) params⟩).preorder →
      View.Sees ⟨params.map (·.id), [shape.name]⟩ ref := by
    intro ref reads
    rcases List.mem_cons.mp reads with same | inside
    · cases same
    · rcases (shape.storing_part inside).2.2 ref rfl with rfl | ⟨x, param, rfl⟩
      · exact List.mem_singleton_self _
      · exact List.mem_map_of_mem param
  have methods : ∀ m ∈ shape.rewritten (shape.slots values options), ∀ ref,
      .expr (.reference ref) ∈ m.nodes →
      View.Sees ⟨(Node.method m).owns.map (·.id), [shape.name]⟩ ref := by
    intro m member ref reads
    obtain ⟨original, listed, rfl⟩ := List.mem_map.mp member
    have owns := Node.owns_replaced (shape.substitution (shape.slots values options)) original
    simp only [Node.replaced] at owns
    rw [owns]
    rcases shape.rewritten_reads free listed reads with rfl | ⟨inside, stays⟩
    · exact List.mem_singleton_self _
    · exact bound original listed ref inside stays
  apply Class.flat_of_members
  intro n member ref reads
  rcases List.mem_cons.mp member with rfl | method
  · have seen := storing ref reads
    rcases ref with x | cls
    · simp only [View.Sees, Node.owns, Shape.outcome, List.map_append, List.mem_append]
      exact Or.inl seen
    · exact seen
  · obtain ⟨m, listed, rfl⟩ := List.mem_map.mp method
    exact methods m listed ref reads

namespace Node

theorem owns_declared (n : Node) : n.owns.map (·.id) ⊆ declared [n] := by
  intro id member
  rw [owns_eq] at member
  split at member
  · rw [List.map_append, List.mem_append] at member
    rw [declared_one, List.mem_append]
    exact member.imp_right (locals_all_declared _ ·)
  · cases member

theorem declares_introduces (n : Node) : (n.declares.map (·.id)).Sublist n.introduces := by
  cases n with
  | cls c => exact List.nil_sublist _
  | expr e =>
    cases e with
    | anonymousClass closure => exact List.nil_sublist _
    | _ => exact List.Sublist.refl _
  | _ => exact List.Sublist.refl _

theorem declared_introduced (ns : List Node) : (declared ns).Sublist (introduced ns) := by
  rw [declared, introduced, List.map_flatMap]
  generalize preorderAll ns = parts
  induction parts with
  | nil => exact .slnil
  | cons n rest ih => exact (declares_introduces n).append ih

theorem scoped_reference {view : View} {ref : Reference} (sees : view.Sees ref) :
    Scoped view (.expr (.reference ref)) := by
  refine ⟨?_, by simp [children, ofExpr]⟩
  rintro read ⟨⟩
  exact sees

end Node

namespace Sketched

variable {site : Site} {e : Expr} {t t' : ScopeTable} {shape : Shape}
  {values : List (Variable × Expr)} {view : View}

/-- What a method of the shape reads is seen where the closure stands, and then it can be passed on
from there, or it is bound inside the class. -/
def Distributes (shape : Shape) (values : List (Variable × Expr)) (view : View) : Prop :=
  ∀ m ∈ shape.methods, ∀ ref, .expr (.reference ref) ∈ m.nodes →
    (ref.isFree (declared shape.nodes) shape.own = true →
      Scoped view (.expr (Capture.ofReference values ref).argument)) ∧
    (ref.isFree (declared shape.nodes) shape.own = false →
      View.Sees ⟨(Node.method m).owns.map (·.id), [shape.name]⟩ ref)

theorem lambda_distributes {closure : Lambda} {name : TypeName}
    (inScope : Scoped view (.expr (.lambda closure)))
    (free : ClosureFree (Node.ofExpr (.lambda closure)))
    (apart : ∀ id ∈ view.bound, id ∉ declared [.expr (.lambda closure)]) :
    Distributes (closure.toBody.shape name) [] view := by
  intro m member ref reads
  cases List.mem_singleton.mp member
  have known : declared (closure.toBody.shape name).nodes = declared [.expr (.lambda closure)] := by
    rw [Shape.declared_nodes, Node.declared_one]
    exact Node.declared_one _
  have inside : .expr (.reference ref) ∈ (Node.expr (.lambda closure)).preorder := by
    rw [method_walk, List.mem_cons] at reads
    rcases reads with same | under
    · cases same
    · rw [Node.preorder, Expr.nodes, lambda_walk]
      exact List.mem_cons_of_mem _ under
  have seen := inScope.seen_within rfl (by simp [Node.children, Node.ofExpr, Node.isCode]) free
    inside
  rw [known]
  rcases ref with x | cls
  · have either := List.mem_append.mp seen
    simp only [Reference.isFree, Bool.not_eq_true', Bool.not_eq_false', List.contains_iff_mem]
    constructor
    · intro leaves
      apply Node.scoped_reference
      rcases either with own | outer
      · rw [List.contains_iff_mem.mpr (Node.owns_declared _ own)] at leaves
        cases leaves
      · exact outer
    · intro stays
      exact either.resolve_right fun outer => apart _ outer stays
  · exact ⟨fun _ => Node.scoped_reference seen, by rintro ⟨⟩⟩

theorem anonymous_class_distributes {closure : AnonymousClass} {name : TypeName}
    (inScope : Scoped view (.expr (.anonymousClass closure)))
    (free : ClosureFree (Node.ofExpr (.anonymousClass closure)))
    (apart : ∀ id ∈ view.bound, id ∉ declared [.expr (.anonymousClass closure)]) :
    Distributes (closure.shape name) [] view := by
  intro m member ref reads
  have known : declared (closure.shape name).nodes =
      declared [.expr (.anonymousClass closure)] := by
    rw [Shape.declared_nodes, AnonymousClass.shape, method_list_rename, List.map_map,
      Node.declared_one, Node.children, Node.ofExpr, Node.declared_append,
      Node.field_list_declared]
    have renamed := Node.declared_rename (closure.name.replace name) (closure.methods.map .method)
    rw [List.map_map] at renamed
    exact renamed
  rw [AnonymousClass.shape, method_list_rename] at member
  obtain ⟨original, listed, rfl⟩ := List.mem_map.mp member
  obtain ⟨old, inside, rfl⟩ :=
    Node.reads_of_rename (closure.name.replace name) (n := .method original) reads
  obtain ⟨_, under⟩ := inScope
  have child : .method original ∈ (Node.expr (.anonymousClass closure)).children :=
    List.mem_append_right _ (List.mem_map_of_mem listed)
  have seen := (under _ child).seen_within rfl (by simp [Node.children, Node.isCode])
    (free.children child) inside
  have owns := Node.rename_owns_ids (closure.name.replace name) (.method original)
  rw [known]
  rcases old with x | cls
  · have either := List.mem_append.mp seen
    simp only [Reference.rename, Reference.isFree, Bool.not_eq_true', Bool.not_eq_false',
      List.contains_iff_mem]
    constructor
    · intro leaves
      apply Node.scoped_reference
      rcases either with own | outer
      · have within := Node.declared_of_member child (Node.owns_declared _ own)
        rw [Variable.rename, List.contains_iff_mem.mpr] at leaves
        · cases leaves
        · rw [Node.declared_one]
          exact List.mem_append_right _ within
      · exact outer
    · intro stays
      have own := either.resolve_right fun outer => apart _ outer stays
      rw [← owns] at own
      exact own
  · -- The instance of the closure is renamed with it; any other that is captured was seen outside.
    have either : cls = closure.name ∨ cls ∈ view.instances := List.mem_cons.mp seen
    simp only [Reference.rename, Reference.isFree, AnonymousClass.shape, bne_iff_ne, ne_eq,
      Option.some.injEq, bne_eq_false_iff_eq]
    constructor
    · intro leaves
      have other : cls ≠ closure.name := by
        rintro rfl
        exact leaves (by simp [TypeName.replace])
      apply Node.scoped_reference
      simp only [TypeName.replace, other, ↓reduceIte]
      exact either.resolve_left other
    · intro stays
      exact List.mem_singleton.mpr stays.symm

theorem method_reference_distributes {closure : MethodReference} {name : TypeName}
    {scope : Identifier} {params : List Variable} {call : Expr} {t t' : ScopeTable}
    (forward : (closure.call scope (params.map .var)).run t = ((call, values), t'))
    (inScope : Scoped view (.expr (.methodReference closure))) :
    Distributes ((closure.toBody params call).shape name) values view := by
  intro m member ref reads
  cases List.mem_singleton.mp member
  have quiet : declared ((closure.forwarding call).map .stmt) = [] := by
    have introduced : Node.introduced ((closure.forwarding call).map .stmt) = [] := by
      apply Node.introduced_quiet
      intro n member
      rw [← statement_list_walk] at member
      exact (forwarding_part forward member).2.1
    exact List.sublist_nil.mp (introduced ▸ Node.declared_introduced _)
  have known : declared ((closure.toBody params call).shape name).nodes = params.map (·.id) := by
    rw [Shape.declared_nodes]
    refine (Node.declared_one _).trans ?_
    simp only [Node.children, MethodReference.toBody, quiet, Node.declares, List.append_nil]
  rw [method_walk, List.mem_cons] at reads
  rcases reads with same | inside
  · cases same
  rw [known]
  constructor
  · intro leaves
    obtain ⟨_, under⟩ := inScope
    rcases (forwarding_part forward inside).2.2 ref rfl with
      ⟨x, param, rfl⟩ | ⟨target, rfl⟩ | ⟨temporary, receiver, rfl, target, rfl⟩
    · simp only [Reference.isFree, List.contains_iff_mem.mpr (List.mem_map_of_mem param)] at leaves
      cases leaves
    · have passed := under (.expr (.reference ref)) (by simp [Node.children, Node.ofExpr, target])
      rcases ref with x | cls <;> exact passed
    · have passed := under (.expr receiver) (by simp [Node.children, Node.ofExpr, target])
      simp only [Capture.ofReference, List.find?_cons, beq_self_eq_true]
      exact passed
  · intro stays
    rcases ref with x | cls
    · simp only [Reference.isFree, Bool.not_eq_false', List.contains_iff_mem] at stays
      simp only [View.Sees, Node.owns, MethodReference.toBody, List.map_append, List.mem_append]
      exact Or.inl stays
    · cases stays

theorem distributes (sketch : Sketched site e t shape values t')
    (inScope : Scoped view (.expr e)) (free : ClosureFree (Node.ofExpr e))
    (apart : ∀ id ∈ view.bound, id ∉ declared [.expr e]) : Distributes shape values view := by
  cases sketch with
  | lambda named fresh => exact lambda_distributes inScope free apart
  | methodReference named fresh mint forward => exact method_reference_distributes forward inScope
  | anonymousClass fresh => exact anonymous_class_distributes inScope free apart

end Sketched

theorem construction_scoped {shape : Shape} {values : List (Variable × Expr)} {view : View}
    (distributes : Sketched.Distributes shape values view) (options : LiftOptions)
    (params : List Variable) :
    Scoped view (.expr (shape.outcome (shape.slots values options) params).construction) := by
  constructor
  · rintro ref ⟨⟩
  · intro c child
    rw [Node.children, construction_children] at child
    obtain ⟨slot, inSlots, rfl⟩ := List.mem_map.mp child
    obtain ⟨ref, member, captured⟩ := shape.slot_of_free_reference inSlots
    obtain ⟨occurs, leaves⟩ := free_reference_occurs member
    obtain ⟨part, listed, inside⟩ := Node.mem_preorderAll.mp occurs
    rw [captured]
    rcases List.mem_append.mp listed with field | method
    · obtain ⟨f, _, rfl⟩ := List.mem_map.mp field
      cases List.mem_singleton.mp inside
    · obtain ⟨m, among, rfl⟩ := List.mem_map.mp method
      exact (distributes m among ref inside).1 leaves

theorem scoped_alike {options : LiftOptions} {site : Site} {n n' : Node} {xs : List Extract}
    {t t' : ScopeTable} (alike : n'.bare = n.bare)
    (under : Converts options site n.children t n'.children xs t') {view : View}
    (reads : ∀ ref, n.reference? = some ref → view.Sees ref)
    (inside : ∀ c ∈ n'.children, Scoped (view.within n) c) : Scoped view n' := by
  have same : view.within n' = view.within n := by
    rw [View.within, View.within, Node.alike_owns alike (converts_locals under),
      Node.alike_hosts alike]
  constructor
  · rw [Node.alike_reference alike]
    exact reads
  · rw [same]
    exact inside

theorem converts_scoped {options : LiftOptions} {site : Site} {ns ns' : List Node}
    {xs : List Extract} {t t' : ScopeTable} (converts : Converts options site ns t ns' xs t')
    (view : View) (inScope : ∀ n ∈ ns, Scoped view n) (settled : Settled view ns) :
    (∀ n ∈ ns', Scoped view n) ∧ ∀ x ∈ xs, x.cls.Flat := by
  induction converts generalizing view with
  | nil site t => simp
  | cons head tail ihHead ihTail =>
    obtain ⟨here, flat⟩ := ihHead view
      (by simpa using inScope _ List.mem_cons_self) settled.head
    obtain ⟨there, flatLater⟩ := ihTail view
      (fun n member => inScope n (List.mem_cons_of_mem _ member)) settled.tail
    refine ⟨?_, ?_⟩
    · intro n member
      rcases List.mem_cons.mp member with rfl | later
      · exact here _ List.mem_cons_self
      · exact there n later
    · intro x member
      exact (List.mem_append.mp member).elim (flat x) (flatLater x)
  | @part _ n n' _ _ _ plain alike under ih =>
    obtain ⟨reads, inner⟩ := inScope _ List.mem_cons_self
    obtain ⟨inside, flat⟩ := ih (view.within n) inner settled.under
    refine ⟨?_, flat⟩
    intro c member
    rw [List.mem_singleton.mp member]
    exact scoped_alike alike under reads inside
  | @closure _ e e' inner shape _ _ _ _ _ _ alike under sketch mint ih =>
    obtain ⟨reads, inner⟩ := inScope _ List.mem_cons_self
    obtain ⟨inside, flat⟩ := ih (view.within (.expr e)) inner settled.under
    have literal : Scoped view (.expr e') := scoped_alike alike under reads inside
    -- What the closure sees of its surroundings it does not declare anew, so all of it is captured.
    have apart : ∀ id ∈ view.bound, id ∉ declared [.expr e'] := by
      intro id seen within
      rw [Node.declared_one, List.mem_append, Node.alike_declares alike] at within
      have known : id ∈ declared [.expr e] := by
        rw [Node.declared_one, List.mem_append]
        exact within.imp_right (converts_declared under ·)
      cases settled.visible id seen known
    have free := converted_closure_free under
    have distributes := sketch.distributes literal free apart
    refine ⟨?_, ?_⟩
    · intro c member
      rw [List.mem_singleton.mp member]
      exact construction_scoped distributes options _
    · intro x member
      rcases List.mem_append.mp member with carried | last
      · -- Only an anonymous class renames what was lifted out of it.
        cases e with
        | anonymousClass closure =>
          obtain ⟨y, among, rfl⟩ := List.mem_map.mp carried
          exact (flat y among).rename _
        | _ => exact flat x carried
      · rw [List.mem_singleton.mp last]
        apply outcome_flat (sketch.closure_free free)
        intro m member ref reads stays
        exact (distributes m member ref reads).2 stays

namespace Program

variable {program : Program} {options : LiftOptions} {c : Conversion}

/-- Every class of a converted program is flat, those that were there and those made from
closures. -/
theorem conversion_flattens (wellScoped : program.WellScoped)
    (converted : program.convert options = .ok c) : ∀ cls ∈ c.program.classes, cls.Flat := by
  have free := converted_without_closures converted
  obtain ⟨distinct, _, classes, extracts, t, t', minted, converts, rfl⟩ :=
    program.converts_of_convert options converted
  have settled : Settled .empty (program.classes.map .cls) := by
    refine ⟨?_, by simp [View.empty]⟩
    have introduced : (Node.introduced (program.classes.map .cls)).Nodup := by
      rw [Node.class_list_introduced]
      exact distinct
    exact introduced.sublist (Node.declared_introduced _)
  have inScope : ∀ n ∈ program.classes.map Node.cls, Scoped .empty n := by
    intro n member
    obtain ⟨cls, listed, rfl⟩ := List.mem_map.mp member
    exact wellScoped cls listed
  obtain ⟨stays, flat⟩ := converts_scoped converts .empty inScope settled
  intro cls member
  rcases List.mem_append.mp member with original | lifted
  · exact Class.flat_of_scoped (stays _ (List.mem_map_of_mem original))
      (free.one (List.mem_map_of_mem member))
  · obtain ⟨x, among, rfl⟩ := List.mem_map.mp lifted
    exact flat x among

theorem nested_conversion_flattens :
    nested.WellScoped ∧ ∃ c, nested.convert .standard = .ok c ∧ c.program.classes.length = 4 ∧
      ∀ cls ∈ c.program.classes, cls.Flat := by
  have wellScoped : nested.WellScoped := by decide +kernel
  have runs : (nested.convert .standard).map (·.program.classes.length) = .ok 4 := by decide +kernel
  cases converted : nested.convert .standard with
  | error e =>
    rw [converted] at runs
    cases runs
  | ok c =>
    rw [converted] at runs
    exact ⟨wellScoped, c, rfl, Except.ok.inj runs, conversion_flattens wellScoped converted⟩

end Program

end ClosureLift
