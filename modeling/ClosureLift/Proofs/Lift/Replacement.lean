import ClosureLift.Proofs.Lift.Output
import Mathlib.Data.List.Forall2

/-!
What a conversion leaves in place. A part other than a closure stays what it is, and a closure gives
way to a constructor call; `Replaced` says this of whole programs, with a list of the closures and
their calls. A closure inside another gives way to its call before the outer one is lifted.
-/
namespace ClosureLift

/-- A closure literal, the same literal with calls in place of the closures inside it, and the call
of a constructor that stands for it in the end. -/
structure Replacement where
  literal : Expr
  opened : Expr
  ty : Ty
  args : List Expr

/-- The parts on the left become the parts on the right. The list holds every closure of the parts,
those inside others included, in post-order. -/
inductive Replaced : List Node → List Node → List Replacement → Prop where
  | nil : Replaced [] [] []
  | cons {n n' : Node} {ns ns' : List Node} {first later : List Replacement}
      (head : Replaced [n] [n'] first) (tail : Replaced ns ns' later) :
      Replaced (n :: ns) (n' :: ns') (first ++ later)
  | part {n n' : Node} {inner : List Replacement} (plain : n.isClosure = false)
      (alike : n'.bare = n.bare) (under : Replaced n.children n'.children inner) :
      Replaced [n] [n'] inner
  | closure {r : Replacement} {inner : List Replacement} (literal : r.literal.isClosure = true)
      (alike : (Node.expr r.opened).bare = (Node.expr r.literal).bare)
      (under : Replaced (Node.ofExpr r.literal) (Node.ofExpr r.opened) inner) :
      Replaced [.expr r.literal] [.expr (.construct r.ty r.args)] (inner ++ [r])

theorem replaced_literals {ns ns' : List Node} {rs : List Replacement}
    (replaced : Replaced ns ns' rs) : rs.map (·.literal) = ns.flatMap Node.closures := by
  induction replaced with
  | nil => rfl
  | cons head tail ihHead ihTail =>
    simp only [List.flatMap_cons, List.flatMap_nil, List.append_nil] at ihHead
    rw [List.map_append, ihHead, ihTail, List.flatMap_cons]
  | @part n n' inner plain alike under ih =>
    have quiet : n.literal? = none := by
      cases found : n.literal? with
      | none => rfl
      | some e =>
        obtain ⟨same, literal⟩ := Node.literal_eq_some.mp found
        rw [same, Node.isClosure, literal] at plain
        cases plain
    rw [List.flatMap_singleton, Node.closures_eq, quiet, ih]
    simp
  | @closure r inner literal alike under ih =>
    have found : (Node.expr r.literal).literal? = some r.literal :=
      Node.literal_eq_some.mpr ⟨rfl, literal⟩
    rw [List.flatMap_singleton, Node.closures_eq, found, List.map_append, ih]
    rfl

def Becomes (n n' : Node) : Prop := ∃ rs, Replaced [n] [n'] rs

theorem replaced_each {ns ns' : List Node} {rs : List Replacement}
    (replaced : Replaced ns ns' rs) : List.Forall₂ Becomes ns ns' := by
  induction replaced with
  | nil => exact .nil
  | cons head tail ihHead ihTail => exact .cons ⟨_, head⟩ ihTail
  | part plain alike under ih => exact .cons ⟨_, .part plain alike under⟩ .nil
  | closure literal alike under ih => exact .cons ⟨_, .closure literal alike under⟩ .nil

theorem becomes_cases {n n' : Node} (becomes : Becomes n n') :
    (n.isClosure = true ∧ ∃ ty args, n' = .expr (.construct ty args)) ∨
      (n.isClosure = false ∧ n'.bare = n.bare ∧ List.Forall₂ Becomes n.children n'.children) := by
  obtain ⟨rs, replaced⟩ := becomes
  -- A list of one part can also come from `cons`, with the same part as its head.
  generalize before : [n] = ns at replaced
  generalize after : [n'] = ns' at replaced
  induction replaced with
  | nil => cases before
  | cons head tail ihHead ihTail =>
    cases before
    cases after
    exact ihHead rfl rfl
  | part plain alike under ih =>
    cases before
    cases after
    exact Or.inr ⟨plain, alike, replaced_each under⟩
  | closure literal alike under ih =>
    cases before
    cases after
    exact Or.inl ⟨literal, _, _, rfl⟩

/-- A class without what its constructor and its methods do. -/
def Class.header (c : Class) : Class :=
  { c with
    constructor := { c.constructor with body := [] }
    methods := c.methods.map fun m => { m with body := [] } }

section

variable {cls cls' : Class} {k k' : Constructor} {m m' : Method} {ms ms' : List Method}

theorem becomes_constructor (becomes : Becomes (.constructor k) (.constructor k')) :
    k'.params = k.params ∧ List.Forall₂ Becomes (k.body.map .stmt) (k'.body.map .stmt) := by
  rcases becomes_cases becomes with ⟨_, _, _, same⟩ | ⟨_, alike, under⟩
  · cases same
  · exact ⟨(Constructor.mk.inj (Node.constructor.inj alike)).1, under⟩

theorem becomes_method (becomes : Becomes (.method m) (.method m')) :
    { m' with body := [] } = ({ m with body := [] } : Method) ∧
      List.Forall₂ Becomes (m.body.map .stmt) (m'.body.map .stmt) := by
  rcases becomes_cases becomes with ⟨_, _, _, same⟩ | ⟨_, alike, under⟩
  · cases same
  · exact ⟨Node.method.inj alike, under⟩

theorem becomes_method_headers
    (each : List.Forall₂ (fun m m' => Becomes (.method m) (.method m')) ms ms') :
    (ms'.map fun m => { m with body := [] }) =
      ms.map fun m => ({ m with body := [] } : Method) := by
  induction each with
  | nil => rfl
  | cons head tail ih => rw [List.map_cons, List.map_cons, (becomes_method head).1, ih]

theorem becomes_class (becomes : Becomes (.cls cls) (.cls cls')) :
    cls'.header = cls.header ∧
      Becomes (.constructor cls.constructor) (.constructor cls'.constructor) ∧
      List.Forall₂ (fun m m' => Becomes (.method m) (.method m')) cls.methods cls'.methods := by
  rcases becomes_cases becomes with ⟨_, _, _, same⟩ | ⟨_, alike, under⟩
  · cases same
  · obtain ⟨name, typeParams, superTypes, fields, _, _, span⟩ := Class.mk.inj (Node.cls.inj alike)
    have members := List.forall₂_drop_append _ _ _ under
    have count : (cls'.fields.map Node.field).length = (cls.fields.map Node.field).length := by
      rw [fields]
    rw [count, Node.children, List.drop_left] at members
    cases members with
    | cons constructor methods =>
      rw [List.forall₂_map_left_iff, List.forall₂_map_right_iff] at methods
      refine ⟨?_, constructor, methods⟩
      simp only [Class.header, name, typeParams, superTypes, fields, span,
        (becomes_constructor constructor).1, becomes_method_headers methods]

end

def Expr.LiftsTo (options : LiftOptions) (site : Site) (t : ScopeTable) (made : Lifted)
    (t' : ScopeTable) : Expr → Prop
  | .lambda closure =>
    (closure.toBody.lift site.scope site.enclosing options).run.run t = (.ok made, t')
  | .methodReference closure =>
    (closure.lift site.scope site.enclosing options).run.run t = (.ok made, t')
  | .anonymousClass closure =>
    (closure.lift site.scope site.enclosing options).run.run t = (.ok made, t')
  | _ => False

theorem Sketched.lifts {options : LiftOptions} {site : Site} {e : Expr} {t t₁ t' : ScopeTable}
    {shape : Shape} {values : List (Variable × Expr)} {params : List Variable}
    (sketch : Sketched site e t shape values t₁) (free : Node.ClosureFree (Node.ofExpr e))
    (mint : (Shape.mintParams (site.scope.type shape.name).constructor
      (shape.slots values options)).run t₁ = (params, t')) :
    e.LiftsTo options site t (shape.outcome (shape.slots values options) params) t' := by
  have run := shape.lift_run site.scope values options (sketch.closure_free free) t₁ mint
  cases sketch with
  | @lambda closure _ _ _ named fresh =>
    have body : closure.toBody.method ≠ "" := named
    rw [Expr.LiftsTo, ClosureBody.lift_eq, if_neg body, fresh]
    exact run
  | methodReference named fresh arguments forward =>
    rw [Expr.LiftsTo, MethodReference.lift_eq, if_neg named]
    simp only [fresh, arguments, forward]
    exact run
  | anonymousClass fresh =>
    rw [Expr.LiftsTo, AnonymousClass.lift_eq, fresh]
    exact run

theorem Node.children_inner {n m : Node} (child : m ∈ n.children) (c : Class) : m ≠ .cls c := by
  intro same
  rw [same] at child
  exact Node.child_not_class child

def Class.renamed (c : Class) (names : List (TypeName × TypeName)) : Class :=
  names.foldl (fun c name => c.rename (name.1.replace name.2)) c

/-- Lifting the literal inside `enclosing` made this class, but for the names that other classes got
later, and the call constructs it. -/
def Replacement.Makes (options : LiftOptions) (enclosing : TypeName) (r : Replacement)
    (made : Lifted) (cls : Class) : Prop :=
  ∃ site t t' names, site.enclosing = enclosing ∧ r.opened.LiftsTo options site t made t' ∧
    .construct r.ty r.args = made.construction ∧ cls = made.cls.renamed names

def Documents (options : LiftOptions) (enclosing : TypeName) (r : Replacement) (x : Extract) :
    Prop :=
  ∃ made, r.Makes options enclosing made x.cls ∧
    x.report = .ofLifted made r.literal.form enclosing r.literal.span

theorem Documents.rename {options : LiftOptions} {enclosing : TypeName} {r : Replacement}
    {x : Extract} (documents : Documents options enclosing r x) (source target : TypeName) :
    Documents options enclosing r (x.rename (source.replace target)) := by
  obtain ⟨made, ⟨site, t, t', names, same, lifts, call, cls⟩, report⟩ := documents
  refine ⟨made, ⟨site, t, t', names ++ [(source, target)], same, lifts, call, ?_⟩, report⟩
  simp only [Extract.rename, cls, Class.renamed, List.foldl_append, List.foldl_cons, List.foldl_nil]

theorem carried_documented {options : LiftOptions} {enclosing : TypeName}
    {entries : List (Replacement × Extract)}
    (documented : ∀ entry ∈ entries, Documents options enclosing entry.1 entry.2) (e : Expr)
    (name : TypeName) :
    ∃ carried : List (Replacement × Extract), carried.map (·.1) = entries.map (·.1) ∧
      e.carry name (entries.map (·.2)) = carried.map (·.2) ∧
      ∀ entry ∈ carried, Documents options enclosing entry.1 entry.2 := by
  cases e with
  | anonymousClass closure =>
    refine ⟨entries.map fun entry =>
      (entry.1, entry.2.rename (closure.name.replace name)), ?_, ?_, ?_⟩
    · simp
    · simp [Expr.carry]
    · intro entry member
      obtain ⟨before, inside, rfl⟩ := List.mem_map.mp member
      exact (documented before inside).rename closure.name name
  | _ => exact ⟨entries, rfl, rfl, documented⟩

theorem enter_enclosing {n : Node} (inner : ∀ c, n ≠ .cls c) (site : Site) :
    (n.enter site).enclosing = site.enclosing := by
  cases n with
  | cls c => exact absurd rfl (inner c)
  | expr e => cases e <;> rfl
  | _ => rfl

theorem converts_replaced {options : LiftOptions} {site : Site} {ns ns' : List Node}
    {xs : List Extract} {t t' : ScopeTable} (converts : Converts options site ns t ns' xs t')
    (inner : ∀ n ∈ ns, ∀ c, n ≠ .cls c) :
    ∃ entries : List (Replacement × Extract), Replaced ns ns' (entries.map (·.1)) ∧
      xs = entries.map (·.2) ∧
      ∀ entry ∈ entries, Documents options site.enclosing entry.1 entry.2 := by
  induction converts with
  | nil site t => exact ⟨[], .nil, rfl, by simp⟩
  | cons head tail ihHead ihTail =>
    obtain ⟨here, inner⟩ := List.forall_mem_cons.mp inner
    obtain ⟨first, replaced, rfl, documented⟩ := ihHead (by simpa using here)
    obtain ⟨later, replacedLater, rfl, documentedLater⟩ := ihTail inner
    refine ⟨first ++ later, ?_, (List.map_append ..).symm, ?_⟩
    · rw [List.map_append]
      exact .cons replaced replacedLater
    · exact List.forall_mem_append.mpr ⟨documented, documentedLater⟩
  | @part site n n' _ _ _ plain alike under ih =>
    obtain ⟨entries, replaced, rfl, documented⟩ := ih fun _ => Node.children_inner
    rw [enter_enclosing (inner n List.mem_cons_self)] at documented
    exact ⟨entries, .part plain alike replaced, rfl, documented⟩
  | @closure site e e' _ shape values params _ t₁ t₂ t₃ alike under sketch mint ih =>
    obtain ⟨entries, replaced, rfl, documented⟩ := ih fun _ => Node.children_inner (n := .expr e)
    rw [enter_enclosing (by simp)] at documented
    obtain ⟨carried, same, moved, stillDocumented⟩ :=
      carried_documented documented e shape.name
    have literal : (Node.expr e).isClosure = true := by
      rw [← Node.alike_isClosure alike]
      exact sketch.literal
    let made := shape.outcome (shape.slots values options) params
    let last : Replacement := ⟨e, e', made.type, made.slots.map (·.capture.argument)⟩
    refine ⟨carried ++ [(last, made.extract e site)], ?_, ?_, ?_⟩
    · rw [List.map_append, same]
      exact .closure (r := last) literal alike replaced
    · rw [List.map_append, moved]
      rfl
    · rw [List.forall_mem_append, List.forall_mem_singleton]
      refine ⟨stillDocumented, made, ⟨site, t₁, t₃, [], rfl, ?_, rfl, rfl⟩, rfl⟩
      exact sketch.lifts (converted_closure_free under) mint

theorem converts_cons_inv {options : LiftOptions} {site : Site} {n : Node} {ns out : List Node}
    {xs : List Extract} {t t' : ScopeTable}
    (converts : Converts options site (n :: ns) t out xs t') :
    ∃ n' ns' first later t₁, out = n' :: ns' ∧ xs = first ++ later ∧
      Converts options site [n] t [n'] first t₁ ∧ Converts options site ns t₁ ns' later t' := by
  cases converts with
  | cons head tail => exact ⟨_, _, _, _, _, rfl, rfl, head, tail⟩
  | part plain alike under =>
    exact ⟨_, _, _, _, _, rfl, (List.append_nil _).symm, .part plain alike under, .nil _ _⟩
  | closure alike under sketch mint =>
    exact ⟨_, _, _, _, _, rfl, (List.append_nil _).symm, .closure alike under sketch mint, .nil _ _⟩

theorem converts_part_inv {options : LiftOptions} {site : Site} {n n' : Node} {xs : List Extract}
    {t t' : ScopeTable} (plain : n.isClosure = false)
    (converts : Converts options site [n] t [n'] xs t') :
    n'.bare = n.bare ∧ Converts options (n.enter site) n.children t n'.children xs t' := by
  generalize before : [n] = ns at converts
  generalize after : [n'] = ns' at converts
  induction converts with
  | nil site t => cases before
  | cons head tail ihHead ihTail =>
    cases before
    cases after
    cases tail
    rw [List.append_nil]
    exact ihHead rfl rfl
  | part _ alike under ih =>
    cases before
    cases after
    exact ⟨alike, under⟩
  | closure alike under sketch mint ih =>
    cases before
    have literal := sketch.literal
    have same := Node.alike_isClosure alike
    rw [plain, Node.isClosure, literal] at same
    cases same

theorem classes_replaced {options : LiftOptions} {site : Site} {cs ks : List Class}
    {xs : List Extract} {t t' : ScopeTable}
    (converts : Converts options site (cs.map .cls) t (ks.map .cls) xs t') :
    ∃ entries : List (Replacement × Extract),
      Replaced (cs.map .cls) (ks.map .cls) (entries.map (·.1)) ∧ xs = entries.map (·.2) ∧
      List.Forall₂ (fun (source : Class × Expr) entry =>
        entry.1.literal = source.2 ∧ Documents options source.1.name entry.1 entry.2)
        (cs.flatMap fun c => c.closures.map (c, ·)) entries := by
  induction cs generalizing ks xs t with
  | nil =>
    generalize after : ks.map Node.cls = out at converts
    cases converts
    exact ⟨[], .nil, rfl, .nil⟩
  | cons c rest ih =>
    obtain ⟨n', ns', first, later, t₁, out, rfl, head, tail⟩ := converts_cons_inv converts
    obtain ⟨k, others, rfl, rfl, rfl⟩ := List.map_eq_cons_iff.mp out
    obtain ⟨alike, under⟩ := converts_part_inv rfl head
    obtain ⟨here, replaced, rfl, documented⟩ := converts_replaced under fun _ => Node.children_inner
    obtain ⟨there, replacedThere, rfl, sources⟩ := ih tail
    have one : Replaced [.cls c] [.cls k] (here.map (·.1)) := .part rfl alike replaced
    have literals : c.closures = here.map (·.1.literal) := by
      have listed := replaced_literals one
      rw [List.flatMap_singleton, List.map_map] at listed
      exact listed.symm
    refine ⟨here ++ there, ?_, (List.map_append ..).symm, ?_⟩
    · rw [List.map_append]
      exact .cons one replacedThere
    · rw [List.flatMap_cons]
      refine List.rel_append ?_ sources
      rw [literals, List.map_map, List.forall₂_map_left_iff, List.forall₂_same]
      exact fun entry member => ⟨rfl, documented entry member⟩

end ClosureLift
