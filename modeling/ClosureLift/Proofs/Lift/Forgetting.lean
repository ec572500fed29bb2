import ClosureLift.Proofs.Lift.Account
import ClosureLift.Proofs.Program.Mentions
import ClosureLift.Proofs.Program.TypeParameters

/-!
The name under which the front end filed an anonymous class is gone from what was lifted out of the
class: from the class itself, and from the classes of the closures inside it, which were lifted
before the class got its name and are renamed afterwards. A later renaming brings no such name back,
for the names that are minted differ from all those that the front end gave.
-/
namespace ClosureLift

open Node (introduced mentioned)

theorem free_type_parameter_mentioned {ns : List Node} {p : TypeParameter}
    (free : p ∈ freeTypeParameters ns) : p.declaration ∈ mentioned ns := by
  obtain ⟨n, walked, used⟩ := (Node.mem_gathered _).mp (mem_free_type_parameters.mp free).1
  obtain ⟨ty, here, inside⟩ := List.mem_flatMap.mp used
  apply Node.mem_mentioned.mpr
  exact ⟨n, walked, Node.types_mentioned here (ty.declaration_mentioned inside)⟩

namespace Shape

variable (shape : Shape)

theorem slot_type_mentioned {options : LiftOptions} {slot : Slot}
    (member : slot ∈ shape.slots [] options) :
    slot.capture.ty.mentions ⊆ mentioned shape.nodes := by
  obtain ⟨ref, free, captured⟩ := shape.slot_of_free_reference member
  have read := (free_reference_occurs free).1
  intro name inside
  apply Node.mem_mentioned.mpr
  refine ⟨_, read, ?_⟩
  rw [captured] at inside
  cases ref with
  | «variable» decl => exact inside
  | this owner => exact inside

theorem storing_mentions {names : List TypeName} {slots : List Slot} {params : List Variable}
    (held : ∀ slot ∈ slots, slot.capture.ty.mentions ⊆ names)
    (given : ∀ x ∈ params, x.ty.mentions ⊆ names) :
    mentioned ((shape.storing slots params).map .stmt) ⊆ shape.name :: names := by
  induction slots generalizing params with
  | nil => simp [storing]
  | cons slot rest ih =>
    cases params with
    | nil => simp [storing]
    | cons x xs =>
      obtain ⟨here, later⟩ := List.forall_mem_cons.mp held
      obtain ⟨first, others⟩ := List.forall_mem_cons.mp given
      have store : mentioned [.stmt (.expr (.assign (slot.access shape.name) (.var x)))] =
          slot.capture.ty.mentions ++ shape.name :: x.ty.mentions := by
        simp [Node.mentioned_cons, Node.children, Node.ofStmt, Node.ofExpr, Node.mentions,
          Node.ofExprMentions, Slot.access, Expr.this, Expr.var]
      intro name inside
      rw [storing, List.zipWith_cons_cons, List.map_cons, ← List.singleton_append,
        Node.mentioned_append, store, List.mem_append, List.mem_append, List.mem_cons] at inside
      rcases inside with (stored | own | passed) | rest
      · exact List.mem_cons_of_mem _ (here stored)
      · rw [own]
        exact List.mem_cons_self
      · exact List.mem_cons_of_mem _ (first passed)
      · exact ih later others rest

theorem rewritten_mentions {slots : List Slot} (free : Node.ClosureFree (shape.methods.map .method))
    (held : ∀ slot ∈ slots, slot.capture.ty.mentions ⊆ mentioned shape.nodes) :
    mentioned ((shape.rewritten slots).map .method) ⊆ shape.name :: mentioned shape.nodes := by
  intro name inside
  rcases shape.rewritten_says Node.mentions_bare free inside with before | ⟨slot, inSlots, read⟩
  · rw [nodes, Node.mentioned_append]
    exact List.mem_cons_of_mem _ (List.mem_append_right _ before)
  · rcases read with typed | own
    · exact List.mem_cons_of_mem _ (held slot inSlots typed)
    · rw [List.mem_singleton.mp own]
      exact List.mem_cons_self

theorem outcome_mentions {options : LiftOptions} {scope : Identifier} {t t' : ScopeTable}
    {params : List Variable} (free : Node.ClosureFree (shape.methods.map .method))
    (mint : (mintParams scope (shape.slots [] options)).run t = (params, t')) :
    { (shape.outcome (shape.slots [] options) params).cls with superTypes := [] }.mentions ⊆
      shape.name :: mentioned shape.nodes := by
  have held : ∀ slot ∈ shape.slots [] options, slot.capture.ty.mentions ⊆ mentioned shape.nodes :=
    fun slot => shape.slot_type_mentioned
  have types := mint_params_types scope (shape.slots [] options) t
  rw [mint] at types
  have given : ∀ x ∈ params, x.ty.mentions ⊆ mentioned shape.nodes := by
    intro x member
    have typed : x.ty ∈ (shape.slots [] options).map (·.capture.ty) := by
      rw [← types]
      exact List.mem_map_of_mem member
    obtain ⟨slot, inSlots, same⟩ := List.mem_map.mp typed
    rw [← same]
    exact held slot inSlots
  generalize shape.slots [] options = slots at held given
  intro name inside
  rw [Class.mentions, Node.mentioned_one, List.mem_append] at inside
  rcases inside with header | body
  · simp only [Node.mentions, outcome, List.append_nil, List.mem_cons] at header
    rcases header with own | declared
    · rw [own]
      exact List.mem_cons_self
    · obtain ⟨p, bound, rfl⟩ := List.mem_map.mp declared
      exact List.mem_cons_of_mem _ (free_type_parameter_mentioned bound)
  · simp only [Node.children, outcome, Node.mentioned_append, List.map_append, Node.mentioned_cons,
      List.mem_append] at body
    rcases body with (own | stored) | parameters | storing | methods
    · refine List.mem_cons_of_mem _ ?_
      rw [nodes, Node.mentioned_append]
      exact List.mem_append_left _ own
    · obtain ⟨n, walked, here⟩ := Node.mem_mentioned.mp stored
      rw [Node.field_list_walk] at walked
      obtain ⟨f, among, rfl⟩ := List.mem_map.mp walked
      obtain ⟨slot, inSlots, rfl⟩ := List.mem_map.mp among
      exact List.mem_cons_of_mem _ (held slot inSlots here)
    · obtain ⟨ty, written, inside⟩ := Ty.mem_mentions_all.mp parameters
      obtain ⟨x, member, rfl⟩ := List.mem_map.mp written
      exact List.mem_cons_of_mem _ (given x member inside)
    · exact shape.storing_mentions held given storing
    · exact shape.rewritten_mentions free held methods

theorem anonymous_name_gone {closure : AnonymousClass} {name : TypeName} {options : LiftOptions}
    {scope : Identifier} {t t' : ScopeTable} {params : List Variable}
    (free : Node.ClosureFree ((closure.shape name).methods.map .method))
    (other : name ≠ closure.name)
    (mint : (mintParams scope ((closure.shape name).slots [] options)).run t = (params, t')) :
    closure.name ∉ { ((closure.shape name).outcome ((closure.shape name).slots [] options)
      params).cls with superTypes := [] }.mentions := by
  intro member
  have renamed : (closure.shape name).nodes =
      (closure.fields.map Node.field ++ closure.methods.map Node.method).map
        (Node.rename (closure.name.replace name)) := by
    simp only [nodes, AnonymousClass.shape, method_list_rename, List.map_append, List.map_map]
    rfl
  rcases List.mem_cons.mp ((closure.shape name).outcome_mentions free mint member) with own | kept
  · exact other own.symm
  · rw [renamed, Node.mentioned_rename] at kept
    exact replaced_name_gone other _ kept

end Shape

/-- Literals with the classes made from them, in post-order: the literals inside an anonymous class
come right before it, and neither their classes nor its own mention the name that it had. The
supertypes of the anonymous class are kept as they are written. -/
def Forgets (entries : List (Expr × Class)) : Prop :=
  ∀ before closure made after, entries = before ++ (.anonymousClass closure, made) :: after →
    closure.name ∉ { made with superTypes := [] }.mentions ∧
    ∃ earlier inside, before = earlier ++ inside ∧ inside.map (·.1) = closure.inner ∧
      ∀ entry ∈ inside, closure.name ∉ entry.2.mentions

namespace Forgets

theorem append {first later : List (Expr × Class)} (here : Forgets first) (there : Forgets later) :
    Forgets (first ++ later) := by
  intro before closure made after split
  rcases List.append_eq_append_iff.mp split with ⟨more, rfl, rest⟩ | ⟨more, rfl, rest⟩
  · obtain ⟨own, earlier, inside, rfl, literals, gone⟩ := there _ _ _ _ rest
    exact ⟨own, first ++ earlier, inside, by rw [List.append_assoc], literals, gone⟩
  · cases more with
    | nil =>
      obtain ⟨own, earlier, inside, same, literals, gone⟩ := there [] _ _ _ rest.symm
      obtain ⟨rfl, rfl⟩ := List.nil_eq_append_iff.mp same
      exact ⟨own, before, [], by simp, literals, gone⟩
    | cons entry others =>
      obtain ⟨rfl, rfl⟩ := List.cons.inj rest
      exact here _ _ _ _ rfl

theorem rename {entries : List (Expr × Class)} (forgets : Forgets entries)
    (source target : TypeName)
    (other : ∀ closure made, (.anonymousClass closure, made) ∈ entries → target ≠ closure.name) :
    Forgets (entries.map fun entry => (entry.1, entry.2.rename (source.replace target))) := by
  intro before closure made after split
  obtain ⟨earlier, rest, rfl, rfl, later⟩ := List.map_eq_append_iff.mp split
  obtain ⟨entry, others, rfl, same, rfl⟩ := List.map_eq_cons_iff.mp later
  obtain ⟨literal, cls⟩ := entry
  obtain ⟨rfl, rfl⟩ := Prod.mk.inj same
  have different := other closure cls (by simp)
  obtain ⟨own, outside, inside, rfl, literals, gone⟩ := forgets _ _ _ _ rfl
  refine ⟨?_, outside.map _, inside.map _, List.map_append, ?_, ?_⟩
  · have absent : closure.name ∉
        { cls with superTypes := [] }.mentions.map (source.replace target) :=
      replacement_adds_nothing own different
    rw [← Class.mentions_rename] at absent
    exact absent
  · rw [List.map_map, ← literals]
    rfl
  · intro entry member
    obtain ⟨old, among, rfl⟩ := List.mem_map.mp member
    rw [Class.mentions_rename]
    exact replacement_adds_nothing (gone old among) different

theorem nil : Forgets [] := by
  intro before closure made after split
  simp at split

theorem snoc {inside : List (Expr × Class)} {closure : AnonymousClass} {made : Class}
    (forgets : Forgets inside) (literals : inside.map (·.1) = closure.inner)
    (own : closure.name ∉ { made with superTypes := [] }.mentions)
    (gone : ∀ entry ∈ inside, closure.name ∉ entry.2.mentions) :
    Forgets (inside ++ [(.anonymousClass closure, made)]) := by
  intro before other cls after split
  rcases List.append_eq_append_iff.mp split with ⟨more, rfl, rest⟩ | ⟨more, rfl, rest⟩
  · cases more with
    | nil =>
      obtain ⟨same, _⟩ := List.cons.inj rest
      cases same
      exact ⟨own, [], inside, by simp, literals, gone⟩
    | cons entry others => simp at rest
  · cases more with
    | nil =>
      obtain ⟨same, _⟩ := List.cons.inj rest
      cases same
      exact ⟨own, [], _, rfl, by simpa using literals, by simpa using gone⟩
    | cons entry others =>
      obtain ⟨rfl, rfl⟩ := List.cons.inj rest
      exact forgets _ _ _ _ rfl

theorem plain {e : Expr} (other : ∀ closure, e ≠ .anonymousClass closure) (made : Class) :
    Forgets [(e, made)] := by
  intro before closure cls after split
  have member : (.anonymousClass closure, cls) ∈ [(e, made)] := by
    rw [split]
    simp
  have same := List.mem_singleton.mp member
  exact absurd (Prod.mk.inj same).1.symm (other closure)

end Forgets

section

variable {options : LiftOptions} {site : Site} {ns ns' : List Node} {xs : List Extract}
  {t t' : ScopeTable}

theorem anonymous_class_introduced {closure : AnonymousClass}
    (member : .anonymousClass closure ∈ ns.flatMap Node.closures) :
    Identifier.top.type closure.name ∈ introduced ns := by
  obtain ⟨n, among, inside⟩ := List.mem_flatMap.mp member
  have walked := (Node.mem_closures.mp inside).1
  apply List.mem_flatMap.mpr
  exact ⟨_, Node.mem_preorderAll.mpr ⟨n, among, walked⟩, List.mem_singleton_self _⟩

theorem lifted_forgets {e e' : Expr} {inner : List Extract} {shape : Shape}
    {values : List (Variable × Expr)} {params : List Variable} {t₁ t₂ : ScopeTable}
    {entries : List (Expr × Class)} (alike : (Node.expr e').bare = (Node.expr e).bare)
    (sketch : Sketched site e' t shape values t₁)
    (free : Node.ClosureFree (shape.methods.map .method))
    (mint : (Shape.mintParams (site.scope.type shape.name).constructor
      (shape.slots values options)).run t₁ = (params, t₂))
    (literals : entries.map (·.1) = (Node.ofExpr e).flatMap Node.closures)
    (classes : entries.map (·.2) = inner.map (·.cls)) (forgets : Forgets entries)
    (other : ∀ closure, .anonymousClass closure ∈ (Node.expr e).closures →
      shape.name ≠ closure.name) :
    ∃ more : List (Expr × Class), more.map (·.1) = (Node.expr e).closures ∧
      more.map (·.2) = (e.carry shape.name inner ++
        [(shape.outcome (shape.slots values options) params).extract e site]).map (·.cls) ∧
      Forgets more := by
  have literal : e.isClosure = true := by
    have same := Node.alike_isClosure alike
    rw [Node.isClosure, Node.isClosure, sketch.literal] at same
    exact same.symm
  have all : (Node.expr e).closures = entries.map (·.1) ++ [e] := by
    rw [Node.closures_eq, Node.literal_eq_some.mpr ⟨rfl, literal⟩, literals]
    rfl
  by_cases anonymous : ∃ closure, e = .anonymousClass closure
  · obtain ⟨closure, rfl⟩ := anonymous
    have inside : entries.map (·.1) = closure.inner := List.append_cancel_right all.symm
    have new := other closure (by rw [all]; simp)
    cases sketch with
    | @anonymousClass opened _ _ name fresh =>
      have same : opened.name = closure.name :=
        (AnonymousClass.mk.inj (Expr.anonymousClass.inj (Node.expr.inj alike))).1
      have own := Shape.anonymous_name_gone free (by rw [same]; exact new) mint
      rw [same] at own
      have renamed := forgets.rename closure.name name <| by
        intro nested made member
        apply other nested
        rw [all, List.mem_append]
        exact Or.inl (List.mem_map_of_mem member)
      refine ⟨_, ?_, ?_, renamed.snoc (by rw [List.map_map]; exact inside) own ?_⟩
      · rw [List.map_append, List.map_map, all]
        rfl
      · have each := congrArg (List.map (Class.rename (closure.name.replace name))) classes
        rw [List.map_map, List.map_map] at each
        rw [List.map_append, List.map_append, List.map_map, Expr.carry, List.map_map]
        exact congrArg (· ++ _) each
      · intro entry member
        obtain ⟨old, _, rfl⟩ := List.mem_map.mp member
        rw [Class.mentions_rename]
        exact replaced_name_gone new _
    | lambda named fresh => cases alike
    | methodReference named fresh arguments forward => cases alike
  · have carried : e.carry shape.name inner = inner := by
      cases e with
      | anonymousClass closure => exact absurd ⟨closure, rfl⟩ anonymous
      | _ => rfl
    refine ⟨entries ++ [(e, (shape.outcome (shape.slots values options) params).cls)], ?_, ?_,
      forgets.append (.plain (not_exists.mp anonymous) _)⟩
    · rw [List.map_append, all]
      rfl
    · rw [carried, List.map_append, List.map_append, classes]
      rfl

theorem converts_forgets (converts : Converts options site ns t ns' xs t')
    (known : t.Knows ns) :
    ∃ entries : List (Expr × Class), entries.map (·.1) = ns.flatMap Node.closures ∧
      entries.map (·.2) = xs.map (·.cls) ∧ Forgets entries := by
  induction converts with
  | nil site t => exact ⟨[], rfl, rfl, .nil⟩
  | @cons _ n n' ns ns' first later t t₁ _ head tail ihHead ihTail =>
    obtain ⟨here, there⟩ := known.cons
    obtain ⟨ids, minted, _, _⟩ := converts_accounts head here
    obtain ⟨entries, literals, classes, forgets⟩ := ihHead here
    obtain ⟨others, literals', classes', forgets'⟩ := ihTail (there.grown minted)
    refine ⟨entries ++ others, ?_, ?_, forgets.append forgets'⟩
    · rw [List.map_append, literals, literals', List.flatMap_singleton, List.flatMap_cons]
    · rw [List.map_append, classes, classes', List.map_append]
  | @part _ n n' _ _ _ plain alike under ih =>
    obtain ⟨entries, literals, classes, forgets⟩ := ih known.children
    refine ⟨entries, ?_, classes, forgets⟩
    have none : n.literal? = none := by
      rw [Option.eq_none_iff_forall_ne_some]
      intro e some
      obtain ⟨rfl, literal⟩ := Node.literal_eq_some.mp some
      rw [Node.isClosure, literal] at plain
      cases plain
    rw [literals, List.flatMap_singleton, Node.closures_eq n, none, Option.toList_none,
      List.append_nil]
  | @closure site e e' inner shape values params t t₁ t₂ t₃ alike under sketch mint ih =>
    have below : t.Knows (Node.ofExpr e) := known.children
    obtain ⟨entries, literals, classes, forgets⟩ := ih below
    obtain ⟨ids, minted, _, _⟩ := converts_accounts under below
    obtain ⟨extra, sketched, _⟩ := sketch.accounts
    rw [List.flatMap_singleton]
    apply lifted_forgets alike sketch (sketch.closure_free (converted_closure_free under)) mint
      literals classes forgets
    intro closure member same
    -- The front end's names were in the table before the new name was minted.
    have old := known _ (anonymous_class_introduced (by simpa using member))
    have new := sketched.new (Identifier.top.type shape.name) List.mem_cons_self
    rw [same, minted.grows old] at new
    cases new

end

namespace Program

variable {program : Program} {options : LiftOptions} {c : Conversion}

theorem closure_literals (program : Program) :
    program.closures.map (·.2) = (program.classes.map .cls).flatMap Node.closures := by
  simp [closures, List.map_flatMap, List.flatMap_map, Node.closures, Function.comp_def]

/-- The classes after those of the program are made from its closures, one from each in post-order.
Take an anonymous class among the closures: those inside it come right before it, and the name that
the front end gave it is mentioned neither in the classes made from them nor in its own, the list of
supertypes apart. -/
theorem anonymous_names_forgotten (converted : program.convert options = .ok c) :
    ∃ (kept : List Class) (lifted : List (Replacement × Class)),
      c.program.classes = kept ++ lifted.map (·.2) ∧
      Replaced (program.classes.map .cls) (kept.map .cls) (lifted.map (·.1)) ∧
      List.Forall₂ (fun source entry => entry.1.literal = source.2 ∧
        ∃ made, entry.1.Makes options source.1.name made entry.2) program.closures lifted ∧
      ∀ before closure after,
        program.closures.map (·.2) = before ++ .anonymousClass closure :: after →
        ∃ earlier outside inside own rest, before = earlier ++ closure.inner ∧
          lifted.map (·.2) = outside ++ (inside ++ own :: rest) ∧
          outside.length = earlier.length ∧ inside.length = closure.inner.length ∧
          closure.name ∉ { own with superTypes := [] }.mentions ∧
          ∀ cls ∈ inside, closure.name ∉ cls.mentions := by
  obtain ⟨_, _, kept, extracts, t, t', minted, converts, rfl⟩ :=
    program.converts_of_convert options converted
  obtain ⟨entries, literals, classes, forgets⟩ := converts_forgets converts (.of_classes minted)
  obtain ⟨pairs, replaced, rfl, sources⟩ := classes_replaced converts
  rw [List.map_map] at classes
  refine ⟨kept, pairs.map fun pair => (pair.1, pair.2.cls), ?_, ?_, ?_, ?_⟩
  · simp only [List.map_map]
    rfl
  · rw [List.map_map]
    exact replaced
  · rw [List.forall₂_map_right_iff]
    apply sources.imp
    intro source pair documented
    obtain ⟨made, makes, _⟩ := documented.2
    exact ⟨documented.1, made, makes⟩
  · intro before closure after split
    rw [program.closure_literals, ← literals] at split
    obtain ⟨front, back, rfl, rfl, later⟩ := List.map_eq_append_iff.mp split
    obtain ⟨⟨literal, own⟩, others, rfl, same, rfl⟩ := List.map_eq_cons_iff.mp later
    cases same
    obtain ⟨gone, earlier, inside, rfl, inner, absent⟩ := forgets _ _ _ _ rfl
    refine ⟨earlier.map (·.1), earlier.map (·.2), inside.map (·.2), own, others.map (·.2),
      ?_, ?_, ?_, ?_, gone, ?_⟩
    · rw [List.map_append, inner]
    · rw [List.map_map]
      refine classes.symm.trans ?_
      simp
    · rw [List.length_map, List.length_map]
    · rw [← inner, List.length_map, List.length_map]
    · rw [List.forall_mem_map]
      exact absent

/-- In `nested` a method reference stands inside an anonymous class that was filed as `Main$1`, and
this one inside a lambda. -/
theorem nested_names_forgotten :
    ∃ (c : Conversion) (kept : List Class) (reference own function : Class),
      nested.convert .standard = .ok c ∧ c.program.classes = kept ++ [reference, own, function] ∧
      ⟨"Main$1"⟩ ∉ { own with superTypes := [] }.mentions ∧ ⟨"Main$1"⟩ ∉ reference.mentions := by
  have runs : (nested.convert .standard).isOk = true := by decide +kernel
  have filed : ∃ next closure outer,
      nested.closures.map (·.2) = [next] ++ .anonymousClass closure :: [outer] ∧
      closure.inner = [next] ∧ closure.name = ⟨"Main$1"⟩ := ⟨_, _, _, rfl, rfl, rfl⟩
  cases converted : nested.convert .standard with
  | error e =>
    rw [converted] at runs
    cases runs
  | ok c =>
    obtain ⟨kept, lifted, classes, _, sources, forgotten⟩ := anonymous_names_forgotten converted
    obtain ⟨next, closure, outer, split, inner, name⟩ := filed
    obtain ⟨earlier, outside, inside, own, rest, before, made, first, second, gone, absent⟩ :=
      forgotten _ _ _ split
    have count := sources.length_eq
    have lengths := congrArg List.length split
    have positions := congrArg List.length before
    have sizes := congrArg List.length made
    rw [inner] at second positions
    simp only [List.length_map, List.length_append, List.length_cons, List.length_nil] at *
    have none : outside = [] := List.length_eq_zero_iff.mp (by omega)
    obtain ⟨reference, rfl⟩ := List.length_eq_one_iff.mp second
    obtain ⟨function, rfl⟩ := List.length_eq_one_iff.mp (show rest.length = 1 by omega)
    rw [name] at gone absent
    rw [made, none] at classes
    exact ⟨c, kept, reference, own, function, rfl, classes, gone, absent _ List.mem_cons_self⟩

end Program

end ClosureLift
