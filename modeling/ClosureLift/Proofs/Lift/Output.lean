import Mathlib.Data.List.Nodup
import ClosureLift.Machine.Eval
import ClosureLift.Proofs.Lift.Outcome

/-!
What comes out of a conversion is a program that conversion accepts and has nothing left to do on.
The identifiers of the output are counted: each is an identifier of the input, used no more often
than there, or was minted on the way.
-/
namespace ClosureLift

namespace Node

def introduced (ns : List Node) : List Identifier := (preorderAll ns).flatMap introduces

@[simp]
theorem introduced_nil : introduced [] = [] := rfl

theorem introduced_append (ms ns : List Node) :
    introduced (ms ++ ns) = introduced ms ++ introduced ns := by
  rw [introduced, preorderAll_append, List.flatMap_append]
  rfl

theorem introduced_cons (n : Node) (ns : List Node) :
    introduced (n :: ns) = n.introduces ++ (introduced n.children ++ introduced ns) := by
  simp [introduced, preorderAll_cons, preorder_eq]

theorem introduced_one (n : Node) : introduced [n] = n.introduces ++ introduced n.children := by
  rw [introduced_cons, introduced_nil, List.append_nil]

theorem child_not_class {n : Node} {c : Class} : .cls c ∉ n.children := by
  cases n with
  | stmt s =>
    cases s with
    | ret value => cases value <;> simp [children, ofStmt]
    | _ => simp [children, ofStmt]
  | expr e =>
    cases e with
    | methodReference closure =>
      obtain ⟨_, _, _, _, target, _, _⟩ := closure
      cases target <;> simp [children, ofExpr]
    | _ => simp [children, ofExpr]
  | _ => simp [children]

theorem class_under {n : Node} {c : Class} (under : .cls c ∈ n.preorder) : n = .cls c := by
  induction n using by_children with
  | step n ih =>
    rw [preorder_eq, List.mem_cons, mem_preorderAll] at under
    rcases under with same | ⟨part, child, inside⟩
    · exact same.symm
    · rw [ih part child inside] at child
      exact absurd child child_not_class

theorem introduces_eq {n : Node} (inner : ∀ c, n ≠ .cls c) : n.introduces = n.declaredIds := by
  cases n with
  | cls c => exact absurd rfl (inner c)
  | _ => rfl

theorem class_introduced (c : Class) : introduced [.cls c] = c.declaredIds := by
  have own : c.nodes = .cls c :: preorderAll (Node.cls c).children := preorder_eq (.cls c)
  rw [introduced_one, Class.declaredIds, own, introduced, List.flatMap_cons]
  simp only [introduces, declaredIds, declares, List.map_nil, List.nil_append, List.cons_append,
    List.cons.injEq, true_and]
  apply List.flatMap_congr
  intro n member
  apply introduces_eq
  rintro d rfl
  obtain ⟨part, child, inside⟩ := mem_preorderAll.mp member
  rw [class_under inside] at child
  exact child_not_class child

theorem class_list_introduced (cs : List Class) :
    introduced (cs.map .cls) = cs.flatMap Class.declaredIds := by
  induction cs with
  | nil => rfl
  | cons c rest ih =>
    rw [List.map_cons, ← List.singleton_append, introduced_append, class_introduced, ih,
      List.flatMap_cons]

theorem introduced_rename (σ : TypeName → TypeName) (ns : List Node)
    (fixed : ∀ c, .cls c ∈ ns → σ c.name = c.name) :
    introduced (ns.map (rename σ)) = introduced ns := by
  rw [introduced, preorderAll_rename, List.flatMap_map]
  apply List.flatMap_congr
  intro n member
  cases n with
  | cls c =>
    obtain ⟨part, listed, inside⟩ := mem_preorderAll.mp member
    rw [class_under inside] at listed
    simp [rename, introduces, Class.rename, fixed c listed]
  | field f => rfl
  | constructor c => exact rename_declaredIds σ (.constructor c)
  | method m => exact rename_declaredIds σ (.method m)
  | stmt s => exact rename_declaredIds σ (.stmt s)
  | expr e => exact rename_declaredIds σ (.expr e)

theorem method_list_introduced_rename (σ : TypeName → TypeName) (methods : List Method) :
    introduced ((Method.renameAll σ methods).map .method) = introduced (methods.map .method) := by
  have renamed := introduced_rename σ (methods.map .method) (by simp)
  rw [List.map_map] at renamed
  rw [method_list_rename, List.map_map]
  exact renamed

theorem introduced_quiet {ns : List Node} (quiet : ∀ n ∈ preorderAll ns, n.introduces = []) :
    introduced ns = [] :=
  List.flatMap_eq_nil_iff.mpr quiet

theorem field_list_introduced (fs : List Field) : introduced (fs.map .field) = [] := by
  apply introduced_quiet
  intro n member
  rw [field_list_walk] at member
  obtain ⟨f, _, rfl⟩ := List.mem_map.mp member
  rfl

end Node

open Node (introduced)

theorem converts_closure_free {options : LiftOptions} {site : Site} {ns ns' : List Node}
    {xs : List Extract} {t t' : ScopeTable} (converts : Converts options site ns t ns' xs t')
    (free : Node.ClosureFree ns) : ns' = ns ∧ xs = [] := by
  induction converts with
  | nil site t => exact ⟨rfl, rfl⟩
  | cons head tail ihHead ihTail =>
    obtain ⟨plain, under, later⟩ := Node.closure_free_cons.mp free
    obtain ⟨same, none⟩ := ihHead (Node.closure_free_cons.mpr ⟨plain, under, Node.closure_free_nil⟩)
    obtain ⟨rest, noneLater⟩ := ihTail later
    rw [List.cons.inj same |>.1, rest, none, noneLater]
    exact ⟨rfl, rfl⟩
  | part _ alike under ih =>
    obtain ⟨same, none⟩ := ih (free.children List.mem_cons_self)
    rw [Node.alike_eq alike same]
    exact ⟨rfl, none⟩
  | @closure _ e e' _ _ _ _ _ _ _ _ alike under sketch mint ih =>
    have literal : (Node.expr e').isClosure = true := sketch.literal
    rw [Node.alike_isClosure alike, free.self List.mem_cons_self] at literal
    cases literal

theorem arguments_quiet (values : List (Variable × Expr)) (refs : List Reference)
    (other : ∀ ref ∈ refs, ∀ v ∈ values, v.1.id ≠ ref.key) :
    introduced (refs.map fun ref => .expr (Capture.ofReference values ref).argument) = [] := by
  apply Node.introduced_quiet
  intro n member
  obtain ⟨part, listed, inside⟩ := Node.mem_preorderAll.mp member
  obtain ⟨ref, among, rfl⟩ := List.mem_map.mp listed
  rcases Capture.argument_of_reference values ref with same | ⟨x, init, held, read, _⟩
  · rw [same] at inside
    rw [List.mem_singleton.mp inside]
    rfl
  · exact absurd read (other ref among _ held)

theorem arguments_introduce_value {x : Variable} {init : Expr} {refs : List Reference}
    (once : (refs.map Reference.key).Nodup) (id : Identifier) :
    (introduced (refs.map fun ref =>
      .expr (Capture.ofReference [(x, init)] ref).argument)).count id ≤
      (introduced [.expr init]).count id := by
  induction refs with
  | nil => simp
  | cons ref rest ih =>
    obtain ⟨absent, restOnce⟩ := List.nodup_cons.mp once
    rw [List.map_cons, ← List.singleton_append, Node.introduced_append, List.count_append]
    by_cases same : x.id = ref.key
    · rw [arguments_quiet _ rest]
      · rcases Capture.argument_of_reference [(x, init)] ref with plain | ⟨_, _, held, _, value⟩
        · rw [plain, Node.introduced_one]
          simp [Node.introduces, Node.declaredIds, Node.declares, Node.children, Node.ofExpr]
        · rw [List.mem_singleton, Prod.mk.injEq] at held
          rw [value, held.2]
          simp
      · intro later member v held again
        rw [List.mem_singleton.mp held] at again
        exact absent (same ▸ again ▸ List.mem_map_of_mem member)
    · have quiet := arguments_quiet [(x, init)] [ref] (by simpa using same)
      rw [List.map_singleton] at quiet
      rw [quiet]
      simpa using ih restOnce

def Shape.arguments (shape : Shape) (values : List (Variable × Expr)) : List Node :=
  (freeReferences shape.own shape.nodes).map fun ref =>
    .expr (Capture.ofReference values ref).argument

theorem construction_introduces (lifted : Lifted) :
    (Node.expr lifted.construction).introduces = [] := rfl

theorem construction_introduced (shape : Shape) (values : List (Variable × Expr))
    (options : LiftOptions) (params : List Variable) :
    introduced [.expr (shape.outcome (shape.slots values options) params).construction] =
      introduced (shape.arguments values) := by
  have captures := congrArg (List.map fun c => Node.expr c.argument)
    (shape.slot_captures values options)
  rw [List.map_map, List.map_map] at captures
  rw [Node.introduced_one, construction_introduces, List.nil_append, Node.children,
    construction_children]
  exact congrArg introduced captures

theorem outcome_introduced (shape : Shape) (slots : List Slot) (params : List Variable)
    (free : Node.ClosureFree (shape.methods.map .method)) :
    introduced [.cls (shape.outcome slots params).cls] =
      Identifier.top.type shape.name ::
        (params.map (·.id) ++ introduced (shape.methods.map .method)) := by
  have storing : introduced ((shape.storing slots params).map .stmt) = [] := by
    apply Node.introduced_quiet
    intro n member
    rw [← statement_list_walk] at member
    exact (shape.storing_part member).2.1
  have methods : introduced ((shape.rewritten slots).map .method) =
      introduced (shape.methods.map .method) :=
    shape.rewritten_walk slots Node.introduces (fun n => (Node.bare_same n).2.1) (fun _ => rfl)
      (fun _ _ _ => rfl) free
  simp only [Node.introduced_append, Node.introduced_cons, Node.children,
    Node.field_list_introduced, Shape.outcome, storing, methods]
  simp [Node.introduces, Node.declaredIds, Node.declares]

theorem MethodReference.call_accounts (closure : MethodReference) {scope : Identifier}
    {args : List Expr} {t t' : ScopeTable} {call : Expr} {values : List (Variable × Expr)}
    {refs : List Reference} (run : (closure.call scope args).run t = ((call, values), t'))
    (once : (refs.map Reference.key).Nodup) :
    ∃ ids, Minted t t' ids ∧ ∀ id,
      (introduced (refs.map fun ref => .expr (Capture.ofReference values ref).argument)).count id ≤
        (introduced (Node.ofExpr (.methodReference closure))).count id := by
  have passed : values = [] → ∀ id,
      (introduced (refs.map fun ref => .expr (Capture.ofReference values ref).argument)).count id ≤
        (introduced (Node.ofExpr (.methodReference closure))).count id := by
    rintro rfl id
    rw [arguments_quiet _ _ (by simp)]
    simp
  rcases closure.call_cases run with ⟨_, _, plain, rfl, _⟩ | ⟨_, _, plain, rfl, _⟩ |
    ⟨receiver, temporary, target, fresh, rfl, _⟩
  · exact ⟨[], .none t', passed plain⟩
  · exact ⟨[], .none t', passed plain⟩
  · have minted := t.fresh_temporary_minted scope receiver.ty
    rw [← fresh] at minted
    refine ⟨[temporary.id], minted, ?_⟩
    intro id
    simp only [Node.ofExpr, target]
    exact arguments_introduce_value once id

namespace Sketched

variable {site : Site} {e : Expr} {t t' : ScopeTable} {shape : Shape}
  {values : List (Variable × Expr)}

/-- What a closure introduces goes into the class or into the construction, never into both; what is
new in the class was minted. -/
theorem accounts (sketch : Sketched site e t shape values t') :
    ∃ ids, Minted t t' (Identifier.top.type shape.name :: ids) ∧ ∀ id,
      (introduced (shape.methods.map .method)).count id +
        (introduced (shape.arguments values)).count id ≤
      (introduced [.expr e]).count id + ids.count id := by
  cases sketch with
  | @lambda closure _ _ name named fresh =>
    have minted := t.fresh_class_name_minted site.enclosing
    rw [fresh] at minted
    refine ⟨[], minted, ?_⟩
    intro id
    have arguments : introduced ((closure.toBody.shape name).arguments []) = [] :=
      arguments_quiet _ _ (by simp)
    rw [arguments, Node.introduced_one (.expr _)]
    simp only [ClosureBody.shape, List.map_cons, List.map_nil, Node.introduced_one]
    simp [Node.introduces, Node.declaredIds, Node.declares, Node.children, Lambda.toBody,
      Node.ofExpr]
  | @methodReference closure _ t₁ _ _ name params call _ named fresh mint forward =>
    have minted := t.fresh_class_name_minted site.enclosing
    have parameters := MethodReference.mint_arguments_minted
      ((site.scope.type name).method closure.method) 0 closure.paramTypes t₁
    rw [fresh] at minted
    rw [mint] at parameters
    have body : introduced ((closure.forwarding call).map .stmt) = [] := by
      apply Node.introduced_quiet
      intro n member
      rw [← statement_list_walk] at member
      exact (forwarding_part forward member).2.1
    have methods : introduced (((closure.toBody params call).shape name).methods.map .method) =
        params.map (·.id) := by
      simp only [ClosureBody.shape, MethodReference.toBody, List.map_cons, List.map_nil,
        Node.introduced_one, Node.children, body]
      simp [Node.introduces, Node.declaredIds, Node.declares]
    obtain ⟨temporaries, fresh, arguments⟩ := closure.call_accounts forward
      (free_reference_keys_nodup none ((closure.toBody params call).shape name).nodes)
    refine ⟨params.map (·.id) ++ temporaries, (minted.trans parameters).trans fresh, ?_⟩
    intro id
    have receiver : (introduced (((closure.toBody params call).shape name).arguments values)).count
        id ≤ (introduced (Node.expr (.methodReference closure)).children).count id := arguments id
    rw [methods, Node.introduced_one (.expr _), List.count_append, List.count_append]
    omega
  | @anonymousClass closure _ _ name fresh =>
    have minted := t.fresh_class_name_minted site.enclosing
    rw [fresh] at minted
    refine ⟨[], minted, ?_⟩
    intro id
    have arguments : introduced ((closure.shape name).arguments []) = [] :=
      arguments_quiet _ _ (by simp)
    rw [arguments, Node.introduced_one (.expr _)]
    simp only [AnonymousClass.shape, Node.method_list_introduced_rename, Node.children, Node.ofExpr,
      Node.introduced_append, Node.field_list_introduced, List.count_append]
    simp

end Sketched

theorem carried_introduced (e : Expr) (name : TypeName) (inner : List Extract)
    (other : ∀ x ∈ inner, Identifier.top.type x.cls.name ∉ (Node.expr e).introduces) :
    (e.carry name inner).map (·.cls.name) = inner.map (·.cls.name) ∧
      introduced ((e.carry name inner).map fun x => .cls x.cls) =
        introduced (inner.map fun x => .cls x.cls) := by
  cases e with
  | anonymousClass closure =>
    have fixed : ∀ x ∈ inner, closure.name.replace name x.cls.name = x.cls.name := by
      intro x member
      have different := other x member
      simp only [Node.introduces, Node.declaredIds, List.mem_singleton] at different
      rw [TypeName.replace, if_neg]
      intro same
      rw [same] at different
      exact different rfl
    simp only [Expr.carry, List.map_map]
    constructor
    · apply List.map_congr_left
      exact fixed
    · have renamed := Node.introduced_rename (closure.name.replace name)
        (inner.map fun x => .cls x.cls) (by simpa using fixed)
      rw [List.map_map] at renamed
      exact renamed
  | _ => exact ⟨rfl, rfl⟩

def ScopeTable.Knows (t : ScopeTable) (ns : List Node) : Prop :=
  ∀ id ∈ introduced ns, t.contains id = true

namespace ScopeTable.Knows

variable {t t' : ScopeTable} {n : Node} {ns : List Node} {ids : List Identifier} {id : Identifier}

theorem cons (known : t.Knows (n :: ns)) : t.Knows [n] ∧ t.Knows ns := by
  simp only [Knows, Node.introduced_one]
  simp only [Knows, Node.introduced_cons, List.mem_append] at known
  constructor
  · intro id member
    exact known id ((List.mem_append.mp member).imp_right Or.inl)
  · intro id member
    exact known id (Or.inr (Or.inr member))

theorem children (known : t.Knows [n]) : t.Knows n.children := by
  intro id member
  apply known
  rw [Node.introduced_one]
  exact List.mem_append_right _ member

theorem grown (known : t.Knows ns) (minted : Minted t t' ids) : t'.Knows ns :=
  fun id member => minted.grows (known id member)

theorem apart (known : t.Knows [n]) (minted : Minted t t' ids) (new : id ∈ ids) :
    id ∉ n.introduces := by
  intro own
  have old : t.contains id = true := by
    apply known
    rw [Node.introduced_one]
    exact List.mem_append_left _ own
  rw [minted.new id new] at old
  cases old

theorem of_classes {classes : List Class} (minted : Minted t t' (classes.flatMap (·.declaredIds))) :
    t'.Knows (classes.map .cls) := by
  intro id member
  rw [Node.class_list_introduced] at member
  exact (minted.taken id).mpr (Or.inr member)

end ScopeTable.Knows

/-- The identifiers of converted parts and of what was lifted out of them are those of the parts,
none more often than before, and the minted ones. -/
theorem converts_accounts {options : LiftOptions} {site : Site} {ns ns' : List Node}
    {xs : List Extract} {t t' : ScopeTable} (converts : Converts options site ns t ns' xs t')
    (known : t.Knows ns) :
    ∃ ids, Minted t t' ids ∧ (∀ x ∈ xs, Identifier.top.type x.cls.name ∈ ids) ∧ ∀ id,
      (introduced ns').count id + (introduced (xs.map fun x => .cls x.cls)).count id ≤
        (introduced ns).count id + ids.count id := by
  -- A count, not a list: conversion moves declarations from the tree into classes, where they
  -- stand in another order.
  induction converts with
  | nil site t => exact ⟨[], .none t, by simp, by simp⟩
  | @cons _ n n' ns ns' first later _ _ _ head tail ihHead ihTail =>
    obtain ⟨ids, minted, named, counted⟩ := ihHead known.cons.1
    obtain ⟨more, mintedLater, namedLater, countedLater⟩ := ihTail (known.cons.2.grown minted)
    refine ⟨ids ++ more, minted.trans mintedLater, ?_, ?_⟩
    · intro x member
      rw [List.mem_append] at member ⊢
      exact member.imp (named x) (namedLater x)
    · intro id
      have here := counted id
      have there := countedLater id
      simp only [Node.introduced_one] at here
      simp only [Node.introduced_cons n, Node.introduced_cons n', List.map_append,
        Node.introduced_append, List.count_append] at here ⊢
      omega
  | @part _ n n' inner _ _ plain alike under ih =>
    obtain ⟨ids, minted, named, counted⟩ := ih known.children
    refine ⟨ids, minted, named, ?_⟩
    intro id
    have here := counted id
    simp only [Node.introduced_one, Node.alike_introduces alike, List.count_append]
    omega
  | @closure site e e' inner shape values params _ t₁ t₂ t₃ alike under sketch mint ih =>
    obtain ⟨ids, minted, named, counted⟩ := ih known.children
    obtain ⟨extra, sketched, moved⟩ := sketch.accounts
    have parameters := (Shape.mint_params_minted (site.scope.type shape.name).constructor
      (shape.slots values options) t₂).1
    rw [mint] at parameters
    -- The renaming of a closure's name cannot meet a name that was minted under the closure.
    have kept := carried_introduced e shape.name inner fun x member =>
      known.apart minted (named x member)
    refine ⟨_, (minted.trans sketched).trans parameters, ?_, ?_⟩
    · intro x member
      rw [List.mem_append] at member
      rcases member with carried | last
      · have among : x.cls.name ∈ (e.carry shape.name inner).map (·.cls.name) :=
          List.mem_map_of_mem carried
        rw [kept.1] at among
        obtain ⟨y, inside, same⟩ := List.mem_map.mp among
        rw [← same]
        simp [named y inside]
      · rw [List.mem_singleton.mp last]
        simp [Lifted.extract, Shape.outcome]
    · intro id
      have free := sketch.closure_free (converted_closure_free under)
      have here := counted id
      have there := moved id
      simp only [Node.introduced_one, Node.alike_introduces alike, List.count_append,
        Node.children] at there
      simp only [List.map_append, List.map_singleton, Node.introduced_append, kept.2,
        construction_introduced, Lifted.extract, outcome_introduced shape _ _ free,
        Node.introduced_one (.expr e), List.count_append, List.count_cons] at here ⊢
      simp only [Node.children] at here ⊢
      omega

theorem extracts_closure_free {options : LiftOptions} {site : Site} {ns ns' : List Node}
    {xs : List Extract} {t t' : ScopeTable} (converts : Converts options site ns t ns' xs t') :
    ∀ x ∈ xs, Node.ClosureFree [.cls x.cls] := by
  induction converts with
  | nil site t => simp
  | cons head tail ihHead ihTail =>
    intro x member
    exact (List.mem_append.mp member).elim (ihHead x) (ihTail x)
  | part plain alike under ih => exact ih
  | @closure site e e' inner shape values params _ _ _ _ alike under sketch mint ih =>
    intro x member
    rcases List.mem_append.mp member with carried | last
    · cases e with
      | anonymousClass closure =>
        obtain ⟨y, inside, rfl⟩ := List.mem_map.mp carried
        exact Node.closure_free_rename (closure.name.replace shape.name) (ih y inside)
      | _ => exact ih x carried
    · rw [List.mem_singleton.mp last]
      exact outcome_closure_free _ _ (sketch.closure_free (converted_closure_free under))

namespace Program

variable {program : Program} {options : LiftOptions} {c : Conversion}

theorem converted_declares_once (converted : program.convert options = .ok c) :
    c.program.declaredIds.Nodup := by
  obtain ⟨_, _, classes, extracts, t, t', minted, converts, rfl⟩ :=
    program.converts_of_convert options converted
  have source : introduced (program.classes.map .cls) = program.declaredIds :=
    Node.class_list_introduced _
  obtain ⟨ids, more, _, counted⟩ := converts_accounts converts (.of_classes minted)
  have output : introduced (classes.map .cls) ++ introduced (extracts.map fun x => .cls x.cls) =
      ({ program with classes := classes ++ extracts.map (·.cls) } : Program).declaredIds := by
    rw [Node.class_list_introduced, declaredIds, List.flatMap_append, ← Node.class_list_introduced
      (extracts.map _), List.map_map]
    rfl
  rw [← output, List.nodup_iff_count_le_one]
  intro id
  have once := List.nodup_iff_count_le_one.mp (minted.trans more).distinct id
  have bound := counted id
  rw [source] at bound
  rw [List.count_append] at once ⊢
  omega

theorem converted_without_closures (converted : program.convert options = .ok c) :
    Node.ClosureFree (c.program.classes.map .cls) := by
  obtain ⟨_, _, classes, extracts, t, t', minted, converts, rfl⟩ :=
    program.converts_of_convert options converted
  rw [List.map_append, Node.closure_free_append]
  refine ⟨converted_closure_free converts, ?_⟩
  intro n member
  obtain ⟨part, listed, inside⟩ := Node.mem_preorderAll.mp member
  rw [List.map_map] at listed
  obtain ⟨x, among, rfl⟩ := List.mem_map.mp listed
  exact extracts_closure_free converts x among n
    (Node.mem_preorderAll.mpr ⟨_, List.mem_singleton_self _, inside⟩)

theorem convert_closure_free (program : Program) (options : LiftOptions)
    (distinct : program.declaredIds.Nodup) (free : Node.ClosureFree (program.classes.map .cls)) :
    program.convert options = .ok ⟨program, []⟩ := by
  have none : program.closures.findSome? unnamedIn? = none := by
    rw [List.findSome?_eq_none_iff]
    rintro ⟨cls, e⟩ literal
    obtain ⟨member, inside, closure⟩ := program.mem_closures.mp literal
    have plain := free (.expr e)
      (Node.mem_preorderAll.mpr ⟨.cls cls, List.mem_map_of_mem member, inside⟩)
    rw [Node.isClosure, closure] at plain
    cases plain
  obtain ⟨t, _, outcome⟩ := program.convert_distinct options distinct
  rw [none] at outcome
  obtain ⟨classes, extracts, _, converts, result⟩ := outcome
  obtain ⟨same, rfl⟩ := converts_closure_free converts free
  have unchanged : classes = program.classes :=
    (List.map_inj_right fun _ _ same => Node.cls.inj same).mp same
  rw [result, unchanged, List.map_nil, List.append_nil]
  rfl

theorem class_names_nodup {classes : List Class}
    (distinct : (classes.flatMap Class.declaredIds).Nodup) :
    (classes.map (·.name)).Nodup := by
  have within : (classes.map fun cls => Identifier.top.type cls.name).Sublist
      (classes.flatMap Class.declaredIds) := by
    induction classes with
    | nil => exact .slnil
    | cons cls rest ih =>
      have later := ih (List.nodup_append.mp distinct).2.1
      exact (later.trans (List.sublist_append_right _ _)).cons_cons _
  have names : (classes.map fun cls => Identifier.top.type cls.name) =
      (classes.map (·.name)).map Identifier.top.type := by
    rw [List.map_map]
    rfl
  exact List.Nodup.of_map _ (names ▸ distinct.sublist within)

theorem runtime_class_eq_class (program : Program)
    (distinct : (program.classes.map (·.name)).Nodup) (name : TypeName) :
    program.runtimeClass name =
      match program.class? name with
      | some cls => .ok cls
      | none => .error (.unknownClass name) := by
  unfold runtimeClass class?
  cases last : program.classes.reverse.find? (·.name == name) with
  | none =>
    have absent : program.classes.find? (·.name == name) = none := by
      rw [List.find?_eq_none] at last ⊢
      intro cls member
      exact last cls (List.mem_reverse.mpr member)
    rw [absent]
  | some cls =>
    have member := List.mem_reverse.mp (List.mem_of_find?_eq_some last)
    have named := List.find?_some last
    cases first : program.classes.find? (·.name == name) with
    | none =>
      rw [List.find?_eq_none] at first
      exact absurd named (first cls member)
    | some other =>
      have same : cls = other := by
        apply List.inj_on_of_nodup_map distinct member (List.mem_of_find?_eq_some first)
        have also := List.find?_some first
        rw [beq_iff_eq] at named also
        rw [named, also]
      rw [same]

/-- Converting is done once and for all: the output is accepted, whatever the options, and comes out
as it is. -/
theorem conversion_idempotent (converted : program.convert options = .ok c) :
    (∀ others, c.program.convert others = .ok ⟨c.program, []⟩) ∧
    (∀ cls ∈ c.program.classes, ∀ e, .expr e ∈ cls.nodes → e.isClosure = false) ∧
    (c.program.classes.map (·.name)).Nodup ∧
    (∀ name, c.program.runtimeClass name =
      match c.program.class? name with
      | some cls => .ok cls
      | none => .error (.unknownClass name)) ∧
    c.program.declaredIds.Nodup := by
  have distinct := converted_declares_once converted
  have free := converted_without_closures converted
  have names := class_names_nodup distinct
  refine ⟨?_, ?_, names, c.program.runtime_class_eq_class names, distinct⟩
  · intro others
    exact c.program.convert_closure_free others distinct free
  · intro cls member e inside
    exact free (.expr e)
      (Node.mem_preorderAll.mpr ⟨.cls cls, List.mem_map_of_mem member, inside⟩)

/-- A method with a lambda in it, an anonymous class in that, and a method reference in that. -/
def nested : Program :=
  let x : Variable := ⟨((Identifier.top.type ⟨"Main"⟩).method "run").var "x", "x", .integer⟩
  let y : Variable := ⟨((Identifier.top.type ⟨"Main"⟩).method "run").var "y", "y", .integer⟩
  let receiver : Expr := .methodCall (.this ⟨"Main"⟩) "run" [.var x] [] (.scalar ⟨"Supplier"⟩)
  let next : Expr := .methodReference
    ⟨⟨"Supplier"⟩, "get", [], .integer, .instance receiver, "get", .dummy⟩
  let anonymous : Expr := .anonymousClass
    ⟨⟨"Main$1"⟩, [⟨"Supplier"⟩], [⟨"last", .integer, false⟩],
      [⟨"get", false, [], [], .integer,
        [.expr next, .expr (.assign (.fieldAccess (.this ⟨"Main$1"⟩) "last" .integer) (.var y)),
          .ret (some (.var x))]⟩], .dummy⟩
  let outer : Expr := .lambda
    ⟨⟨"Function"⟩, "apply", [y], .scalar ⟨"Supplier"⟩, [.ret (some anonymous)], .dummy⟩
  ⟨"nested", ⟨[]⟩,
    [⟨⟨"Main"⟩, [], [], [], ⟨[], []⟩,
      [⟨"run", false, [], [x], .scalar ⟨"Supplier"⟩, [.ret (some outer)]⟩], .dummy⟩]⟩

theorem nested_conversion_idempotent :
    ∃ c, nested.convert .standard = .ok c ∧ c.reports.length = 3 ∧
      ∀ others, c.program.convert others = .ok ⟨c.program, []⟩ := by
  have runs : (nested.convert .standard).map (·.reports.length) = .ok 3 := by decide +kernel
  cases converted : nested.convert .standard with
  | error e =>
    rw [converted] at runs
    cases runs
  | ok c =>
    rw [converted] at runs
    exact ⟨c, rfl, Except.ok.inj runs, (conversion_idempotent converted).1⟩

end Program

end ClosureLift
