import ClosureLift.Proofs.Lift.Closure
import ClosureLift.Proofs.Scope.Growth

/-!
Histories of a table. Whatever is asked of the table of a unit, in whatever order and with whatever
success, it mints no identifier twice and forgets nothing. This holds also for the names that a lift
mints before it fails, and for what a program reserves before it is refused.
-/
namespace ClosureLift

inductive Request where
  | freshVariable (scope : Identifier) (name : String) (ty : Ty)
  | freshTemporary (scope : Identifier) (ty : Ty)
  | declare (scope : Identifier) (key name : String) (ty : Ty)
  | freshClassName (enclosing : TypeName)
  | reserve (id : Identifier)
  | reserveProgram (program : Program)
  | liftBody (closure : ClosureBody) (site : Site) (options : LiftOptions)
  | liftReference (closure : MethodReference) (site : Site) (options : LiftOptions)
  | liftAnonymous (closure : AnonymousClass) (site : Site) (options : LiftOptions)

namespace Capture

def temporary? : Capture → Option Identifier
  | .value temporary _ => some temporary.id
  | _ => none

end Capture

namespace Lifted

def issued (made : Lifted) : List Identifier :=
  Identifier.top.type made.cls.name :: made.cls.constructor.params.map (·.id)

def forwarded (made : Lifted) : List Identifier :=
  made.cls.methods.flatMap (fun m => m.params.map (·.id)) ++
    made.slots.filterMap (·.capture.temporary?)

end Lifted

/-- What a lift mints once the class is named: the parameters of the constructor, after the last
step that can fail. -/
def Shape.minted (shape : Shape) (scope : Identifier) (values : List (Variable × Expr))
    (options : LiftOptions) (t : ScopeTable) : List Identifier :=
  match shape.liftedMethods (shape.slots values options) with
  | .error _ => []
  | .ok _ =>
    let minted :=
      (mintParams (scope.type shape.name).constructor (shape.slots values options)).run t
    minted.1.map (·.id)

def Site.minted (site : Site) (shape : TypeName → Shape) (options : LiftOptions) (t : ScopeTable) :
    List Identifier :=
  let fresh := t.freshClassName site.enclosing
  Identifier.top.type fresh.1 :: (shape fresh.1).minted site.scope [] options fresh.2

/-- The parameters of its method and the temporary for its receiver come between the name of the
class and the parameters of the constructor. -/
def MethodReference.minted (closure : MethodReference) (site : Site) (options : LiftOptions)
    (t : ScopeTable) : List Identifier :=
  let fresh := t.freshClassName site.enclosing
  let inner := (site.scope.type fresh.1).method closure.method
  let minted := (mintArguments inner 0 closure.paramTypes).run fresh.2
  let forward := (closure.call inner (minted.1.map .var)).run minted.2
  [Identifier.top.type fresh.1] ++ minted.1.map (·.id) ++ forward.1.2.map (·.1.id) ++
    ((closure.toBody minted.1 forward.1.1).shape fresh.1).minted site.scope forward.1.2 options
      forward.2

namespace Request

def answer (issued : Lifted → List Identifier) (outcome : Except LiftError Lifted × ScopeTable) :
    List Identifier × ScopeTable :=
  match outcome with
  | (.ok made, t) => (issued made, t)
  | (.error _, t) => ([], t)

/-- The identifiers that the table hands to whoever asks, and the table afterwards. -/
def perform : Request → ScopeTable → List Identifier × ScopeTable
  | .freshVariable scope name ty, t =>
    ([(t.freshVariable scope name ty).1.id], (t.freshVariable scope name ty).2)
  | .freshTemporary scope ty, t =>
    ([(t.freshTemporary scope ty).1.id], (t.freshTemporary scope ty).2)
  | .declare scope key name ty, t =>
    match t.declare scope key name ty with
    | (.ok x, t) => ([x.id], t)
    | (.error _, t) => ([], t)
  | .freshClassName enclosing, t =>
    ([Identifier.top.type (t.freshClassName enclosing).1], (t.freshClassName enclosing).2)
  | .reserve id, t => ([], (t.reserve id).2)
  | .reserveProgram program, t => ([], (t.reserveProgram program).2)
  | .liftBody closure site options, t =>
    answer Lifted.issued ((closure.lift site.scope site.enclosing options).run.run t)
  | .liftReference closure site options, t =>
    answer (fun made => made.issued ++ made.forwarded)
      ((closure.lift site.scope site.enclosing options).run.run t)
  | .liftAnonymous closure site options, t =>
    answer Lifted.issued ((closure.lift site.scope site.enclosing options).run.run t)

/-- The identifiers that a request mints, in order. A lift that fails has minted some all the same,
unless it fails for want of a method. -/
def mints : Request → ScopeTable → List Identifier
  | .liftBody closure site options, t =>
    if closure.method = "" then [] else site.minted closure.shape options t
  | .liftReference closure site options, t =>
    if closure.method = "" then [] else closure.minted site options t
  | .liftAnonymous closure site options, t => site.minted closure.shape options t
  | r, t => (r.perform t).1

/-- The identifiers that a request takes without minting them. Of a program with a repeated
declaration these are the ones before it. -/
def reserves : Request → ScopeTable → List Identifier
  | .reserve id, _ => [id]
  | .reserveProgram program, t =>
    match (t.reserveProgram program).1 with
    | .ok () => program.declaredIds
    | .error _ => t.admitted program.declaredIds
  | _, _ => []

end Request

theorem Shape.mint_params_grown (scope : Identifier) (slots : List Slot) (t : ScopeTable) :
    Grown t ((Shape.mintParams scope slots).run t).2
      (((Shape.mintParams scope slots).run t).1.map (·.id)) := by
  induction slots generalizing t with
  | nil => exact .none t
  | cons slot rest ih =>
    exact (t.fresh_variable_grown scope slot.preferred slot.capture.ty).trans (ih _)

theorem MethodReference.mint_arguments_grown (scope : Identifier) (k : Nat) (types : List Ty)
    (t : ScopeTable) :
    Grown t ((MethodReference.mintArguments scope k types).run t).2
      (((MethodReference.mintArguments scope k types).run t).1.map (·.id)) := by
  induction types generalizing k t with
  | nil => exact .none t
  | cons ty rest ih => exact (t.fresh_variable_grown scope s!"arg{k}" ty).trans (ih (k + 1) _)

theorem MethodReference.call_grown (closure : MethodReference) (scope : Identifier)
    (args : List Expr) (t : ScopeTable) :
    Grown t ((closure.call scope args).run t).2
      (((closure.call scope args).run t).1.2.map (·.1.id)) := by
  generalize run : (closure.call scope args).run t = outcome
  obtain ⟨⟨call, values⟩, t'⟩ := outcome
  rcases closure.call_cases run with ⟨_, _, rfl, rfl, _⟩ | ⟨_, _, rfl, rfl, _⟩ |
    ⟨receiver, temporary, _, minted, rfl, _⟩
  · exact .none _
  · exact .none _
  · have grown := t.fresh_temporary_grown scope receiver.ty
    rw [← minted] at grown
    exact grown

theorem Shape.lifted_methods_params {shape : Shape} {slots : List Slot} {methods : List Method}
    (lifted : shape.liftedMethods slots = .ok methods) :
    methods.map (·.params) = shape.methods.map (·.params) := by
  rw [(shape.lifted_methods_ok.mp lifted).2, Shape.rewritten, List.map_map]
  rfl

theorem Shape.lift_grown (shape : Shape) (scope : Identifier) (values : List (Variable × Expr))
    (options : LiftOptions) (t : ScopeTable) :
    Grown t ((shape.lift scope values options).run.run t).2
      (shape.minted scope values options t) := by
  rw [Shape.lift_eq, Shape.minted]
  cases shape.liftedMethods (shape.slots values options) with
  | error e => exact .none t
  | ok methods => exact Shape.mint_params_grown _ _ t

theorem Shape.lift_issues {shape : Shape} {scope : Identifier} {values : List (Variable × Expr)}
    {options : LiftOptions} {t : ScopeTable} {made : Lifted}
    (done : ((shape.lift scope values options).run.run t).1 = .ok made) :
    made.issued = Identifier.top.type shape.name :: shape.minted scope values options t ∧
      made.slots = shape.slots values options ∧
      made.cls.methods.map (·.params) = shape.methods.map (·.params) := by
  rw [Shape.lift_eq] at done
  rw [Shape.minted]
  cases lifted : shape.liftedMethods (shape.slots values options) with
  | error e =>
    rw [lifted] at done
    cases done
  | ok methods =>
    rw [lifted] at done
    cases done
    exact ⟨rfl, rfl, Shape.lifted_methods_params lifted⟩

theorem Capture.temporary_key {values : List (Variable × Expr)} {ref : Reference} {id : Identifier}
    (held : (Capture.ofReference values ref).temporary? = some id) :
    (Capture.ofReference values ref).key = id ∧ id ∈ values.map (·.1.id) := by
  cases ref with
  | this cls => cases held
  | «variable» decl =>
    simp only [Capture.ofReference] at held ⊢
    split at held
    · rename_i temporary init found
      cases held
      exact ⟨rfl, List.mem_map.mpr ⟨_, List.mem_of_find?_eq_some found, rfl⟩⟩
    · cases held

theorem filter_map_sublist {f : α → Option β} {g : α → β} {as : List α}
    (same : ∀ a ∈ as, ∀ b, f a = some b → g a = b) : (as.filterMap f).Sublist (as.map g) := by
  induction as with
  | nil => exact .slnil
  | cons a rest ih =>
    have later := ih fun b member => same b (List.mem_cons_of_mem a member)
    cases here : f a with
    | none =>
      rw [List.filterMap_cons_none here]
      exact later.cons _
    | some b =>
      rw [List.filterMap_cons_some here, List.map_cons, same a List.mem_cons_self b here]
      exact later.cons_cons b

theorem Shape.slot_temporaries (shape : Shape) (values : List (Variable × Expr))
    (options : LiftOptions) :
    let temporaries := (shape.slots values options).filterMap (·.capture.temporary?)
    temporaries.Nodup ∧ ∀ id ∈ temporaries, id ∈ values.map (·.1.id) := by
  have keyed : ∀ slot ∈ shape.slots values options, ∀ id, slot.capture.temporary? = some id →
      slot.capture.key = id ∧ id ∈ values.map (·.1.id) := by
    intro slot member id held
    obtain ⟨ref, _, same⟩ := shape.slot_of_free_reference member
    rw [same] at held ⊢
    exact Capture.temporary_key held
  constructor
  · have keys := free_reference_keys_nodup shape.own shape.nodes
    rw [← shape.slot_keys values options] at keys
    exact keys.sublist (filter_map_sublist fun slot member id held => (keyed slot member id held).1)
  · intro id member
    obtain ⟨slot, among, held⟩ := List.mem_filterMap.mp member
    exact (keyed slot among id held).2

namespace Request

theorem answer_table (issued : Lifted → List Identifier)
    (outcome : Except LiftError Lifted × ScopeTable) : (answer issued outcome).2 = outcome.2 := by
  obtain ⟨result, t⟩ := outcome
  cases result <;> rfl

theorem answer_minted {issued : Lifted → List Identifier}
    {outcome : Except LiftError Lifted × ScopeTable} {ids : List Identifier}
    (handed : ∀ made, outcome.1 = .ok made → (issued made).Nodup ∧ issued made ⊆ ids) :
    (answer issued outcome).1.Nodup ∧ (answer issued outcome).1 ⊆ ids := by
  obtain ⟨result, t⟩ := outcome
  cases result with
  | ok made => exact handed made rfl
  | error e => exact ⟨List.nodup_nil, List.nil_subset ids⟩

section

variable (shape : TypeName → Shape) (site : Site) (options : LiftOptions) (t : ScopeTable)

theorem site_grown :
    let fresh := t.freshClassName site.enclosing
    Grown t (((shape fresh.1).lift site.scope [] options).run.run fresh.2).2
      (site.minted shape options t) :=
  (t.fresh_class_name_grown site.enclosing).trans (Shape.lift_grown _ _ _ _ _)

theorem site_handed (named : ∀ name, (shape name).name = name) :
    let fresh := t.freshClassName site.enclosing
    let outcome := ((shape fresh.1).lift site.scope [] options).run.run fresh.2
    (answer Lifted.issued outcome).1.Nodup ∧
      (answer Lifted.issued outcome).1 ⊆ site.minted shape options t := by
  intro fresh outcome
  apply answer_minted
  intro made done
  have issued := (Shape.lift_issues done).1
  rw [named] at issued
  rw [issued]
  exact ⟨(site_grown shape site options t).distinct, List.Subset.refl _⟩

end

theorem nodup_rearranged {before middle later kept last : List Identifier}
    (all : (before ++ middle ++ later ++ last).Nodup) (once : kept.Nodup)
    (among : ∀ id ∈ kept, id ∈ later) :
    ((before ++ last) ++ (middle ++ kept)).Nodup ∧
      (before ++ last) ++ (middle ++ kept) ⊆ before ++ middle ++ later ++ last := by
  simp only [List.nodup_append, List.mem_append] at all ⊢
  constructor
  · grind
  · intro id member
    grind

section

variable (closure : MethodReference) (site : Site) (options : LiftOptions) (t : ScopeTable)

theorem reference_grown (named : closure.method ≠ "") :
    Grown t ((closure.lift site.scope site.enclosing options).run.run t).2
      (closure.minted site options t) := by
  rw [MethodReference.lift_eq, if_neg named]
  let inner := (site.scope.type (t.freshClassName site.enclosing).1).method closure.method
  let minted := (MethodReference.mintArguments inner 0 closure.paramTypes).run
    (t.freshClassName site.enclosing).2
  have first := t.fresh_class_name_grown site.enclosing
  have second := MethodReference.mint_arguments_grown inner 0 closure.paramTypes
    (t.freshClassName site.enclosing).2
  have third := closure.call_grown inner (minted.1.map .var) minted.2
  exact ((first.trans second).trans third).trans (Shape.lift_grown _ _ _ _ _)

theorem reference_handed (named : closure.method ≠ "") :
    let handed := ((Request.liftReference closure site options).perform t).1
    handed.Nodup ∧ handed ⊆ closure.minted site options t := by
  intro handed
  apply answer_minted
  rw [MethodReference.lift_eq, if_neg named]
  intro made done
  have distinct := (reference_grown closure site options t named).distinct
  obtain ⟨issued, slots, params⟩ := Shape.lift_issues done
  let name := (t.freshClassName site.enclosing).1
  let inner := (site.scope.type name).method closure.method
  let minted := (MethodReference.mintArguments inner 0 closure.paramTypes).run
    (t.freshClassName site.enclosing).2
  let forward := (closure.call inner (minted.1.map .var)).run minted.2
  let shape := (closure.toBody minted.1 forward.1.1).shape name
  obtain ⟨once, among⟩ := shape.slot_temporaries forward.1.2 options
  have arguments : made.cls.methods.flatMap (fun m => m.params.map (·.id)) =
      minted.1.map (·.id) := by
    have same := congrArg (List.flatMap (List.map Variable.id)) params
    rw [List.flatMap_map, List.flatMap_map] at same
    exact same.trans (List.append_nil _)
  rw [issued, Lifted.forwarded, arguments, slots]
  exact nodup_rearranged distinct once among

end

theorem perform_cases (r : Request) (t : ScopeTable) :
    (Grown t (r.perform t).2 (r.mints t) ∧ r.reserves t = []) ∨
    (r.mints t = [] ∧ ∃ ids, Grown t (r.perform t).2 ids ∧ ids ⊆ r.reserves t ∧
      ∀ id ∈ r.reserves t, (r.perform t).2.contains id = true) ∨
    ∃ scope key name ty x t', r = .declare scope key name ty ∧
      t.keys.lookup (scope, key) = none ∧ Grown t t' [x.id] ∧ x.id = scope.var x.name ∧
      r.mints t = [x.id] ∧ r.reserves t = [] ∧
      (r.perform t).2 = { t' with keys := ((scope, key), x) :: t.keys } := by
  cases r with
  | freshVariable scope name ty => exact Or.inl ⟨t.fresh_variable_grown scope name ty, rfl⟩
  | freshTemporary scope ty => exact Or.inl ⟨t.fresh_temporary_grown scope ty, rfl⟩
  | freshClassName enclosing => exact Or.inl ⟨t.fresh_class_name_grown enclosing, rfl⟩
  | declare scope key name ty =>
    rcases t.declare_cases scope key name ty with ⟨x, _, refused⟩ | ⟨unbound, bound⟩
    · left
      simp only [mints, perform, refused]
      exact ⟨.none t, rfl⟩
    · right
      right
      refine ⟨scope, key, name, ty, _, _, rfl, unbound, t.fresh_variable_grown scope name ty,
        t.fresh_variable_named scope name ty, ?_, rfl, ?_⟩
      · simp only [mints, perform, bound]
      · simp only [perform, bound]
  | reserve id =>
    right
    left
    refine ⟨rfl, ?_⟩
    simp only [perform, reserves, List.forall_mem_singleton, ScopeTable.reserve]
    cases taken : t.contains id with
    | true => exact ⟨[], .none t, List.nil_subset _, taken⟩
    | false =>
      have grown := t.insert_grown taken
      exact ⟨[id], grown, List.Subset.refl _, (grown.taken id).mpr (Or.inr List.mem_cons_self)⟩
  | reserveProgram program =>
    right
    left
    have grown := t.reserve_all_grown program.declaredIds
    have taken : reserves (.reserveProgram program) t = t.admitted program.declaredIds := by
      simp only [reserves]
      split
      · rename_i done
        exact (t.admitted_all done).symm
      · rfl
    rw [taken]
    exact ⟨rfl, _, grown, List.Subset.refl _, fun id member => (grown.taken id).mpr (Or.inr member)⟩
  | liftBody closure site options =>
    left
    simp only [perform, mints, answer_table, ClosureBody.lift_eq]
    split
    · exact ⟨.none t, rfl⟩
    · exact ⟨site_grown closure.shape site options t, rfl⟩
  | liftReference closure site options =>
    left
    simp only [perform, mints, answer_table]
    split
    · rename_i unnamed
      rw [MethodReference.lift_eq, if_pos unnamed]
      exact ⟨.none t, rfl⟩
    · rename_i named
      exact ⟨reference_grown closure site options t named, rfl⟩
  | liftAnonymous closure site options =>
    left
    simp only [perform, mints, answer_table, AnonymousClass.lift_eq]
    exact ⟨site_grown closure.shape site options t, rfl⟩

theorem perform_handed (r : Request) (t : ScopeTable) :
    (r.perform t).1.Nodup ∧ (r.perform t).1 ⊆ r.mints t := by
  have one : ∀ id : Identifier, [id].Nodup ∧ [id] ⊆ [id] :=
    fun id => ⟨by simp, List.Subset.refl _⟩
  have nothing : ∀ ids : List Identifier, ([] : List Identifier).Nodup ∧ [] ⊆ ids :=
    fun ids => ⟨List.nodup_nil, List.nil_subset ids⟩
  cases r with
  | freshVariable scope name ty => exact one _
  | freshTemporary scope ty => exact one _
  | freshClassName enclosing => exact one _
  | reserve id => exact nothing _
  | reserveProgram program => exact nothing _
  | declare scope key name ty =>
    simp only [mints, perform]
    split
    · exact one _
    · exact nothing _
  | liftBody closure site options =>
    simp only [perform, mints, ClosureBody.lift_eq]
    split
    · exact nothing _
    · exact site_handed closure.shape site options t fun _ => rfl
  | liftReference closure site options =>
    by_cases named : closure.method = ""
    · simp only [perform, mints, MethodReference.lift_eq, if_pos named]
      exact nothing _
    · simp only [mints, if_neg named]
      exact reference_handed closure site options t named
  | liftAnonymous closure site options =>
    exact site_handed closure.shape site options t fun _ => rfl

def performAll : List Request → ScopeTable → ScopeTable
  | [], t => t
  | r :: rest, t => performAll rest (r.perform t).2

def minted : List Request → ScopeTable → List Identifier
  | [], _ => []
  | r :: rest, t => r.mints t ++ minted rest (r.perform t).2

def reserved : List Request → ScopeTable → List Identifier
  | [], _ => []
  | r :: rest, t => r.reserves t ++ reserved rest (r.perform t).2

end Request

/-- From one table to a later one of the same unit: what was minted between them is new, and the
later one has exactly this, what was reserved, and all that the earlier one had. -/
structure Served (before after : ScopeTable) (minted reserved : List Identifier) : Prop where
  distinct : minted.Nodup
  new : ∀ id ∈ minted, before.contains id = false
  taken : ∀ id, after.contains id = true ↔
    before.contains id = true ∨ id ∈ minted ∨ id ∈ reserved
  anonymous : before.nextAnonymous ≤ after.nextAnonymous
  temporary : before.nextTemporary ≤ after.nextTemporary
  kept : ∀ binding x, before.keys.lookup binding = some x → after.keys.lookup binding = some x

namespace Served

variable {t t₁ t₂ : ScopeTable} {minted minted' reserved reserved' : List Identifier}

theorem of_grown (grown : Grown t t₁ minted) : Served t t₁ minted [] where
  distinct := grown.distinct
  new := grown.new
  taken := by
    intro id
    rw [grown.taken]
    simp
  anonymous := grown.anonymous
  temporary := grown.temporary
  kept := by
    intro binding x bound
    rwa [grown.keys]

theorem grows (served : Served t t₁ minted reserved) {id : Identifier}
    (known : t.contains id = true) : t₁.contains id = true :=
  (served.taken id).mpr (Or.inl known)

theorem trans (first : Served t t₁ minted reserved) (second : Served t₁ t₂ minted' reserved') :
    Served t t₂ (minted ++ minted') (reserved ++ reserved') where
  distinct := by
    rw [List.nodup_append]
    refine ⟨first.distinct, second.distinct, ?_⟩
    intro id early other late same
    subst same
    have present := (first.taken id).mpr (Or.inr (Or.inl early))
    rw [second.new id late] at present
    cases present
  new := by
    intro id member
    rcases List.mem_append.mp member with early | late
    · exact first.new id early
    · cases known : t.contains id with
      | false => rfl
      | true =>
        have present := first.grows known
        rw [second.new id late] at present
        cases present
  taken := by
    intro id
    rw [second.taken, first.taken, List.mem_append, List.mem_append]
    constructor
    · rintro ((known | early | early) | late | late)
      · exact Or.inl known
      · exact Or.inr (Or.inl (Or.inl early))
      · exact Or.inr (Or.inr (Or.inl early))
      · exact Or.inr (Or.inl (Or.inr late))
      · exact Or.inr (Or.inr (Or.inr late))
    · rintro (known | (early | late) | (early | late))
      · exact Or.inl (Or.inl known)
      · exact Or.inl (Or.inr (Or.inl early))
      · exact Or.inr (Or.inl late)
      · exact Or.inl (Or.inr (Or.inr early))
      · exact Or.inr (Or.inr late)
  anonymous := Nat.le_trans first.anonymous second.anonymous
  temporary := Nat.le_trans first.temporary second.temporary
  kept := fun binding x bound => second.kept binding x (first.kept binding x bound)

end Served

/-- Each key is bound to a variable of its own, named in the scope that binds it. -/
structure ScopeTable.WellBound (t : ScopeTable) : Prop where
  named : ∀ scope key x, t.keys.lookup (scope, key) = some x →
    x.id = scope.var x.name ∧ t.contains x.id = true
  apart : ∀ binding other x y, t.keys.lookup binding = some x → t.keys.lookup other = some y →
    x.id = y.id → binding = other

theorem ScopeTable.empty_well_bound (temporaryName : String) :
    (ScopeTable.empty temporaryName).WellBound where
  named := by
    intro scope key x held
    cases held
  apart := by
    intro binding other x y held
    cases held

theorem ScopeTable.WellBound.grown {t t' : ScopeTable} {ids : List Identifier}
    (bound : t.WellBound) (grown : Grown t t' ids) : t'.WellBound where
  named := by
    intro scope key x held
    rw [grown.keys] at held
    obtain ⟨named, known⟩ := bound.named scope key x held
    exact ⟨named, grown.grows known⟩
  apart := by
    intro binding other x y held also
    rw [grown.keys] at held also
    exact bound.apart binding other x y held also

namespace Request

variable (r : Request) (t : ScopeTable)

theorem served_one : Served t (r.perform t).2 (r.mints t) (r.reserves t) := by
  rcases r.perform_cases t with ⟨grown, nothing⟩ | ⟨nothing, ids, grown, among, present⟩ |
    ⟨scope, key, _, _, x, t', _, unbound, grown, _, one, nothing, performed⟩
  · rw [nothing]
    exact .of_grown grown
  · rw [nothing]
    refine ⟨List.nodup_nil, by simp, ?_, grown.anonymous, grown.temporary,
      (Served.of_grown grown).kept⟩
    intro id
    constructor
    · intro held
      rcases (grown.taken id).mp held with known | member
      · exact Or.inl known
      · exact Or.inr (Or.inr (among member))
    · rintro (known | none | member)
      · exact grown.grows known
      · cases none
      · exact present id member
  · rw [one, nothing, performed]
    refine { Served.of_grown grown with kept := ?_ }
    intro binding y bound
    rw [List.lookup_cons]
    cases same : binding == (scope, key) with
    | false => exact bound
    | true =>
      rw [beq_iff_eq.mp same, unbound] at bound
      cases bound

theorem served_all (rs : List Request) (t : ScopeTable) :
    Served t (performAll rs t) (minted rs t) (reserved rs t) := by
  induction rs generalizing t with
  | nil => exact .of_grown (.none t)
  | cons r rest ih => exact (r.served_one t).trans (ih (r.perform t).2)

theorem well_bound_one (bound : t.WellBound) : (r.perform t).2.WellBound := by
  -- The third case binds its key apart from all others, because the identifier is new.
  rcases r.perform_cases t with ⟨grown, _⟩ | ⟨_, ids, grown, _⟩ |
    ⟨scope, key, _, _, x, t', _, _, grown, own, _, _, performed⟩
  · exact bound.grown grown
  · exact bound.grown grown
  · have fresh : ∀ scope key y, t.keys.lookup (scope, key) = some y → y.id ≠ x.id := by
      intro scope key y held same
      have known := (bound.named scope key y held).2
      rw [same, grown.new x.id List.mem_cons_self] at known
      cases known
    rw [performed]
    refine ⟨?_, ?_⟩
    · intro scope' key' y held
      rw [List.lookup_cons] at held
      split at held
      · rename_i same
        cases held
        cases beq_iff_eq.mp same
        exact ⟨own, (grown.taken x.id).mpr (Or.inr List.mem_cons_self)⟩
      · obtain ⟨named, known⟩ := bound.named scope' key' y held
        exact ⟨named, grown.grows known⟩
    · intro binding other y z held also same
      rw [List.lookup_cons] at held also
      split at held
      · rename_i here
        split at also
        · rename_i there
          rw [beq_iff_eq.mp here, beq_iff_eq.mp there]
        · cases held
          exact absurd same.symm (fresh _ _ z also)
      · split at also
        · cases also
          exact absurd same (fresh _ _ y held)
        · exact bound.apart binding other y z held also same

theorem well_bound_all (rs : List Request) (t : ScopeTable) (bound : t.WellBound) :
    (performAll rs t).WellBound := by
  induction rs generalizing t with
  | nil => exact bound
  | cons r rest ih => exact ih _ (r.well_bound_one t bound)

theorem perform_all_append (before after : List Request) (t : ScopeTable) :
    performAll (before ++ after) t = performAll after (performAll before t) := by
  induction before generalizing t with
  | nil => rfl
  | cons r rest ih => exact ih (r.perform t).2

/-- One request in the history of a table that was empty at first. What it mints, also if it fails,
was not in the table, was never minted or reserved before, and stays in the table for good; what it
hands out it has minted. In the end the table has exactly what the history minted and reserved.
Nothing that it knew is lost, and each key keeps a variable of its own. -/
theorem allocation_never_repeats (temporaryName : String) (before : List Request)
    (request : Request) (after : List Request) :
    let start := ScopeTable.empty temporaryName
    let history := before ++ request :: after
    let t := performAll before start
    let last := performAll history start
    (∀ id ∈ request.mints t, t.contains id = false ∧ last.contains id = true ∧
      id ∉ minted before start ∧ id ∉ reserved before start) ∧
    (request.perform t).1.Nodup ∧ (∀ id ∈ (request.perform t).1, id ∈ request.mints t) ∧
    (minted history start).Nodup ∧
    (∀ id, last.contains id = true ↔ id ∈ minted history start ∨ id ∈ reserved history start) ∧
    (∀ id, t.contains id = true → last.contains id = true) ∧
    t.nextAnonymous ≤ last.nextAnonymous ∧ t.nextTemporary ≤ last.nextTemporary ∧
    (∀ binding x, t.keys.lookup binding = some x → last.keys.lookup binding = some x) ∧
    (∀ scope key x, last.keys.lookup (scope, key) = some x →
      x.id = scope.var x.name ∧ last.contains x.id = true) ∧
    ∀ binding other x y, last.keys.lookup binding = some x → last.keys.lookup other = some y →
      x.id = y.id → binding = other := by
  intro start history t last
  have earlier : Served start t (minted before start) (reserved before start) :=
    served_all before start
  have here := request.served_one t
  have onward : Served t last (minted (request :: after) t) (reserved (request :: after) t) := by
    have same : last = performAll (request :: after) t := perform_all_append _ _ _
    rw [same]
    exact served_all (request :: after) t
  have whole : Served start last (minted history start) (reserved history start) :=
    served_all history start
  have bound := well_bound_all history start (ScopeTable.empty_well_bound temporaryName)
  have handed := request.perform_handed t
  refine ⟨?_, handed.1, handed.2, whole.distinct, ?_, fun id => onward.grows, onward.anonymous,
    onward.temporary, onward.kept, bound.named, bound.apart⟩
  · intro id member
    have new := here.new id member
    have old : ¬(id ∈ minted before start ∨ id ∈ reserved before start) := by
      intro past
      have known := (earlier.taken id).mpr (Or.inr past)
      rw [new] at known
      cases known
    have stays := (onward.taken id).mpr (Or.inr (Or.inl (List.mem_append_left _ member)))
    exact ⟨new, stays, not_or.mp old⟩
  · intro id
    have taken := whole.taken id
    simpa [start, ScopeTable.contains, ScopeTable.empty] using taken

/-- A function in the body of another one has to be lifted first. The outer one fails, but its class
is named by then. -/
example :
    let inner : Lambda := ⟨⟨"F"⟩, "run", [], .unit, [], .dummy⟩
    let outer : Lambda := ⟨⟨"F"⟩, "run", [], .unit, [.expr (.lambda inner)], .dummy⟩
    let r := Request.liftBody outer.toBody ⟨.top, ⟨"A"⟩⟩ .standard
    (r.perform (.empty "t")).1 = [] ∧
      r.mints (.empty "t") = [Identifier.top.type ⟨"A_Anonymous_0"⟩] := by
  decide +kernel

end Request

end ClosureLift
