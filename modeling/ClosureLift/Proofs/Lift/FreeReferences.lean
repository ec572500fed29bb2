import ClosureLift.Proofs.Lift.Capturing
import ClosureLift.Proofs.Lift.Occurrences
import ClosureLift.Proofs.Lift.Storing

/-!
What the analysis of a closure finds. A reference leaves some parts if none of them declares its
variable, be it after the use or beside it; so what is found is a fact about the whole walk and not
about the parts one by one. Of the references that leave, the analysis returns the first of each
key, in the order of the walk, and these are what a lifted class captures.
-/
namespace ClosureLift

theorem distinct_first [BEq κ] [LawfulBEq κ] (key : α → κ) (f : β → Option α) (seen : List κ)
    (walk : List β) :
    ∃ places : List Nat, places.Pairwise (· < ·) ∧
      List.Forall₂ (fun a i => walk[i]?.bind f = some a ∧
        ∀ j < i, ∀ b, walk[j]?.bind f = some b → key b ≠ key a)
        (distinct key seen (walk.filterMap f)) places := by
  induction walk generalizing seen with
  | nil => exact ⟨[], .nil, .nil⟩
  | cons n rest ih =>
    -- The places of the rest move up by one. What stands first has another key, if it counts.
    have moved : ∀ known, (∀ a, f n = some a → key a ∈ known) →
        ∃ places : List Nat, places.Pairwise (· < ·) ∧ (∀ i ∈ places, 0 < i) ∧
          List.Forall₂ (fun a i => (n :: rest)[i]?.bind f = some a ∧
            ∀ j < i, ∀ b, (n :: rest)[j]?.bind f = some b → key b ≠ key a)
            (distinct key known (rest.filterMap f)) places := by
      intro known first
      obtain ⟨places, ascending, each⟩ := ih known
      refine ⟨places.map (· + 1), ?_, ?_, ?_⟩
      · rw [List.pairwise_map]
        exact ascending.imp fun less => Nat.succ_lt_succ less
      · intro i member
        obtain ⟨j, _, rfl⟩ := List.mem_map.mp member
        exact Nat.succ_pos j
      · rw [List.forall₂_map_right_iff]
        refine List.Forall₂.imp ?_ ((List.forall₂_and_left _ _).mpr
          ⟨fun a member => (distinct_subset member).2, each⟩)
        rintro a i ⟨unknown, here, before⟩
        refine ⟨here, ?_⟩
        intro j less b there
        cases j with
        | zero =>
          intro same
          exact unknown (same ▸ first b there)
        | succ j => exact before j (Nat.lt_of_succ_lt_succ less) b there
    cases found : f n with
    | none =>
      obtain ⟨places, ascending, _, each⟩ := moved seen fun a some => by
        rw [found] at some
        cases some
      rw [List.filterMap_cons_none found]
      exact ⟨places, ascending, each⟩
    | some a =>
      rw [List.filterMap_cons_some found, distinct]
      split
      · rename_i known
        obtain ⟨places, ascending, _, each⟩ := moved seen fun b some => by
          rw [found] at some
          cases some
          simpa using known
        exact ⟨places, ascending, each⟩
      · obtain ⟨places, ascending, later, each⟩ := moved (key a :: seen) fun b some => by
          rw [found] at some
          cases some
          exact List.mem_cons_self
        refine ⟨0 :: places, List.pairwise_cons.mpr ⟨later, ascending⟩, .cons ?_ each⟩
        exact ⟨found, by intro j less; cases less⟩

namespace Reference

/-- A variable leaves some parts if none of them declares it, and an instance unless it is that of
their own class. -/
def Leaves (own : Option TypeName) (ns : List Node) : Reference → Prop
  | .variable x => ∀ part ∈ Node.preorderAll ns, ∀ y ∈ part.declares, y.id ≠ x.id
  | .this cls => own ≠ some cls

theorem leaves_iff {own : Option TypeName} {ns : List Node} {ref : Reference} :
    ref.Leaves own ns ↔ ref.isFree (Node.declared ns) own = true := by
  cases ref with
  | «variable» x =>
    simp only [Leaves, isFree, Bool.not_eq_true', List.contains_eq_mem, decide_eq_false_iff_not,
      Node.mem_declared, not_exists, not_and, ne_eq]
  | this cls => simp [Leaves, isFree]

end Reference

/-- A reference is read at a place of the walk and leaves the parts, and no reference of its key
that leaves them is read before. -/
structure FirstUse (own : Option TypeName) (ns : List Node) (ref : Reference) (place : Nat) :
    Prop where
  read : (Node.preorderAll ns)[place]? = some (.expr (.reference ref))
  leaves : ref.Leaves own ns
  first : ∀ earlier < place, ∀ other : Reference,
    (Node.preorderAll ns)[earlier]? = some (.expr (.reference other)) → other.Leaves own ns →
      other.key ≠ ref.key

theorem free_references_first (own : Option TypeName) (ns : List Node) :
    ∃ places : List Nat, places.Pairwise (· < ·) ∧
      List.Forall₂ (FirstUse own ns) (freeReferences own ns) places := by
  let leaving (n : Node) : Option Reference :=
    n.reference?.filter (·.isFree (Node.declared ns) own)
  have leaving_some : ∀ (i : Nat) ref, (Node.preorderAll ns)[i]?.bind leaving = some ref ↔
      (Node.preorderAll ns)[i]? = some (.expr (.reference ref)) ∧ ref.Leaves own ns := by
    intro i ref
    rw [Option.bind_eq_some_iff, Reference.leaves_iff]
    constructor
    · rintro ⟨n, there, reads⟩
      obtain ⟨reads, free⟩ := Option.filter_eq_some_iff.mp reads
      rw [Node.reference_eq_some.mp reads] at there
      exact ⟨there, free⟩
    · rintro ⟨there, free⟩
      exact ⟨_, there, Option.filter_eq_some_iff.mpr ⟨rfl, free⟩⟩
  obtain ⟨places, ascending, each⟩ :=
    distinct_first Reference.key leaving [] (Node.preorderAll ns)
  refine ⟨places, ascending, ?_⟩
  rw [freeReferences, List.filter_filterMap]
  refine each.imp ?_
  rintro ref i ⟨here, before⟩
  obtain ⟨read, leaves⟩ := (leaving_some i ref).mp here
  refine ⟨read, leaves, ?_⟩
  intro j less other there out
  exact before j less other ((leaving_some j other).mpr ⟨there, out⟩)

theorem mem_free_reference_keys {own : Option TypeName} {ns : List Node} {key : Identifier} :
    key ∈ (freeReferences own ns).map Reference.key ↔
      ∃ ref : Reference, .expr (.reference ref) ∈ Node.preorderAll ns ∧ ref.key = key ∧
        ref.Leaves own ns := by
  constructor
  · intro member
    obtain ⟨ref, free, same⟩ := List.mem_map.mp member
    obtain ⟨occurs, leaves⟩ := free_reference_occurs free
    exact ⟨ref, occurs, same, Reference.leaves_iff.mpr leaves⟩
  · rintro ⟨ref, occurs, rfl, leaves⟩
    exact free_reference_key_found occurs (Reference.leaves_iff.mp leaves)

def Capture.reference : Capture → Reference
  | .variable decl => .variable decl
  | .this cls => .this cls
  | .value temporary _ => .variable temporary

theorem Capture.reference_type (c : Capture) : c.reference.ty = c.ty := by
  cases c <;> rfl

theorem MethodReference.capture_reference {closure : MethodReference} {scope : Identifier}
    {params : List Variable} {t t' : ScopeTable} {call : Expr} {values : List (Variable × Expr)}
    (run : (closure.call scope (params.map .var)).run t = ((call, values), t')) {ref : Reference}
    (free : ref ∈ freeReferences none (closure.toBody params call).parts) :
    (Capture.ofReference values ref).reference = ref := by
  have read := (closure.toBody params call).free_reference_in_body free
  rcases (forwarding_part run read).2.2 ref rfl with
    ⟨x, param, rfl⟩ | ⟨_, none⟩ | ⟨temporary, receiver, rfl, _, held⟩
  · have captured := (closure.toBody params call).captured_of_free free
    exact absurd rfl ((closure.toBody params call).captured_not_parameter captured param)
  · rw [none]
    cases ref <;> rfl
  · rw [held]
    simp [Capture.ofReference, Capture.reference]

namespace Closure

def members (closure : Closure) (site : Site) (t : ScopeTable) : List Node :=
  closure.fields.map .field ++ (closure.methods site t).map .method

def bound? (closure : Closure) (name : TypeName) : Option TypeName :=
  match closure with
  | .anonymous _ => some name
  | _ => none

variable (closure : Closure) (site : Site) (t : ScopeTable)

theorem sketch_nodes :
    (closure.sketch site t).shape.nodes =
      (closure.members site t).map (closure.renamed (closure.sketch site t).shape.name) := by
  rw [Shape.nodes, sketch_methods, members, List.map_append]
  congr 1
  cases closure with
  | anonymous closure =>
    rw [List.map_map]
    exact List.map_map
  | _ => exact (List.map_id _).symm

theorem sketch_bound :
    (closure.sketch site t).shape.own = closure.bound? (closure.sketch site t).shape.name := by
  cases closure <;> rfl

theorem capture_reference {ref : Reference}
    (free : ref ∈ freeReferences (closure.sketch site t).shape.own
      (closure.sketch site t).shape.nodes) :
    (Capture.ofReference (closure.sketch site t).values ref).reference = ref := by
  cases closure with
  | body closure => cases ref <;> rfl
  | anonymous closure => cases ref <;> rfl
  | reference closure => exact MethodReference.capture_reference rfl free

variable {closure site t}

theorem slot_references {options : LiftOptions} {t' : ScopeTable} {made : Lifted}
    (lifts : (closure.lift site options).run.run t = (.ok made, t')) :
    made.slots.map (·.capture.reference) =
      freeReferences (closure.bound? made.cls.name)
        ((closure.members site t).map (closure.renamed made.cls.name)) := by
  obtain ⟨_, params, _, _, rfl⟩ := Shape.lift_builds _ (lift_sketched lifts)
  have captures := congrArg (List.map Capture.reference)
    ((closure.sketch site t).shape.slot_captures (closure.sketch site t).values options)
  rw [List.map_map, List.map_map] at captures
  refine captures.trans ?_
  rw [Shape.outcome, ← closure.sketch_bound, ← closure.sketch_nodes]
  refine (List.map_congr_left ?_).trans (List.map_id _)
  intro ref free
  exact closure.capture_reference site t free

end Closure

/-- The analysis is exact: it returns the keys of the references that leave the parts, each once,
with the reference that is read first, and in the order of these first uses. What a lifted class
captures is what the analysis returns for the fields and methods of the closure. -/
theorem free_references_exact :
    (∀ (own : Option TypeName) (ns : List Node),
      ((freeReferences own ns).map Reference.key).Nodup ∧
      (∀ key, key ∈ (freeReferences own ns).map Reference.key ↔
        ∃ ref : Reference, .expr (.reference ref) ∈ Node.preorderAll ns ∧ ref.key = key ∧
          ref.Leaves own ns) ∧
      ∃ places : List Nat, places.Pairwise (· < ·) ∧
        List.Forall₂ (FirstUse own ns) (freeReferences own ns) places) ∧
    ∀ (closure : Closure) (site : Site) (options : LiftOptions) (t t' : ScopeTable) (made : Lifted),
      (closure.lift site options).run.run t = (.ok made, t') →
      made.slots.map (·.capture.reference) =
        freeReferences (closure.bound? made.cls.name)
          ((closure.members site t).map (closure.renamed made.cls.name)) := by
  constructor
  · intro own ns
    exact ⟨free_reference_keys_nodup own ns, fun key => mem_free_reference_keys,
      free_references_first own ns⟩
  · intro closure site options t t' made lifts
    exact Closure.slot_references lifts

theorem crowded_references :
    ∃ made t', ((Closure.anonymous .crowded).lift ⟨.top, ⟨"Outer"⟩⟩ .standard).run.run
        (.empty "_cassis_tmp_") = (.ok made, t') ∧
      made.slots.map (·.capture.reference.key) =
        [((Identifier.top.type ⟨"Outer"⟩).method "run").var "x",
          ((Identifier.top.type ⟨"Outer"⟩).method "run").var "x_0",
          .thisOf ⟨"Outer"⟩, .thisOf ⟨"Other"⟩] := by
  have named : (((Closure.anonymous .crowded).lift ⟨.top, ⟨"Outer"⟩⟩ .standard).run.run
      (.empty "_cassis_tmp_")).1.map (·.cls.name) = .ok ⟨"Outer_Anonymous_0"⟩ := by
    decide +kernel
  obtain ⟨made, t', lifts, name⟩ := lifted_of_view named
  refine ⟨made, t', lifts, ?_⟩
  have captured := congrArg (List.map Reference.key)
    (free_references_exact.2 _ _ _ _ _ _ lifts)
  rw [List.map_map, name] at captured
  refine captured.trans ?_
  decide +kernel

end ClosureLift
