import ClosureLift.Proofs.Program.Exchange
import ClosureLift.Proofs.Scope.Minting

/-!
Renaming before or after the analysis. What leaves a piece is found by key, and renaming changes the
keys of instances but not those of variables; so the analysis of a renamed piece finds the renamed
references as long as two instances that were told apart still are, and none of them was taken for a
variable.
-/
namespace ClosureLift

open Node (preorderAll declared)

theorem distinct_map [BEq κ] [LawfulBEq κ] {key : α → κ} {f : α → α} {seen seen' : List κ}
    {as : List α} (known : ∀ a ∈ as, key (f a) ∈ seen' ↔ key a ∈ seen)
    (keys : ∀ a ∈ as, ∀ b ∈ as, key (f a) = key (f b) ↔ key a = key b) :
    distinct key seen' (as.map f) = (distinct key seen as).map f := by
  induction as generalizing seen seen' with
  | nil => rfl
  | cons a rest ih =>
    obtain ⟨here, later⟩ := List.forall_mem_cons.mp known
    have keysLater : ∀ b ∈ rest, ∀ c ∈ rest, key (f b) = key (f c) ↔ key b = key c := by
      intro b first c second
      exact keys b (List.mem_cons_of_mem a first) c (List.mem_cons_of_mem a second)
    rw [List.map_cons]
    by_cases old : key a ∈ seen
    · rw [distinct_known old, distinct_known (here.mpr old), ih later keysLater]
    · rw [distinct_new old, distinct_new (fun other => old (here.mp other)), List.map_cons]
      apply congrArg
      apply ih _ keysLater
      intro b member
      rw [List.mem_cons, List.mem_cons, later b member,
        keys b (List.mem_cons_of_mem a member) a List.mem_cons_self]

namespace Reference

variable {σ : TypeName → TypeName} {first second : Reference}

theorem key_rename_iff
    (plain : ∀ x cls, first = .variable x ∨ second = .variable x → x.id ≠ .thisOf cls)
    (apart : ∀ a b, first = .this a → second = .this b → σ a = σ b → a = b) :
    (first.rename σ).key = (second.rename σ).key ↔ first.key = second.key := by
  rcases first with x | a <;> rcases second with y | b
  · exact Iff.rfl
  · have never := fun cls => plain x cls (Or.inl rfl)
    exact iff_of_false (never (σ b)) (never b)
  · have never := fun cls => (plain y cls (Or.inr rfl)).symm
    exact iff_of_false (never (σ a)) (never a)
  · constructor
    · intro same
      rw [apart a b rfl rfl (this_of_inj same)]
    · intro same
      rw [this_of_inj same]

theorem is_free_rename {own : Option TypeName} (ref : Reference)
    (apart : ∀ a b, ref = .this a → own = some b → σ a = σ b → a = b) (ids : List Identifier) :
    (ref.rename σ).isFree ids (own.map σ) = ref.isFree ids own := by
  rcases ref with x | a
  · rfl
  · cases own with
    | none => rfl
    | some b =>
      have same : σ b = σ a ↔ b = a := by
        constructor
        · intro same
          exact (apart a b rfl rfl same.symm).symm
        · intro same
          rw [same]
      simp only [rename, isFree, Option.map_some, bne, beq_eq_decide,
        Option.some.injEq, same]

end Reference

theorem reference_list_rename (σ : TypeName → TypeName) (walk : List Node) :
    (walk.map (Node.rename σ)).filterMap Node.reference? =
      (walk.filterMap Node.reference?).map (Reference.rename σ) := by
  rw [List.filterMap_map, List.map_filterMap]
  apply List.filterMap_congr
  intro n _
  exact Node.rename_reference σ n

theorem free_references_rename {σ : TypeName → TypeName} {own : Option TypeName} {ns : List Node}
    (plain : ∀ x cls, .expr (.var x) ∈ preorderAll ns → x.id ≠ .thisOf cls)
    (apart : ∀ a b, .expr (.this a) ∈ preorderAll ns →
      .expr (.this b) ∈ preorderAll ns ∨ own = some b → σ a = σ b → a = b) :
    freeReferences (own.map σ) (ns.map (Node.rename σ)) =
      (freeReferences own ns).map (Reference.rename σ) := by
  have ids : declared (ns.map (Node.rename σ)) = declared ns := by
    simp only [declared, Node.preorderAll_rename, List.flatMap_map, List.map_flatMap,
      Node.rename_declares_ids]
  have left : leaving (own.map σ) (declared ns) (preorderAll (ns.map (Node.rename σ))) =
      (leaving own (declared ns) (preorderAll ns)).map (Reference.rename σ) := by
    rw [leaving, leaving, Node.preorderAll_rename, reference_list_rename, List.filter_map]
    apply congrArg
    apply List.filter_congr
    intro ref member
    obtain ⟨n, inside, reads⟩ := List.mem_filterMap.mp member
    rw [Node.reference_eq_some.mp reads] at inside
    apply ref.is_free_rename
    rintro a b rfl whose
    exact apart a b inside (Or.inr whose)
  calc freeReferences (own.map σ) (ns.map (Node.rename σ))
      = distinct Reference.key []
          (leaving (own.map σ) (declared ns) (preorderAll (ns.map (Node.rename σ)))) := by
        rw [← ids]
        rfl
    _ = distinct Reference.key []
          ((leaving own (declared ns) (preorderAll ns)).map (Reference.rename σ)) := by rw [left]
    _ = (distinct Reference.key [] (leaving own (declared ns) (preorderAll ns))).map
          (Reference.rename σ) := by
        apply distinct_map (by simp)
        intro first one second other
        apply Reference.key_rename_iff
        · rintro x cls (rfl | rfl)
          · exact plain x cls (mem_leaving one)
          · exact plain x cls (mem_leaving other)
        · rintro a b rfl rfl
          exact apart a b (mem_leaving one) (Or.inl (mem_leaving other))

theorem replacement_apart {source target a b : TypeName} (first : a ≠ target)
    (second : b = source ∨ b ≠ target) (same : source.replace target a = source.replace target b) :
    a = b := by
  unfold TypeName.replace at same
  by_cases moved : a = source <;> by_cases moved' : b = source
  · rw [moved, moved']
  · rw [if_pos moved, if_neg moved'] at same
    exact absurd same.symm (second.resolve_left moved')
  · rw [if_neg moved, if_pos moved'] at same
    exact absurd same first
  · rwa [if_neg moved, if_neg moved'] at same

/-- A class gets a new name in a piece of a program. If the piece does not refer to the instance of
a class of that name, and is not the body of one, then the analysis finds the same references before
and after, in the same order and up to the name. -/
theorem analysis_commutes_with_renaming {source target : TypeName} {own : Option TypeName}
    {ns : List Node} (body : own = some source ∨ own ≠ some target)
    (absent : .expr (.this target) ∉ preorderAll ns)
    (plain : ∀ x cls, .expr (.var x) ∈ preorderAll ns → x.id ≠ .thisOf cls) :
    freeReferences (own.map (source.replace target))
        (ns.map (Node.rename (source.replace target))) =
      (freeReferences own ns).map (Reference.rename (source.replace target)) := by
  apply free_references_rename plain
  intro a b occurs whose
  apply replacement_apart
  · rintro rfl
    exact absent occurs
  · rcases whose with there | rfl
    · right
      rintro rfl
      exact absent there
    · exact body.imp Option.some.inj fun other same => other (congrArg some same)

def Variable.linked : Variable :=
  ⟨((Identifier.top.type ⟨"a.Outer"⟩).method "run").var "last", "last", .scalar ⟨"a.Outer$1"⟩⟩

/-- A method of the anonymous class. It reads its own instance, that of the class around it, and the
variable from outside several times. -/
def Method.linking : Method :=
  ⟨"link", false, [], [], .scalar ⟨"a.Outer$1"⟩,
    [.expr (.assign (.var .linked) (.this ⟨"a.Outer$1"⟩)),
      .expr (.methodCall (.this ⟨"a.Outer"⟩) "log" [.var .linked] [] .unit),
      .ret (some (.var .linked))]⟩

theorem linking_analysis_commutes :
    freeReferences (some ⟨"a.Outer_Anonymous_0"⟩)
        [.method (Method.linking.rename (TypeName.replace ⟨"a.Outer$1"⟩ ⟨"a.Outer_Anonymous_0"⟩))] =
      (freeReferences (some ⟨"a.Outer$1"⟩) [.method .linking]).map
        (Reference.rename (TypeName.replace ⟨"a.Outer$1"⟩ ⟨"a.Outer_Anonymous_0"⟩)) ∧
    freeReferences (some ⟨"a.Outer$1"⟩) [.method .linking] =
      [.variable .linked, .this ⟨"a.Outer"⟩] := by
  have reads : (preorderAll [.method .linking]).filterMap Node.reference? =
      [.variable .linked, .this ⟨"a.Outer$1"⟩, .this ⟨"a.Outer"⟩, .variable .linked,
        .variable .linked] := rfl
  have among : ∀ ref, .expr (.reference ref) ∈ preorderAll [.method .linking] →
      ref = .variable .linked ∨ ref = .this ⟨"a.Outer$1"⟩ ∨ ref = .this ⟨"a.Outer"⟩ := by
    intro ref inside
    have read : ref ∈ (preorderAll [.method .linking]).filterMap Node.reference? :=
      List.mem_filterMap.mpr ⟨_, inside, rfl⟩
    rw [reads] at read
    simp only [List.mem_cons, List.not_mem_nil, or_false] at read
    tauto
  have absent : .expr (.this ⟨"a.Outer_Anonymous_0"⟩) ∉ preorderAll [.method .linking] := by
    intro inside
    exact absurd (among _ inside) (by decide)
  have plain : ∀ x cls, .expr (.var x) ∈ preorderAll [.method .linking] → x.id ≠ .thisOf cls := by
    intro x cls inside
    rcases among _ inside with same | same | same <;> cases same
    simp [Variable.linked, Identifier.var, Identifier.child, Identifier.thisOf]
  exact ⟨analysis_commutes_with_renaming (Or.inl rfl) absent plain, by decide +kernel⟩

end ClosureLift
