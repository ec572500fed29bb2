import ClosureLift.Program.Free
import ClosureLift.Proofs.Program.Scoping
import Mathlib.Tactic.SplitIfs

/-!
The type parameters that some parts use without binding them. They stand in ascending order, by
their declaration and then by their name, and texts are compared byte by byte; so each stands there
once. Renaming classes renames what is used and what is bound alike, and so leaves nothing unbound
that was bound before.
-/
namespace ClosureLift

def bytes (s : String) : List UInt8 := s.toUTF8.data.toList

theorem bytes_eq (s : String) : bytes s = s.toList.flatMap String.utf8EncodeChar := by
  rw [bytes, String.toUTF8, ← String.ofList_toList (s := s), String.toByteArray_ofList,
    List.utf8Encode, List.data_toByteArray, String.toList_ofList]

theorem char_bytes_lt {c d : Char} (less : c < d) (xs ys : List UInt8) :
    String.utf8EncodeChar c ++ xs < String.utf8EncodeChar d ++ ys := by
  have less : c.val.toNat < d.val.toNat := less
  have bound : d.val.toNat < 0x110000 := by
    rcases d.valid with low | high
    · have low : d.val.toNat < 0xd800 := low
      omega
    · exact high.2
  simp only [String.utf8EncodeChar]
  generalize c.val.toNat = m at less ⊢
  generalize d.val.toNat = n at less bound ⊢
  -- The groups of six bits, from the last one up: where one does not grow, the next one does.
  have last : m / 64 < n / 64 ∨ m / 64 = n / 64 ∧ m % 64 < n % 64 := by omega
  have third : m / 64 < n / 64 →
      m / 4096 < n / 4096 ∨ m / 4096 = n / 4096 ∧ m / 64 % 64 < n / 64 % 64 := by omega
  have second : m / 4096 < n / 4096 →
      m / 262144 < n / 262144 ∨ m / 262144 = n / 262144 ∧ m / 4096 % 64 < n / 4096 % 64 := by omega
  split_ifs
  all_goals
    simp (disch := omega) only [List.cons_append, List.cons_lt_cons_iff, UInt8.lt_iff_toNat_lt,
      ← UInt8.toNat_inj, UInt8.toNat_ofNat', Nat.mod_eq_of_lt]
  all_goals omega

theorem bytes_lt {a b : String} (less : a < b) : bytes a < bytes b := by
  rw [bytes_eq, bytes_eq]
  have less : a.toList < b.toList := less
  generalize a.toList = cs at less ⊢
  generalize b.toList = ds at less ⊢
  induction cs generalizing ds with
  | nil =>
    cases ds with
    | nil => cases less
    | cons d ds =>
      have nonempty : 0 < (String.utf8EncodeChar d).length := by
        rw [String.length_utf8EncodeChar]
        exact d.utf8Size_pos
      cases first : String.utf8EncodeChar d with
      | nil => simp [first] at nonempty
      | cons byte more =>
        rw [List.flatMap_nil, List.flatMap_cons, first]
        exact List.nil_lt_cons _ _
  | cons c cs ih =>
    cases ds with
    | nil => cases less
    | cons d ds =>
      rw [List.flatMap_cons, List.flatMap_cons]
      rcases List.cons_lt_cons_iff.mp less with lower | ⟨rfl, later⟩
      · exact char_bytes_lt lower _ _
      · exact List.append_left_lt (ih ds later)

namespace TypeParameter

theorem order_exact (p q : TypeParameter) (same : p.order q = .eq) : p = q := by
  obtain ⟨⟨declaration⟩, name⟩ := p
  obtain ⟨⟨declaration'⟩, name'⟩ := q
  rw [order, Ordering.then_eq_eq, Std.compare_eq_iff_eq, Std.compare_eq_iff_eq] at same
  simp only at same
  rw [same.1, same.2]

instance : Std.TransCmp order :=
  inferInstanceAs (Std.TransCmp (compareLex
    (compareOn fun p : TypeParameter => p.declaration.qualified)
    (compareOn fun p : TypeParameter => p.name)))

/-- By the bytes of the declaration, then by those of the name. -/
def Precedes (p q : TypeParameter) : Prop :=
  bytes p.declaration.qualified < bytes q.declaration.qualified ∨
    p.declaration = q.declaration ∧ bytes p.name < bytes q.name

theorem precedes_of_order {p q : TypeParameter} (less : p.order q = .lt) : p.Precedes q := by
  obtain ⟨⟨declaration⟩, name⟩ := p
  obtain ⟨⟨declaration'⟩, name'⟩ := q
  rw [order, Ordering.then_eq_lt, Std.compare_eq_iff_eq] at less
  rcases less with lower | ⟨same, lower⟩
  · exact Or.inl (bytes_lt (compareOfLessAndEq_eq_lt.mp lower))
  · exact Or.inr ⟨congrArg TypeName.mk same, bytes_lt (compareOfLessAndEq_eq_lt.mp lower)⟩

end TypeParameter

namespace Ty

theorem list_rename (σ : TypeName → TypeName) (tys : List Ty) :
    renameAll σ tys = tys.map (rename σ) := by
  induction tys with
  | nil => rfl
  | cons ty rest ih => rw [renameAll, ih, List.map_cons]

mutual

theorem parameters_rename (σ : TypeName → TypeName) : (ty : Ty) →
    (ty.rename σ).parameters = ty.parameters.map (·.rename σ)
  | .scalar _ => rfl
  | .parameter _ => rfl
  | .bound _ value => parameters_rename σ value
  | .parameterized _ args => parameters_all_rename σ args

theorem parameters_all_rename (σ : TypeName → TypeName) : (tys : List Ty) →
    parametersAll (renameAll σ tys) = (parametersAll tys).map (·.rename σ)
  | [] => rfl
  | ty :: rest => by
    rw [renameAll, parametersAll, parametersAll, List.map_append, parameters_rename σ ty,
      parameters_all_rename σ rest]

end

end Ty

namespace Node

def uses (n : Node) : List TypeParameter := n.types.flatMap Ty.parameters

def gathered (f : Node → List α) (ns : List Node) : List α := (preorderAll ns).flatMap f

section

variable (f : Node → List α)

theorem mem_gathered {ns : List Node} {a : α} :
    a ∈ gathered f ns ↔ ∃ n ∈ preorderAll ns, a ∈ f n :=
  List.mem_flatMap

theorem gathered_append (ms ns : List Node) :
    gathered f (ms ++ ns) = gathered f ms ++ gathered f ns := by
  rw [gathered, preorderAll_append, List.flatMap_append]
  rfl

theorem gathered_cons (n : Node) (ns : List Node) :
    gathered f (n :: ns) = f n ++ (gathered f n.children ++ gathered f ns) := by
  simp [gathered, preorder_eq]

theorem gathered_rename {σ : TypeName → TypeName} {g : α → α}
    (one : ∀ n : Node, f (n.rename σ) = (f n).map g) (ns : List Node) :
    gathered f (ns.map (rename σ)) = (gathered f ns).map g := by
  simp only [gathered, preorderAll_rename, List.flatMap_map, List.map_flatMap, one]

end

theorem types_bare (n : Node) : n.bare.types = n.types := by
  cases n with
  | stmt s => cases s <;> rfl
  | expr e =>
    cases e with
    | reference ref => cases ref <;> rfl
    | _ => rfl
  | _ => rfl

theorem binds_bare (n : Node) : n.bare.binds = n.binds := by
  cases n <;> rfl

theorem types_rename (σ : TypeName → TypeName) (n : Node) :
    (n.rename σ).types = n.types.map (Ty.rename σ) := by
  have typed : ∀ xs : List Variable,
      (xs.map (·.rename σ)).map (·.ty) = (xs.map (·.ty)).map (Ty.rename σ) := by
    intro xs
    rw [List.map_map, List.map_map]
    rfl
  have signed : ∀ (before after : List Ty) (result : Ty), after = before.map (Ty.rename σ) →
      after ++ [result.rename σ] = (before ++ [result]).map (Ty.rename σ) := by
    rintro before _ result rfl
    rw [List.map_append, List.map_singleton]
  cases n with
  | cls c => rfl
  | field f => rfl
  | constructor c => exact typed c.params
  | method m =>
    obtain ⟨_, _, _, params, returnType, _⟩ := m
    exact signed _ _ returnType (typed params)
  | stmt s =>
    cases s with
    | ret value => cases value <;> rfl
    | _ => rfl
  | expr e =>
    cases e with
    | reference ref => cases ref <;> rfl
    | methodCall receiver method args typeArgs ty => exact Ty.list_rename σ typeArgs
    | staticCall cls method args typeArgs ty => exact Ty.list_rename σ typeArgs
    | lambda closure =>
      obtain ⟨_, _, params, returnType, _, _⟩ := closure
      exact signed _ _ returnType (typed params)
    | methodReference closure =>
      obtain ⟨_, _, paramTypes, returnType, _, _, _⟩ := closure
      exact signed _ _ returnType (Ty.list_rename σ paramTypes)
    | _ => rfl

theorem uses_rename (σ : TypeName → TypeName) (n : Node) :
    (n.rename σ).uses = n.uses.map (·.rename σ) := by
  simp only [uses, types_rename, List.flatMap_map, List.map_flatMap, Ty.parameters_rename]

theorem binds_rename (σ : TypeName → TypeName) (n : Node) :
    (n.rename σ).binds = n.binds.map (·.rename σ) := by
  cases n with
  | method m =>
    cases m
    rfl
  | _ => rfl

theorem code_binds_nothing {n : Node} (code : n.isCode = true) (free : ClosureFree [n]) :
    gathered binds [n] = [] := by
  -- Type parameters are bound by classes and methods, and code without closures holds neither.
  induction n using by_children with
  | step n ih =>
    have plain := free.self List.mem_cons_self
    have own : n.binds = [] := by
      cases n with
      | stmt | expr => rfl
      | _ => cases code
    have under : ∀ c ∈ n.children, gathered binds [c] = [] := by
      intro c child
      exact ih c child (code_under code plain child)
        ((free.children List.mem_cons_self).one child)
    rw [gathered_cons, own, List.nil_append]
    rw [List.eq_nil_iff_forall_not_mem]
    intro p member
    rw [List.mem_append, mem_gathered, mem_gathered] at member
    rcases member with ⟨part, walked, binds⟩ | ⟨part, walked, _⟩
    · obtain ⟨c, child, inside⟩ := mem_preorderAll.mp walked
      have found : p ∈ gathered Node.binds [c] :=
        (mem_gathered _).mpr ⟨part, mem_preorderAll.mpr ⟨c, List.mem_cons_self, inside⟩, binds⟩
      rw [under c child] at found
      cases found
    · cases walked

end Node

open Node (gathered)

theorem mem_free_type_parameters {ns : List Node} {p : TypeParameter} :
    p ∈ freeTypeParameters ns ↔ p ∈ gathered Node.uses ns ∧ p ∉ gathered Node.binds ns := by
  rw [freeTypeParameters, mem_sorted TypeParameter.order_exact, List.mem_filter, List.flatMap_assoc,
    Bool.not_eq_true', List.contains_eq_mem, decide_eq_false_iff_not]
  rfl

theorem no_free_type_parameter {ns : List Node} :
    freeTypeParameters ns = [] ↔ gathered Node.uses ns ⊆ gathered Node.binds ns := by
  rw [List.eq_nil_iff_forall_not_mem]
  constructor
  · intro none p used
    apply Classical.byContradiction
    intro unbound
    exact none p (mem_free_type_parameters.mpr ⟨used, unbound⟩)
  · intro bound p member
    obtain ⟨used, unbound⟩ := mem_free_type_parameters.mp member
    exact unbound (bound used)

theorem free_type_parameters_ascending (ns : List Node) :
    (freeTypeParameters ns).Pairwise TypeParameter.Precedes ∧ (freeTypeParameters ns).Nodup := by
  have ascending : (freeTypeParameters ns).Pairwise (TypeParameter.order · · = .lt) :=
    sorted_ascending TypeParameter.order_exact _
  refine ⟨ascending.imp TypeParameter.precedes_of_order, ascending.imp ?_⟩
  rintro p _ less rfl
  have same : p.order p = .eq := Std.ReflCmp.compare_self
  rw [same] at less
  cases less

theorem no_free_type_parameter_rename (σ : TypeName → TypeName) {ns : List Node}
    (none : freeTypeParameters ns = []) : freeTypeParameters (ns.map (Node.rename σ)) = [] := by
  rw [no_free_type_parameter] at none ⊢
  rw [Node.gathered_rename _ (Node.uses_rename σ), Node.gathered_rename _ (Node.binds_rename σ)]
  exact List.map_subset _ none

end ClosureLift
