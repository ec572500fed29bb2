import ClosureLift.Program.Free
import ClosureLift.Proofs.Program.Renaming

/-!
Which classes a part of a program mentions. A class is mentioned by its name, wherever one is
written: as a class or a supertype, in a type, as the declaration of a type parameter, by `this`, as
the interface or the static target of a closure and of a call. The identifiers of variables do not
count, nor does the name under which the front end filed an anonymous class; these are what renaming
leaves alone, so the mentions of a renamed part are the renamed mentions.
-/
namespace ClosureLift

namespace Ty

mutual

def mentions : Ty → List TypeName
  | .scalar name => [name]
  | .parameter p => [p.declaration]
  | .bound p value => p.declaration :: value.mentions
  | .parameterized raw args => raw :: mentionsAll args

def mentionsAll : List Ty → List TypeName
  | [] => []
  | ty :: rest => ty.mentions ++ mentionsAll rest

end

mutual

theorem mentions_rename (σ : TypeName → TypeName) : (ty : Ty) →
    (ty.rename σ).mentions = ty.mentions.map σ
  | .scalar name => rfl
  | .parameter p => rfl
  | .bound p value => by
    simp only [rename, mentions, List.map_cons, mentions_rename σ value, TypeParameter.rename]
  | .parameterized raw args => by
    simp only [rename, mentions, List.map_cons, mentions_all_rename σ args]

theorem mentions_all_rename (σ : TypeName → TypeName) : (tys : List Ty) →
    mentionsAll (renameAll σ tys) = (mentionsAll tys).map σ
  | [] => rfl
  | ty :: rest => by
    simp only [renameAll, mentionsAll, List.map_append, mentions_rename σ ty,
      mentions_all_rename σ rest]

end

theorem mem_mentions_all {name : TypeName} {tys : List Ty} :
    name ∈ mentionsAll tys ↔ ∃ ty ∈ tys, name ∈ ty.mentions := by
  induction tys with
  | nil => simp [mentionsAll]
  | cons ty rest ih => simp [mentionsAll, ih]

theorem mentions_of_types {ty : Ty} {tys : List Ty} (member : ty ∈ tys) :
    ty.mentions ⊆ mentionsAll tys :=
  fun _ inside => mem_mentions_all.mpr ⟨ty, member, inside⟩

mutual

theorem declaration_mentioned {p : TypeParameter} : (ty : Ty) → p ∈ ty.parameters →
    p.declaration ∈ ty.mentions
  | .scalar name, found => by cases found
  | .parameter q, found => by
    rw [List.mem_singleton.mp found]
    exact List.mem_singleton_self _
  | .bound q value, found => List.mem_cons_of_mem _ (declaration_mentioned value found)
  | .parameterized raw args, found => List.mem_cons_of_mem _ (declaration_in_all args found)

theorem declaration_in_all {p : TypeParameter} : (tys : List Ty) → p ∈ parametersAll tys →
    p.declaration ∈ mentionsAll tys
  | [], found => by cases found
  | ty :: rest, found => by
    rw [parametersAll, List.mem_append] at found
    rw [mentionsAll, List.mem_append]
    exact found.imp (declaration_mentioned ty) (declaration_in_all rest)

end

end Ty

def variableTypes (xs : List Variable) : List Ty := xs.map (·.ty)

theorem variable_types_rename (σ : TypeName → TypeName) (xs : List Variable) :
    Ty.mentionsAll (variableTypes (xs.map (·.rename σ))) =
      (Ty.mentionsAll (variableTypes xs)).map σ := by
  induction xs with
  | nil => rfl
  | cons x rest ih =>
    simp only [variableTypes, List.map_cons, Ty.mentionsAll, List.map_append] at ih ⊢
    rw [ih]
    simp only [Variable.rename, Ty.mentions_rename]

theorem declarations_rename (σ : TypeName → TypeName) (ps : List TypeParameter) :
    (ps.map (·.rename σ)).map (·.declaration) = (ps.map (·.declaration)).map σ := by
  simp only [List.map_map]
  rfl

def Target.mentions : Target → List TypeName
  | .static cls => [cls]
  | .instance _ => []

namespace Node

def ofExprMentions : Expr → List TypeName
  | .literal _ | .assign _ _ => []
  | .reference (.variable decl) => decl.ty.mentions
  | .reference (.this owner) => [owner]
  | .fieldAccess _ _ ty | .construct ty _ | .operation _ _ ty | .conditional _ _ _ ty => ty.mentions
  | .methodCall _ _ _ typeArgs ty => Ty.mentionsAll typeArgs ++ ty.mentions
  | .staticCall owner _ _ typeArgs ty => owner :: (Ty.mentionsAll typeArgs ++ ty.mentions)
  | .lambda closure =>
    closure.interface ::
      (Ty.mentionsAll (variableTypes closure.params) ++ closure.returnType.mentions)
  | .methodReference closure =>
    closure.interface :: (Ty.mentionsAll closure.paramTypes ++ closure.returnType.mentions ++
      closure.target.mentions)
  | .anonymousClass closure => closure.superTypes

def mentions : Node → List TypeName
  | .cls c => c.name :: (c.typeParams.map (·.declaration) ++ c.superTypes)
  | .field f => f.ty.mentions
  | .constructor c => Ty.mentionsAll (variableTypes c.params)
  | .method m =>
    m.typeParams.map (·.declaration) ++ Ty.mentionsAll (variableTypes m.params) ++
      m.returnType.mentions
  | .stmt (.decl x _) => x.ty.mentions
  | .stmt _ => []
  | .expr e => ofExprMentions e

theorem mentions_rename (σ : TypeName → TypeName) (n : Node) :
    (n.rename σ).mentions = n.mentions.map σ := by
  cases n with
  | cls c =>
    simp only [rename, mentions, Class.rename, declarations_rename, List.map_cons, List.map_append]
  | field f => exact f.ty.mentions_rename σ
  | constructor c => exact variable_types_rename σ c.params
  | method m =>
    cases m
    simp only [rename, mentions, Method.rename, declarations_rename, variable_types_rename,
      Ty.mentions_rename, List.map_append]
  | stmt s =>
    cases s with
    | decl x init => exact x.ty.mentions_rename σ
    | ret value => cases value <;> rfl
    | _ => rfl
  | expr e =>
    cases e with
    | literal value => rfl
    | reference ref =>
      cases ref with
      | «variable» decl => exact decl.ty.mentions_rename σ
      | this cls => rfl
    | lambda closure =>
      cases closure
      simp only [rename, mentions, Expr.rename, Lambda.rename, ofExprMentions,
        variable_types_rename, Ty.mentions_rename, List.map_cons, List.map_append]
    | methodReference closure =>
      obtain ⟨_, _, _, _, target, _, _⟩ := closure
      cases target <;>
        simp only [rename, mentions, Expr.rename, MethodReference.rename, Target.rename,
          ofExprMentions, Ty.mentions_all_rename, Ty.mentions_rename, Target.mentions,
          List.map_cons, List.map_append, List.map_nil]
    | anonymousClass closure =>
      cases closure
      rfl
    | _ =>
      simp only [rename, mentions, Expr.rename, ofExprMentions, Ty.mentions_all_rename,
        Ty.mentions_rename, List.map_cons, List.map_append, List.map_nil]

theorem mentions_bare (n : Node) : n.bare.mentions = n.mentions := by
  cases n with
  | stmt s =>
    cases s with
    | ret value => cases value <;> rfl
    | _ => rfl
  | expr e =>
    cases e with
    | methodReference closure =>
      obtain ⟨_, _, _, _, target, _, _⟩ := closure
      cases target <;> rfl
    | reference ref => cases ref <;> rfl
    | _ => rfl
  | _ => rfl

theorem types_mentioned {n : Node} {ty : Ty} (member : ty ∈ n.types) :
    ty.mentions ⊆ n.mentions := by
  intro name inside
  cases n with
  | cls c => cases member
  | field f =>
    rw [List.mem_singleton.mp member] at inside
    exact inside
  | constructor c => exact Ty.mentions_of_types member inside
  | method m =>
    simp only [types, List.mem_append, List.mem_singleton] at member
    simp only [mentions, List.mem_append]
    rcases member with among | rfl
    · exact Or.inl (Or.inr (Ty.mentions_of_types among inside))
    · exact Or.inr inside
  | stmt s =>
    cases s with
    | decl x init =>
      rw [List.mem_singleton.mp member] at inside
      exact inside
    | _ => cases member
  | expr e =>
    cases e with
    | reference ref =>
      cases ref with
      | «variable» decl =>
        rw [List.mem_singleton.mp member] at inside
        exact inside
      | this cls => cases member
    | methodCall receiver method args typeArgs ty' =>
      exact List.mem_append_left _ (Ty.mentions_of_types member inside)
    | staticCall cls method args typeArgs ty' =>
      exact List.mem_cons_of_mem _ (List.mem_append_left _ (Ty.mentions_of_types member inside))
    | construct ty' args =>
      rw [List.mem_singleton.mp member] at inside
      exact inside
    | lambda closure =>
      simp only [types, List.mem_append, List.mem_singleton] at member
      simp only [mentions, ofExprMentions, List.mem_cons, List.mem_append]
      rcases member with among | rfl
      · exact Or.inr (Or.inl (Ty.mentions_of_types among inside))
      · exact Or.inr (Or.inr inside)
    | methodReference closure =>
      simp only [types, List.mem_append, List.mem_singleton] at member
      simp only [mentions, ofExprMentions, List.mem_cons, List.mem_append]
      rcases member with among | rfl
      · exact Or.inr (Or.inl (Or.inl (Ty.mentions_of_types among inside)))
      · exact Or.inr (Or.inl (Or.inr inside))
    | _ => cases member

def mentioned (ns : List Node) : List TypeName := (preorderAll ns).flatMap mentions

theorem mem_mentioned {ns : List Node} {name : TypeName} :
    name ∈ mentioned ns ↔ ∃ n ∈ preorderAll ns, name ∈ n.mentions :=
  List.mem_flatMap

@[simp] theorem mentioned_nil : mentioned [] = [] := rfl

theorem mentioned_append (ms ns : List Node) :
    mentioned (ms ++ ns) = mentioned ms ++ mentioned ns := by
  rw [mentioned, preorderAll_append, List.flatMap_append]
  rfl

theorem mentioned_cons (n : Node) (ns : List Node) :
    mentioned (n :: ns) = n.mentions ++ (mentioned n.children ++ mentioned ns) := by
  simp [mentioned, preorder_eq]

theorem mentioned_one (n : Node) : mentioned [n] = n.mentions ++ mentioned n.children := by
  simp [mentioned, preorder_eq]

theorem mentioned_rename (σ : TypeName → TypeName) (ns : List Node) :
    mentioned (ns.map (rename σ)) = (mentioned ns).map σ := by
  simp only [mentioned, preorderAll_rename, List.flatMap_map, List.map_flatMap, mentions_rename]

end Node

/-- The classes that a class mentions, itself included. -/
def Class.mentions (c : Class) : List TypeName := Node.mentioned [.cls c]

theorem Class.mentions_rename (σ : TypeName → TypeName) (c : Class) :
    (c.rename σ).mentions = c.mentions.map σ :=
  Node.mentioned_rename σ [.cls c]

theorem replaced_name_gone {source target : TypeName} (other : target ≠ source)
    (names : List TypeName) : source ∉ names.map (source.replace target) := by
  intro member
  obtain ⟨name, _, same⟩ := List.mem_map.mp member
  unfold TypeName.replace at same
  split at same
  · exact other same
  · contradiction

theorem replacement_adds_nothing {source target name : TypeName} {names : List TypeName}
    (absent : name ∉ names) (other : target ≠ name) :
    name ∉ names.map (source.replace target) := by
  intro member
  obtain ⟨old, inside, same⟩ := List.mem_map.mp member
  unfold TypeName.replace at same
  split at same
  · exact other same
  · exact absent (same ▸ inside)

end ClosureLift
