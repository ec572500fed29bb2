import ClosureLift.Proofs.Program.Free
import ClosureLift.Proofs.Program.Places

/-!
An expression that gives way to another. What leaves a piece of a program depends on all of its
walk, so a new expression at one place can bind or unbind references anywhere. It does not if it
declares no more than the old one, the declarations that are gone were not read outside, and the
references that leave the two expressions have the same first occurrences.
-/
namespace ClosureLift

open Node (declared at? putAt)

theorem distinct_after [BEq κ] {key : α → κ} {as bs : List α}
    (same : ∀ seen, distinct key seen as = distinct key seen bs) (seen : List κ) (cs : List α) :
    distinct key seen (cs ++ as) = distinct key seen (cs ++ bs) := by
  induction cs generalizing seen with
  | nil => exact same seen
  | cons c rest ih =>
    rw [List.cons_append, List.cons_append, distinct, distinct, ih seen, ih (key c :: seen)]

section

variable [BEq κ] [LawfulBEq κ] {key : α → κ}

theorem distinct_known {seen : List κ} {a : α} (known : key a ∈ seen) (rest : List α) :
    distinct key seen (a :: rest) = distinct key seen rest := by
  rw [distinct, if_pos (List.contains_iff_mem.mpr known)]

theorem distinct_new {seen : List κ} {a : α} (new : key a ∉ seen) (rest : List α) :
    distinct key seen (a :: rest) = a :: distinct key (key a :: seen) rest := by
  rw [distinct, if_neg (fun known => new (List.contains_iff_mem.mp known))]

theorem distinct_congr {seen seen' : List κ} {as : List α}
    (same : ∀ a ∈ as, key a ∈ seen ↔ key a ∈ seen') :
    distinct key seen as = distinct key seen' as := by
  induction as generalizing seen seen' with
  | nil => rfl
  | cons a rest ih =>
    obtain ⟨here, later⟩ := List.forall_mem_cons.mp same
    by_cases known : key a ∈ seen
    · rw [distinct_known known, distinct_known (here.mp known), ih later]
    · rw [distinct_new known, distinct_new (fun other => known (here.mpr other))]
      apply congrArg
      apply ih
      intro b member
      rw [List.mem_cons, List.mem_cons, later b member]

theorem distinct_filter {p : α → Bool} (seen : List κ) {as : List α}
    (depends : ∀ a ∈ as, ∀ b ∈ as, key a = key b → p a = p b) :
    distinct key seen (as.filter p) = (distinct key seen as).filter p := by
  induction as generalizing seen with
  | nil => rfl
  | cons a rest ih =>
    have later : ∀ b ∈ rest, ∀ c ∈ rest, key b = key c → p b = p c := by
      intro b first c second
      exact depends b (List.mem_cons_of_mem a first) c (List.mem_cons_of_mem a second)
    by_cases chosen : p a = true
    · rw [List.filter_cons_of_pos chosen]
      by_cases known : key a ∈ seen
      · rw [distinct_known known, distinct_known known, ih seen later]
      · rw [distinct_new known, distinct_new known, List.filter_cons_of_pos chosen,
          ih (key a :: seen) later]
    · rw [List.filter_cons_of_neg chosen]
      by_cases known : key a ∈ seen
      · rw [distinct_known known, ih seen later]
      · rw [distinct_new known, List.filter_cons_of_neg chosen, ← ih (key a :: seen) later]
        -- Nothing that is chosen from the rest has the key that was not chosen here.
        apply distinct_congr
        intro b member
        obtain ⟨among, good⟩ := List.mem_filter.mp member
        rw [List.mem_cons]
        constructor
        · exact Or.inr
        · rintro (same | before)
          · rw [depends b (List.mem_cons_of_mem a among) a List.mem_cons_self same] at good
            exact absurd good chosen
          · exact before

theorem distinct_absorb {known seen : List κ} (within : known ⊆ seen) (as bs : List α) :
    distinct key seen (distinct key known as ++ bs) = distinct key seen (as ++ bs) := by
  induction as generalizing known seen with
  | nil => rfl
  | cons a rest ih =>
    rw [List.cons_append]
    by_cases old : key a ∈ known
    · rw [distinct_known old, distinct_known (within old), ih within]
    · rw [distinct_new old, List.cons_append]
      by_cases before : key a ∈ seen
      · rw [distinct_known before, distinct_known before,
          ih (List.cons_subset.mpr ⟨before, within⟩)]
      · rw [distinct_new before, distinct_new before,
          ih (List.cons_subset_cons (key a) within)]

end

def leaving (own : Option TypeName) (ids : List Identifier) (walk : List Node) : List Reference :=
  (walk.filterMap Node.reference?).filter (·.isFree ids own)

section

variable {own : Option TypeName} {ids : List Identifier}

theorem leaving_append (first later : List Node) :
    leaving own ids (first ++ later) = leaving own ids first ++ leaving own ids later := by
  rw [leaving, List.filterMap_append, List.filter_append]
  rfl

theorem mem_leaving {walk : List Node} {ref : Reference} (member : ref ∈ leaving own ids walk) :
    .expr (.reference ref) ∈ walk := by
  obtain ⟨n, among, reads⟩ := List.mem_filterMap.mp (List.mem_filter.mp member).1
  rw [← Node.reference_eq_some.mp reads]
  exact among

theorem leaving_congr {ids' : List Identifier} {walk : List Node}
    (same : ∀ x, .expr (.var x) ∈ walk → (x.id ∈ ids ↔ x.id ∈ ids')) :
    leaving own ids walk = leaving own ids' walk := by
  apply List.filter_congr
  intro ref member
  obtain ⟨n, among, reads⟩ := List.mem_filterMap.mp member
  rw [Node.reference_eq_some.mp reads] at among
  cases ref with
  | «variable» x => simp only [Reference.isFree, List.contains_eq_mem, same x among]
  | this cls => rfl

end

theorem alike_walk {f : Node → List α} (own : ∀ n, f n.bare = f n) {ms ns : List Node}
    (alike : ms.map Node.bare = ns.map Node.bare) : ms.flatMap f = ns.flatMap f := by
  have bare : ∀ ns : List Node, ns.flatMap f = (ns.map Node.bare).flatMap f := by
    intro ns
    rw [List.flatMap_map]
    exact List.flatMap_congr fun n _ => (own n).symm
  rw [bare ms, alike, ← bare ns]

/-- An expression gives way to another. Let the new one declare nothing more, and let nothing
outside read what the old one declares. If the references that leave the one and the other count the
same, then what leaves the parts around them is the same. -/
theorem free_references_put {own : Option TypeName} {ns : List Node} {place : List Nat}
    {old new : Expr} (there : at? ns place = some (.expr old))
    (apart : ∀ other x, ¬ place <+: other → at? ns other = some (.expr (.var x)) →
      x.id ∉ declared [.expr old])
    (fewer : declared [.expr new] ⊆ declared [.expr old])
    (same : ∀ ids seen rest,
      distinct Reference.key seen
        (leaving own (ids ++ declared [.expr new]) new.nodes ++ rest) =
      distinct Reference.key seen
        (leaving own (ids ++ declared [.expr old]) old.nodes ++ rest)) :
    freeReferences own (putAt ns new place) = freeReferences own ns := by
  obtain ⟨before, before', after, walk, walk', alike, outside⟩ := Node.put_at_walk there new
  have declares := alike_walk (fun n => (Node.bare_same n).1) alike
  have reads : before'.filterMap Node.reference? = before.filterMap Node.reference? := by
    rw [List.filterMap_eq_flatMap_toList, List.filterMap_eq_flatMap_toList]
    exact alike_walk (fun n => congrArg Option.toList (Node.bare_same n).2.2.2) alike
  generalize outer : ((before ++ after).flatMap Node.declares).map (·.id) = ids
  have within : ∀ id, id ∈ declared ns ↔ id ∈ ids ++ declared [.expr old] := by
    intro id
    rw [declared, walk, ← outer]
    simp only [declared, Node.preorderAll_cons, Node.preorderAll_nil, Node.preorder,
      List.flatMap_append, List.map_append, List.mem_append, List.append_nil]
    tauto
  have within' : ∀ id, id ∈ declared (putAt ns new place) ↔ id ∈ ids ++ declared [.expr new] := by
    intro id
    rw [declared, walk', ← outer]
    simp only [declared, Node.preorderAll_cons, Node.preorderAll_nil, Node.preorder,
      List.flatMap_append, declares, List.map_append, List.mem_append, List.append_nil]
    tauto
  -- Outside, neither the declarations of the old expression nor those of the new one are read.
  have beside : ∀ walk : List Node, walk ⊆ before ++ after →
      leaving own (ids ++ declared [.expr new]) walk =
        leaving own (ids ++ declared [.expr old]) walk := by
    intro walk among
    apply leaving_congr
    intro x read
    obtain ⟨other, place, different⟩ := outside _ (among read)
    have absent := apart other x different place
    have absent' : x.id ∉ declared [.expr new] := fun member => absent (fewer member)
    simp only [List.mem_append, absent, absent']
  have moved : leaving own (ids ++ declared [.expr new]) before' =
      leaving own (ids ++ declared [.expr new]) before := by
    rw [leaving, reads]
    rfl
  calc freeReferences own (putAt ns new place)
      = distinct Reference.key [] (leaving own (ids ++ declared [.expr new])
          (before' ++ (new.nodes ++ after))) := by
        rw [← walk', ← leaving_congr fun x _ => within' x.id]
        rfl
    _ = distinct Reference.key [] (leaving own (ids ++ declared [.expr old]) before ++
          (leaving own (ids ++ declared [.expr new]) new.nodes ++
            leaving own (ids ++ declared [.expr old]) after)) := by
        rw [leaving_append, leaving_append, moved, beside before (List.subset_append_left _ _),
          beside after (List.subset_append_right _ _)]
    _ = distinct Reference.key [] (leaving own (ids ++ declared [.expr old]) before ++
          (leaving own (ids ++ declared [.expr old]) old.nodes ++
            leaving own (ids ++ declared [.expr old]) after)) :=
        distinct_after (fun seen => same ids seen _) [] _
    _ = freeReferences own ns := by
        rw [← leaving_append, ← leaving_append, ← walk, ← leaving_congr fun x _ => within x.id]
        rfl

end ClosureLift
