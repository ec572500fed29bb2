import ClosureLift.Program.Free
import ClosureLift.Proofs.Program.Closures

/-!
The free references of a piece are found by key: each free reference of the walk has its key among
them, once, and each of them is a free reference of the walk.
-/
namespace ClosureLift

section

variable [BEq κ] [LawfulBEq κ] {key : α → κ}

theorem distinct_subset {seen : List κ} {as : List α} {a : α}
    (member : a ∈ distinct key seen as) : a ∈ as ∧ key a ∉ seen := by
  induction as generalizing seen with
  | nil => simp [distinct] at member
  | cons b rest ih =>
    simp only [distinct] at member
    split at member
    · have later := ih member
      exact ⟨List.mem_cons_of_mem b later.1, later.2⟩
    · rename_i unseen
      rcases List.mem_cons.mp member with same | later
      · subst same
        exact ⟨List.mem_cons_self, by simpa using unseen⟩
      · have found := ih later
        refine ⟨List.mem_cons_of_mem b found.1, ?_⟩
        intro inSeen
        exact found.2 (List.mem_cons_of_mem _ inSeen)

theorem distinct_keys_nodup (seen : List κ) (as : List α) :
    ((distinct key seen as).map key).Nodup := by
  induction as generalizing seen with
  | nil => simp [distinct]
  | cons b rest ih =>
    simp only [distinct]
    split
    · exact ih seen
    · rw [List.map_cons, List.nodup_cons]
      refine ⟨?_, ih (key b :: seen)⟩
      intro member
      obtain ⟨a, found, same⟩ := List.mem_map.mp member
      apply (distinct_subset found).2
      rw [same]
      exact List.mem_cons_self

theorem distinct_covers {seen : List κ} {as : List α} {a : α} (member : a ∈ as)
    (unseen : key a ∉ seen) : key a ∈ (distinct key seen as).map key := by
  induction as generalizing seen with
  | nil => simp at member
  | cons b rest ih =>
    simp only [distinct]
    split
    · rename_i known
      rcases List.mem_cons.mp member with same | later
      · subst same
        exact absurd (by simpa using known) unseen
      · exact ih later unseen
    · rw [List.map_cons, List.mem_cons]
      by_cases same : key a = key b
      · exact Or.inl same
      · have later : a ∈ rest := by
          rcases List.mem_cons.mp member with first | later
          · exact absurd (by rw [first]) same
          · exact later
        right
        apply ih later
        intro known
        rcases List.mem_cons.mp known with first | old
        · exact same first
        · exact unseen old

end

namespace Node

def declared (ns : List Node) : List Identifier :=
  ((preorderAll ns).flatMap declares).map (·.id)

theorem reference_eq_some {n : Node} {ref : Reference} :
    n.reference? = some ref ↔ n = .expr (.reference ref) := by
  cases n with
  | expr e =>
    cases e with
    | reference r => simp [reference?]
    | _ => simp [reference?]
  | _ => simp [reference?]

theorem mem_declared {ns : List Node} {id : Identifier} :
    id ∈ declared ns ↔ ∃ n ∈ preorderAll ns, ∃ x ∈ n.declares, x.id = id := by
  simp only [declared, List.mem_map, List.mem_flatMap]
  constructor
  · rintro ⟨x, ⟨n, member, declares⟩, same⟩
    exact ⟨n, member, x, declares, same⟩
  · rintro ⟨n, member, x, declares, same⟩
    exact ⟨x, ⟨n, member, declares⟩, same⟩

end Node

variable {own : Option TypeName} {ns : List Node} {ref : Reference}

theorem free_reference_occurs (member : ref ∈ freeReferences own ns) :
    .expr (.reference ref) ∈ Node.preorderAll ns ∧ ref.isFree (Node.declared ns) own = true := by
  have found := (distinct_subset member).1
  rw [List.mem_filter, List.mem_filterMap] at found
  obtain ⟨⟨n, inWalk, reads⟩, free⟩ := found
  rw [Node.reference_eq_some] at reads
  subst reads
  exact ⟨inWalk, free⟩

theorem free_reference_keys_nodup (own : Option TypeName) (ns : List Node) :
    ((freeReferences own ns).map Reference.key).Nodup :=
  distinct_keys_nodup _ _

theorem free_reference_key_found (occurs : .expr (.reference ref) ∈ Node.preorderAll ns)
    (free : ref.isFree (Node.declared ns) own = true) :
    ref.key ∈ (freeReferences own ns).map Reference.key := by
  apply distinct_covers _ (by simp)
  rw [List.mem_filter, List.mem_filterMap]
  exact ⟨⟨_, occurs, rfl⟩, free⟩

theorem no_free_reference :
    freeReferences own ns = [] ↔
      ∀ ref, .expr (.reference ref) ∈ Node.preorderAll ns →
        ref.isFree (Node.declared ns) own = false := by
  constructor
  · intro none ref occurs
    cases free : ref.isFree (Node.declared ns) own with
    | false => rfl
    | true =>
      have found := free_reference_key_found occurs free
      rw [none] at found
      cases found
  · intro bound
    rw [List.eq_nil_iff_forall_not_mem]
    intro ref member
    obtain ⟨occurs, free⟩ := free_reference_occurs member
    rw [bound ref occurs] at free
    cases free

end ClosureLift
