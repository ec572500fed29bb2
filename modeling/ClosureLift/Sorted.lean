/-!
Ascending lists without repetitions. Sorting keeps the elements of a list and puts them in strictly
ascending order, so that each stands in the result once.
-/
namespace ClosureLift

/-- Puts an element at its place in an ascending list, unless an equal one is there. -/
def insertSorted (order : α → α → Ordering) (a : α) : List α → List α
  | [] => [a]
  | b :: rest =>
    match order a b with
    | .lt => a :: b :: rest
    | .eq => b :: rest
    | .gt => b :: insertSorted order a rest

def sorted (order : α → α → Ordering) (as : List α) : List α :=
  as.foldr (insertSorted order) []

theorem mem_insert_sorted {order : α → α → Ordering} (exact : ∀ a b, order a b = .eq → a = b)
    (a c : α) (as : List α) : c ∈ insertSorted order a as ↔ c = a ∨ c ∈ as := by
  induction as with
  | nil => simp [insertSorted]
  | cons b rest ih =>
    simp only [insertSorted]
    cases compared : order a b with
    | lt => simp
    | eq =>
      rw [exact a b compared]
      simp
    | gt =>
      simp only [List.mem_cons, ih]
      constructor
      · rintro (same | same | member)
        · exact Or.inr (Or.inl same)
        · exact Or.inl same
        · exact Or.inr (Or.inr member)
      · rintro (same | same | member)
        · exact Or.inr (Or.inl same)
        · exact Or.inl same
        · exact Or.inr (Or.inr member)

theorem mem_sorted {order : α → α → Ordering} (exact : ∀ a b, order a b = .eq → a = b)
    (c : α) (as : List α) : c ∈ sorted order as ↔ c ∈ as := by
  induction as with
  | nil => rfl
  | cons a rest ih =>
    have inserted := mem_insert_sorted exact a c (sorted order rest)
    rw [ih] at inserted
    rw [List.mem_cons, ← inserted]
    rfl

section

variable {order : α → α → Ordering} [Std.TransCmp order] (exact : ∀ a b, order a b = .eq → a = b)
include exact

theorem insert_ascending (a : α) {as : List α} (ascending : as.Pairwise (order · · = .lt)) :
    (insertSorted order a as).Pairwise (order · · = .lt) := by
  induction as with
  | nil => exact List.pairwise_singleton _ a
  | cons b rest ih =>
    obtain ⟨least, later⟩ := List.pairwise_cons.mp ascending
    simp only [insertSorted]
    cases compared : order a b with
    | lt =>
      refine List.pairwise_cons.mpr ⟨?_, ascending⟩
      intro c member
      rcases List.mem_cons.mp member with rfl | above
      · exact compared
      · exact Std.TransCmp.lt_trans compared (least c above)
    | eq => exact ascending
    | gt =>
      refine List.pairwise_cons.mpr ⟨?_, ih later⟩
      intro c member
      rcases (mem_insert_sorted exact a c rest).mp member with rfl | above
      · exact Std.OrientedCmp.gt_iff_lt.mp compared
      · exact least c above

theorem sorted_ascending (as : List α) : (sorted order as).Pairwise (order · · = .lt) := by
  induction as with
  | nil => exact .nil
  | cons a rest ih => exact insert_ascending exact a ih

end

end ClosureLift
