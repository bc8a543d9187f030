import TemplateResolution.Pattern.Basic

/-!
# Ascending numbers

Patterns are numbered in the order of registration, so lists of numbers that
come from different places are put into that order by sorting.  `ascending` does
it by insertion; it loses nothing (`ascending_perm`) and the result is sorted
(`pairwise_ascending`), which leaves no choice (`ascending_eq`).
-/

namespace TemplateResolution

/-- Puts a number into an ascending list, in front of the first that is not below it. -/
def insertAscending (id : PatternId) : List PatternId → List PatternId
  | [] => [id]
  | i :: rest => if id ≤ i then id :: i :: rest else i :: insertAscending id rest

/-- The numbers of a list in ascending order. -/
def ascending (ids : List PatternId) : List PatternId := ids.foldr insertAscending []

theorem insertAscending_perm (id : PatternId) (l : List PatternId) :
    (insertAscending id l).Perm (id :: l) := by
  induction l with
  | nil => exact .refl _
  | cons i rest ih =>
    rw [insertAscending]
    split
    · exact .refl _
    · exact (ih.cons i).trans (.swap id i rest)

theorem ascending_perm (l : List PatternId) : (ascending l).Perm l := by
  induction l with
  | nil => exact .refl _
  | cons i rest ih => exact (insertAscending_perm i (ascending rest)).trans (ih.cons i)

@[simp] theorem mem_ascending {id : PatternId} {l : List PatternId} :
    id ∈ ascending l ↔ id ∈ l :=
  (ascending_perm l).mem_iff

theorem pairwise_insertAscending {id : PatternId} {l : List PatternId}
    (h : l.Pairwise (· ≤ ·)) : (insertAscending id l).Pairwise (· ≤ ·) := by
  induction l with
  | nil => exact .cons (fun _ hi => absurd hi List.not_mem_nil) .nil
  | cons i rest ih =>
    rw [insertAscending]
    rcases List.pairwise_cons.1 h with ⟨hi, hrest⟩
    split
    · rename_i hle
      refine List.pairwise_cons.2 ⟨fun j hj => ?_, h⟩
      rcases List.mem_cons.1 hj with rfl | hj
      · exact hle
      · exact Nat.le_trans hle (hi j hj)
    · rename_i hlt
      refine List.pairwise_cons.2 ⟨fun j hj => ?_, ih hrest⟩
      rcases List.mem_cons.1 ((insertAscending_perm id rest).mem_iff.1 hj) with rfl | hj
      · exact Nat.le_of_lt (Nat.lt_of_not_le hlt)
      · exact hi j hj

theorem pairwise_ascending (l : List PatternId) : (ascending l).Pairwise (· ≤ ·) := by
  induction l with
  | nil => exact .nil
  | cons i rest ih => exact pairwise_insertAscending ih

/-- The numbers of a list are put into ascending order in one way only. -/
theorem ascending_eq {l sorted : List PatternId} (hperm : l.Perm sorted)
    (hsorted : sorted.Pairwise (· < ·)) : ascending l = sorted :=
  List.Perm.eq_of_pairwise (fun _ _ _ _ => Nat.le_antisymm) (pairwise_ascending l)
    (hsorted.imp fun h => Nat.le_of_lt h) ((ascending_perm l).trans hperm)

end TemplateResolution
