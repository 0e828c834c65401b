import BlockProgram.Sorted

/-!
# Sorting keeps the items and puts them in order
-/

namespace BlockProgram.Sorted

open List

variable {α : Type}

theorem mem_insert (le : α → α → Bool) (a x : α) (l : List α) :
    x ∈ insert le a l ↔ x = a ∨ x ∈ l := by
  induction l with
  | nil => simp [insert]
  | cons b r ih =>
    unfold insert
    split
    · exact mem_cons
    · rw [mem_cons, ih, mem_cons]
      exact or_left_comm

theorem mem_sort (le : α → α → Bool) (x : α) (l : List α) : x ∈ sort le l ↔ x ∈ l := by
  induction l with
  | nil => exact Iff.rfl
  | cons a r ih =>
    unfold sort
    rw [mem_insert, ih, mem_cons]

theorem perm_insert (le : α → α → Bool) (a : α) (l : List α) : (insert le a l).Perm (a :: l) := by
  induction l with
  | nil => exact .refl _
  | cons b r ih =>
    unfold insert
    split
    · exact .refl _
    · exact (ih.cons b).trans (.swap a b r)

theorem perm_sort (le : α → α → Bool) (l : List α) : (sort le l).Perm l := by
  induction l with
  | nil => exact .refl _
  | cons a r ih => exact (perm_insert le a (sort le r)).trans (ih.cons a)

section Order

variable {le : α → α → Bool} (htotal : ∀ a b, le a b = true ∨ le b a = true)
  (htrans : ∀ a b c, le a b = true → le b c = true → le a c = true)
include htotal htrans

theorem pairwise_insert {a : α} {l : List α} (h : l.Pairwise fun x y => le x y = true) :
    (insert le a l).Pairwise fun x y => le x y = true := by
  induction l with
  | nil => exact pairwise_singleton _ a
  | cons b r ih =>
    obtain ⟨hb, hr⟩ := pairwise_cons.mp h
    unfold insert
    split
    · next hab =>
      refine pairwise_cons.mpr ⟨fun x hx => ?_, h⟩
      rcases mem_cons.mp hx with rfl | hx
      · exact hab
      · exact htrans a b x hab (hb x hx)
    · next hab =>
      refine pairwise_cons.mpr ⟨fun x hx => ?_, ih hr⟩
      rcases (mem_insert le a x r).mp hx with rfl | hx
      · exact (htotal b x).resolve_right hab
      · exact hb x hx

theorem pairwise_sort (l : List α) : (sort le l).Pairwise fun x y => le x y = true := by
  induction l with
  | nil => exact .nil
  | cons a r ih => exact pairwise_insert htotal htrans ih

end Order

end BlockProgram.Sorted
