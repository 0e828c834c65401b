/-!
# Sorting

Insertion sort by a Boolean order. Items that the order takes as equal keep their places.
-/

namespace BlockProgram.Sorted

variable {α : Type}

/-- Puts an item in front of the first one that it may precede. -/
def insert (le : α → α → Bool) (a : α) : List α → List α
  | [] => [a]
  | b :: r => if le a b then a :: b :: r else b :: insert le a r

/-- The items in order. -/
def sort (le : α → α → Bool) : List α → List α
  | [] => []
  | a :: r => insert le a (sort le r)

/-- Texts in the order of their characters. -/
def texts (l : List String) : List String :=
  sort (fun a b => decide (a ≤ b)) l

end BlockProgram.Sorted
