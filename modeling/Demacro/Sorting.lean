/-!
Lists put in order by insertion. Elements that may stand either way keep the order that they had.
-/

namespace Demacro.Sorting

variable {α : Type}

/-- The list with one more element in front of the first that may stand behind it. -/
def insert (le : α → α → Bool) (a : α) : List α → List α
  | [] => [a]
  | b :: bs => if le a b then a :: b :: bs else b :: insert le a bs

/-- The elements of a list in order. -/
def sort (le : α → α → Bool) : List α → List α
  | [] => []
  | a :: as => insert le a (sort le as)

end Demacro.Sorting
